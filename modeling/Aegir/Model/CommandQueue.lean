import Aegir.Std.Run
import Aegir.Model.Console

/-!
# The threads around the command queue

The console thread (`consolethreadf`) creates the queue, starts the threads that read commands
(`localc` and `remotec`), executes commands until `do_exit` is set, waits for the two threads and
deletes the queue. The main thread publishes packets until `exit_all` is set, by the signal
handler or by the `raise` at the end of the console thread, and then calls `request_exit`. Every
access to the queue, to its pointer or to a flag is a step of its own; `pop` is one, because nothing
else removes a command and `push` adds behind the one that it takes. What a command does to the
devices is left out.
-/

namespace Aegir

/-- `commandqueue`: the null pointer, a queue with its commands, or the address of a deleted queue. -/
inductive QueuePtr
  | null
  | live (q : List (List Char))
  | deleted
  deriving DecidableEq, Repr

/-- `push`; with any other pointer the behaviour is undefined. -/
def QueuePtr.push (c : List Char) : QueuePtr → QueuePtr
  | .live q => .live (q ++ [c])
  | p => p

/-- Where a thread stands in `cconsole::request_exit`. -/
inductive ExitPc
  | storeDoExit | storeExitConsole | testPointer | push
  deriving DecidableEq, Repr

/-- Where `consolethreadf` stands. -/
inductive ConsolePc
  | create | startLocal | startRemote | storeInitial
  /-- `while (!ctx->do_exit)`. -/
  | loopTest
  | pop
  | popped (c : List Char)
  /-- `request_exit` for the command `quit`, and the store after it. -/
  | quit (pc : ExitPc) | storeExitConsole
  | storeProcessed
  | joinLocal | joinRemote | delete | raise | finished
  deriving DecidableEq, Repr

/-- Where `localc` stands. -/
inductive LocalPc
  | notStarted | testExit | testProcessed | getline
  | push (c : List Char)
  | storeProcessed
  | finished
  deriving DecidableEq, Repr

/-- Where `remotec` stands. -/
inductive RemotePc
  | notStarted | testExit | recv
  | push (c : List Char)
  | finished
  deriving DecidableEq, Repr

/-- Where the main thread stands from the loop that publishes packets on. -/
inductive MainPc
  | sending
  | exit (pc : ExitPc)
  | join | finished
  deriving DecidableEq, Repr

/-- The variables that the threads share, and where each of them stands. -/
structure QueueState where
  commandqueue : QueuePtr
  doExit : Bool
  exitConsole : Bool
  commandProcessed : Bool
  exitAll : Bool
  console : ConsolePc
  localc : LocalPc
  remotec : RemotePc
  main : MainPc
  deriving DecidableEq, Repr

/-- A step of a thread: `getline` reads `line`, `recv` returns with `msg` or, when its time is over,
without one. -/
inductive QueueAction
  | console
  | localc (line : List Char)
  | remotec (msg : Option (List Char))
  | main
  /-- SIGINT from outside. -/
  | interrupt
  deriving DecidableEq, Repr

namespace QueueState

/-- The console has been started. -/
def init : QueueState where
  commandqueue := .null
  doExit := false
  exitConsole := false
  commandProcessed := false
  exitAll := false
  console := .create
  localc := .notStarted
  remotec := .notStarted
  main := .sending

/-- One step of `request_exit`, and where the thread stands after it. -/
def requestExit (s : QueueState) : ExitPc → QueueState × Option ExitPc
  | .storeDoExit => ({ s with doExit := true }, some .storeExitConsole)
  | .storeExitConsole => ({ s with exitConsole := true }, some .testPointer)
  | .testPointer => (s, if s.commandqueue = .null then none else some .push)
  | .push => ({ s with commandqueue := s.commandqueue.push [] }, none)

def consoleStep (s : QueueState) : Option QueueState :=
  match s.console with
  | .create => some { s with commandqueue := .live [], console := .startLocal }
  | .startLocal => some { s with localc := .testExit, console := .startRemote }
  | .startRemote => some { s with remotec := .testExit, console := .storeInitial }
  | .storeInitial => some { s with commandProcessed := true, console := .loopTest }
  | .loopTest => some { s with console := if s.doExit then .joinLocal else .pop }
  | .pop => match s.commandqueue with
    | .live (c :: q) => some { s with commandqueue := .live q, console := .popped c }
    | _ => none
  | .popped c =>
    some { s with console := if s.doExit = false ∧ parsecmd c = .quit then .quit .storeDoExit
                             else .storeProcessed }
  | .quit pc =>
    let (s, next) := s.requestExit pc
    some { s with console := next.elim .storeExitConsole .quit }
  | .storeExitConsole => some { s with exitConsole := true, console := .storeProcessed }
  | .storeProcessed => some { s with commandProcessed := true, console := .loopTest }
  | .joinLocal => if s.localc = .finished then some { s with console := .joinRemote } else none
  | .joinRemote => if s.remotec = .finished then some { s with console := .delete } else none
  | .delete => some { s with commandqueue := .deleted, console := .raise }
  | .raise => some { s with exitAll := true, console := .finished }
  | .finished => none

def localStep (s : QueueState) (line : List Char) : Option QueueState :=
  match s.localc with
  | .notStarted => none
  | .testExit => some { s with localc := if s.exitConsole then .finished else .testProcessed }
  | .testProcessed =>
    some { s with localc := if s.commandProcessed then .getline else .testExit }
  | .getline => some { s with localc := .push line }
  | .push c => some { s with commandqueue := s.commandqueue.push c, localc := .storeProcessed }
  | .storeProcessed => some { s with commandProcessed := false, localc := .testExit }
  | .finished => none

def remoteStep (s : QueueState) (msg : Option (List Char)) : Option QueueState :=
  match s.remotec with
  | .notStarted => none
  | .testExit => some { s with remotec := if s.exitConsole then .finished else .recv }
  | .recv => some { s with remotec := msg.elim .testExit .push }
  | .push c => some { s with commandqueue := s.commandqueue.push c, remotec := .testExit }
  | .finished => none

def mainStep (s : QueueState) : Option QueueState :=
  match s.main with
  | .sending => if s.exitAll then some { s with main := .exit .storeDoExit } else none
  | .exit pc =>
    let (s, next) := s.requestExit pc
    some { s with main := next.elim .join .exit }
  | .join => if s.console = .finished then some { s with main := .finished } else none
  | .finished => none

/-- One step of the threads. -/
def step (s : QueueState) : QueueAction → Option QueueState
  | .console => s.consoleStep
  | .localc line => s.localStep line
  | .remotec msg => s.remoteStep msg
  | .main => s.mainStep
  | .interrupt => some { s with exitAll := true }

/-- The next step of the thread is a push or a pop. -/
def accesses (s : QueueState) : QueueAction → Bool
  | .console => s.console = .pop ∨ s.console = .quit .push
  | .localc _ => match s.localc with
    | .push _ => true
    | _ => false
  | .remotec _ => match s.remotec with
    | .push _ => true
    | _ => false
  | .main => s.main = .exit .push
  | .interrupt => false

end QueueState
end Aegir
