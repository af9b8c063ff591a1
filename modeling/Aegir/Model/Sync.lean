import Aegir.Std.Run

/-!
# The flags between a device's controller, the console and the coherent thread

For one device: the controller thread (`ccontrol::threadf`) waits until `synced` is false, asks for a
lag and waits for it (`requestfftblocking`), and then corrects the sample rate or stores
`synced = true`. The console asks for a lag in the same way (`request lag`) and clears `synced`
(`samplerate`, `request sync`). The coherent thread tests `lagrequested`, queues the device, and
calls `set_lag`. Every store and every test of a flag is a step of its own; `set_lag` keeps `fftmtx`
between its two stores, and the wait evaluates its predicate under it.
-/

namespace Aegir

/-- The threads that call `requestfftblocking`. -/
inductive Caller
  | controller | console
  deriving DecidableEq, Repr

/-- Where a thread stands in `requestfftblocking`. -/
inductive ReqPc
  | out
  /-- `lagrequested = true` is stored. -/
  | requested
  /-- `lagready = false` is stored, the wait is next. -/
  | cleared
  /-- The predicate of the wait was false. -/
  | blocked
  deriving DecidableEq, Repr

/-- Where the controller stands in its loop. -/
inductive CtrlPc (L : Type*)
  | waitSync
  /-- The wait of `wait_synchronized` is over, its return value is next. -/
  | woke
  /-- Before or in `requestfftblocking`. -/
  | request
  | readLag
  | branch (lag : L)
  deriving DecidableEq, Repr

/-- Where the coherent thread stands with the device. -/
inductive LagPc
  | idle
  /-- The device is in the lag queue. -/
  | queued
  /-- `set_lag` has stored the lag. -/
  | stored
  /-- `set_lag` holds `fftmtx` and has stored `lagready = true`. -/
  | readied
  deriving DecidableEq, Repr

/-- The flags of the device and the position of the threads. -/
structure SyncState (L : Type*) where
  lagrequested : Bool
  lagready : Bool
  synced : Bool
  lagp : L
  req : Caller → ReqPc
  ctrl : CtrlPc L
  coherent : LagPc
  /-- History: the console has cleared `synced` since the controller's last request. -/
  clearPending : Bool

/-- A step of one of the threads. -/
inductive SyncAction (L : Type*)
  /-- `wait_synchronized` of the controller. -/
  | wake | retest
  /-- `requestfftblocking`. -/
  | request (c : Caller) | clearReady (c : Caller) | block (c : Caller) | ret (c : Caller)
  | readLag | correct | synchronize
  /-- `set_synchronized(false)` of the console. -/
  | clear
  /-- The coherent thread: the test of `lagrequested`, and `set_lag`. -/
  | test | storeLag (lag : L) | setReady | setRequested
  deriving DecidableEq, Repr

namespace SyncState

variable {L : Type*} (big : L → Bool)

/-- The state that the constructor leaves. -/
def init (lag : L) : SyncState L where
  lagrequested := true
  lagready := false
  synced := false
  lagp := lag
  req _ := .out
  ctrl := .waitSync
  coherent := .idle
  clearPending := false

/-- A thread goes on in `requestfftblocking`. -/
def setReq (s : SyncState L) (c : Caller) (pc : ReqPc) : SyncState L :=
  { s with req := Function.update s.req c pc }

/-- The thread may call `requestfftblocking`. -/
def mayRequest (s : SyncState L) : Caller → Bool
  | .controller => match s.ctrl with
    | .request => true
    | _ => false
  | .console => true

/-- One step of the threads; `big` is the test `fabs(lag) > sync_threshold`. -/
def step (s : SyncState L) : SyncAction L → Option (SyncState L)
  | .wake => match s.ctrl with
    | .waitSync => if s.synced then none else some { s with ctrl := .woke }
    | _ => none
  | .retest => match s.ctrl with
    | .woke => some { s with ctrl := if s.synced then .waitSync else .request }
    | _ => none
  | .request c =>
    if s.req c = .out ∧ s.mayRequest c then
      some { s.setReq c .requested with
        lagrequested := true
        clearPending := if c = .controller then false else s.clearPending }
    else none
  | .clearReady c =>
    if s.req c = .requested then some { s.setReq c .cleared with lagready := false } else none
  | .block c =>
    if s.req c = .cleared ∧ s.coherent ≠ .readied ∧ s.lagready = false then
      some (s.setReq c .blocked)
    else none
  | .ret c =>
    if (s.req c = .cleared ∨ s.req c = .blocked) ∧ s.coherent ≠ .readied ∧ s.lagready = true then
      some { s.setReq c .out with ctrl := if c = .controller then .readLag else s.ctrl }
    else none
  | .readLag => match s.ctrl with
    | .readLag => some { s with ctrl := .branch s.lagp }
    | _ => none
  | .correct => match s.ctrl with
    | .branch lag => if big lag then some { s with ctrl := .waitSync } else none
    | _ => none
  | .synchronize => match s.ctrl with
    | .branch lag => if big lag then none else some { s with synced := true, ctrl := .waitSync }
    | _ => none
  | .clear =>
    if s.req .console = .out then some { s with synced := false, clearPending := true } else none
  | .test => match s.coherent with
    | .idle => some { s with coherent := if s.lagrequested then .queued else .idle }
    | _ => none
  | .storeLag lag => match s.coherent with
    | .queued => some { s with lagp := lag, coherent := .stored }
    | _ => none
  | .setReady => match s.coherent with
    | .stored => some { s with lagready := true, coherent := .readied }
    | _ => none
  | .setRequested => match s.coherent with
    | .readied => some { s with lagrequested := false, coherent := .idle }
    | _ => none

/-- For an integer lag, `fabs(lag) > sync_threshold` says that it is not zero. -/
def exceeds (lag : Int) : Bool := lag != 0

end SyncState
end Aegir
