import Aegir.Model.Coherent

/-!
# The end of the program

The coherent loop with `do_exit`, the drivers that deliver blocks, and `main` from the loop that
publishes packets to the end of `coherent.join()`. `read` tests `streaming` before it waits for a token,
and only the wait is under the mutex: the test and the end of the wait are steps of their own. A driver
calls `asynch_callback`, which cancels the transfer when the device was asked to exit and passes the
block to `swapbuffer` in any case; a driver that has nothing more to deliver ends, after a cancel or
because the receiver was unplugged. What `main` publishes is in `Aegir.Model.Publish`.
-/

namespace Aegir

/-- Where the coherent thread stands, beside the position in the loop body. -/
inductive LoopThread
  /-- `while (!ctx->do_exit)`. -/
  | test
  | body
  /-- In the wait of `read`, behind the test of `streaming`. -/
  | waiting
  | finished
  deriving DecidableEq, Repr

/-- Where a driver stands. -/
inductive DriverPc
  | idle
  /-- In `asynch_callback`, before `swapbuffer`. -/
  | callback
  | ended
  deriving DecidableEq, Repr

/-- What `main` does next; `k` is a device. -/
inductive EndPc
  /-- `transport->send()`, in its wait. -/
  | send
  /-- `while (!exit_all)`. -/
  | test
  /-- `stop` of device `k`: `streaming = false`, then `request_exit` of its controller. -/
  | stop (k : Nat) | controllerExit (k : Nat)
  /-- `request_exit` of device `k`. -/
  | requestExit (k : Nat)
  /-- `coherent.request_exit()` and `coherent.join()`. -/
  | coherentExit | join
  | joined
  deriving DecidableEq, Repr

/-- The threads and the flags that end them. -/
structure ReceiverState (C R : Type*) where
  loop : CoherentState C R
  thread : LoopThread
  /-- `ccoherent::do_exit`. -/
  doExit : Bool
  bufferfilled : Bool
  exitAll : Bool
  main : EndPc
  /-- `csdrdevice::do_exit`. -/
  devExit : Nat → Bool
  driver : Nat → DriverPc
  /-- The transfer has been cancelled. -/
  cancelled : Nat → Bool

/-- A step of a thread. -/
inductive ReceiverAction
  | main
  | coherent
  /-- The driver of device `k` calls `asynch_callback`, or goes on in it with the block `b`. -/
  | driver (k : Nat) (b : Mem)
  | driverEnds (k : Nat)
  /-- SIGINT. -/
  | interrupt
  /-- The console and the controllers. -/
  | other (a : CoherentAction)

namespace ReceiverState

section
variable {C R : Type*} (cfg : CoherentConfig C R) (s : ReceiverState C R)

/-- `streaming = false`. -/
def stopStreaming (k : Nat) : ReceiverState C R :=
  { s with loop := s.loop.withCore (s.loop.setStream k { s.loop.stream k with streaming := false }) }

/-- `set_synchronized(false)`. -/
def desynchronize (k : Nat) : ReceiverState C R :=
  { s with loop := s.loop.setDsp k { s.loop.dsp k with synced := false } }

/-- The device after `k`, in the order of `main`. -/
def nextStop (k : Nat) : EndPc := if k + 1 ≤ cfg.ndev then .stop (k + 1) else .coherentExit

/-- The next step of `main`. -/
def mainStep : Option (ReceiverState C R) :=
  match s.main with
  | .send => if s.bufferfilled then some { s with bufferfilled := false, main := .test } else none
  | .test => some { s with main := if s.exitAll then .stop 0 else .send }
  | .stop k => some { s.stopStreaming k with main := .controllerExit k }
  | .controllerExit k => some { s.desynchronize k with main := .requestExit k }
  | .requestExit k =>
    some { s with devExit := Function.update s.devExit k true, main := nextStop cfg k }
  | .coherentExit => some { s with doExit := true, main := .join }
  | .join => match s.thread with
    | .finished => some { s with main := .joined }
    | _ => none
  | .joined => none

/-- A step of the driver of device `k`. -/
def driverStep (k : Nat) (b : Mem) : Option (ReceiverState C R) :=
  match s.driver k with
  | .idle => some { s with
      driver := Function.update s.driver k .callback
      cancelled := Function.update s.cancelled k (s.cancelled k || s.devExit k) }
  | .callback => some { s with
      loop := s.loop.withCore (s.loop.toLoopCore.swapbuffer cfg.order k b)
      driver := Function.update s.driver k .idle }
  | .ended => none

/-- `newdata--` for the device that the loop is about to read, and the position behind `read`. -/
def readDone (s : CoherentState C R) : Option (CoherentState C R) :=
  match s.pc with
  | .refRead => some { s.withCore ((s.setStream 0
      { s.stream 0 with newdata := (s.stream 0).newdata - 1 }).goto .refConv) with lagqueue := [] }
  | .dev a i c .read => some (s.withCore ((s.setStream i
      { s.stream i with newdata := (s.stream i).newdata - 1 }).goto (.dev a i c .test)))
  | _ => none

end

variable {C R : Type*} [Field C] [Star C] [Field R] [DecidableEq R] (cfg : CoherentConfig C R)
  (s : ReceiverState C R)

/-- The threads have been started, and `main` comes to its loop. -/
def init (noise : Bool) : ReceiverState C R where
  loop := .init cfg noise
  thread := .test
  doExit := false
  bufferfilled := false
  exitAll := false
  main := .test
  devExit _ := false
  driver _ := .idle
  cancelled _ := false

/-- A call of the loop body; `notifysend` is its last one. -/
def bodyStep : Option (ReceiverState C R) :=
  (s.loop.loopStep cfg).map fun l =>
    match s.loop.pc with
    | .notify => { s with loop := l, thread := .test, bufferfilled := true }
    | _ => { s with loop := l }

/-- A step of the coherent thread. -/
def coherentStep : Option (ReceiverState C R) :=
  match s.thread with
  | .test => some { s with thread := if s.doExit then .finished else .body }
  | .body => match s.loop.pc.reading with
    | some k => if (s.loop.stream k).streaming then some { s with thread := .waiting }
      else s.bodyStep cfg
    | none => s.bodyStep cfg
  | .waiting => match s.loop.pc.reading with
    | some k => if 0 < (s.loop.stream k).newdata then
        (readDone s.loop).map fun l => { s with loop := l, thread := .body }
      else none
    | none => none
  | .finished => none

/-- One step. -/
def step : ReceiverAction → Option (ReceiverState C R)
  | .main => s.mainStep cfg
  | .coherent => s.coherentStep cfg
  | .driver k b => s.driverStep cfg k b
  | .driverEnds k => match s.driver k with
    | .idle => some { s with driver := Function.update s.driver k .ended }
    | _ => none
  | .interrupt => some { s with exitAll := true }
  | .other a => match a with
    | .loop | .swapbuffer _ _ | .setStreaming _ _ => none
    | a => (s.loop.step cfg a).map fun l => { s with loop := l }

end ReceiverState
end Aegir
