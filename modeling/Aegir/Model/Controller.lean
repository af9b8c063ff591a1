import Aegir.Model.Sync

/-!
# The controller thread, with its corrections and its exit

The loop of `ccontrol::threadf` around the flags of `Aegir.Model.Sync`: the test of `do_exit`, and what
lies between the decision about a lag and the next round. For a large lag the controller sets the
correction `rate lag` of the resampler, sleeps and sets it back to zero; for a small one it sets it to
zero and calls `set_synchronized(true)`. `crtlsdr::set_correction_f` reaches the driver only before the
device is asked to exit; the result of the call is not looked at. `main` ends the controller by
`ccontrol::request_exit`, which stores `do_exit` and calls `set_synchronized(false)`, and the device by
`csdrdevice::request_exit`.
-/

namespace Aegir

/-- Where the controller stands in its loop. -/
inductive ControllerPc
  /-- `while (!ctx->do_exit)`. -/
  | test
  /-- In the body up to the decision about the lag; `SyncState.ctrl` tells where. -/
  | body
  | sleeping
  /-- `set_correction_f(0.0f)` behind the sleep. -/
  | resetting
  /-- `set_synchronized(true)`. -/
  | synchronizing
  | finished
  deriving DecidableEq, Repr

/-- What `main` has done to end the controller and its device. -/
inductive ExitStage
  | running
  /-- `do_exit = true` of the controller is stored. -/
  | stored
  /-- `set_synchronized(false)` has returned. -/
  | desynchronized
  /-- `do_exit = true` of the device is stored. -/
  | done
  deriving DecidableEq, Repr

/-- The flags of the device, the controller and the correction of the resampler. -/
structure ControllerState (L K : Type*) where
  sync : SyncState L
  pc : ControllerPc
  /-- `ccontrol::do_exit`. -/
  doExit : Bool
  /-- `csdrdevice::do_exit`. -/
  devExit : Bool
  exit : ExitStage
  /-- What the driver has last accepted. -/
  correction : K

/-- A step of one of the threads. -/
inductive ControllerAction (L : Type*)
  | loopTest
  | sync (a : SyncAction L)
  /-- `set_correction_f`; `accepted` tells whether the driver returns 0. -/
  | setCorrection (accepted : Bool)
  /-- `nanosleep` returns. -/
  | wakeUp
  /-- `set_synchronized(true)`. -/
  | synchronize
  /-- The next step of `main`. -/
  | exit
  deriving DecidableEq, Repr

/-- The controller takes the step. -/
def SyncAction.ofController {L : Type*} : SyncAction L → Bool
  | .wake | .retest | .readLag | .correct | .synchronize => true
  | .request c | .clearReady c | .block c | .ret c => c = .controller
  | _ => false

/-- The step ends the body of the controller's loop. -/
def SyncAction.endsBody {L : Type*} : SyncAction L → Bool
  | .correct | .synchronize => true
  | _ => false

/-- The controller takes the step. -/
def ControllerAction.ofController {L : Type*} : ControllerAction L → Bool
  | .sync a => a.ofController
  | .exit => false
  | _ => true

namespace ControllerState

variable {L K : Type*} [Zero K] (big : L → Bool) (rate : L → K)

/-- The constructed controller has been started; `open` has set the correction to zero. -/
def init (lag : L) : ControllerState L K where
  sync := .init lag
  pc := .test
  doExit := false
  devExit := false
  exit := .running
  correction := 0

/-- `crtlsdr::set_correction_f`. -/
def setCorrectionF (s : ControllerState L K) (f : K) (accepted : Bool) : ControllerState L K :=
  if s.devExit = false ∧ accepted = true then { s with correction := f } else s

/-- Where the controller is after a step of the flags: the body ends when `wait_synchronized` returns
true, because the flag has been set again. -/
def afterSync (s : ControllerState L K) : SyncAction L → ControllerPc
  | .retest => if s.sync.synced then .test else s.pc
  | _ => s.pc

/-- A step of the flags; the ones that end the body are steps of their own below. -/
def syncStep (s : ControllerState L K) (a : SyncAction L) : Option (ControllerState L K) :=
  if a.endsBody ∨ a.ofController ∧ s.pc ≠ .body then none
  else (s.sync.step big a).map fun t => { s with sync := t, pc := s.afterSync a }

/-- One step of the threads. -/
def step (s : ControllerState L K) : ControllerAction L → Option (ControllerState L K)
  | .loopTest => match s.pc with
    | .test => some { s with pc := if s.doExit then .finished else .body }
    | _ => none
  | .sync a => s.syncStep big a
  | .setCorrection accepted => match s.pc with
    | .body => match s.sync.ctrl with
      | .branch lag =>
        if big lag then some { s.setCorrectionF (rate lag) accepted with pc := .sleeping }
        else some { s.setCorrectionF 0 accepted with pc := .synchronizing }
      | _ => none
    | .resetting => (s.sync.step big .correct).map fun t =>
      { s.setCorrectionF 0 accepted with sync := t, pc := .test }
    | _ => none
  | .wakeUp => match s.pc with
    | .sleeping => some { s with pc := .resetting }
    | _ => none
  | .synchronize => match s.pc with
    | .synchronizing => (s.sync.step big .synchronize).map fun t =>
      { s with sync := t, pc := .test }
    | _ => none
  | .exit => match s.exit with
    | .running => some { s with doExit := true, exit := .stored }
    | .stored => some { s with
        sync := { s.sync with synced := false }
        exit := .desynchronized }
    | .desynchronized => some { s with devExit := true, exit := .done }
    | .done => none

end ControllerState
end Aegir
