import Aegir.Model.Barrier
import Aegir.Model.Coherent

/-!
# The start of the threads

What `main` does from the construction of the barrier to `coherent.start()`: `start` of the reference
device and of each signal device, and the threads that these calls create. A thread waits at the
barrier and then lets the driver call `swapbuffer` with every block. The reference device has the
number 0; its `start` creates the thread before it stores `streaming = true`, the `start` of the other
devices creates it afterwards. What the controllers do, which the same calls start, has no influence
on this.
-/

namespace Aegir

/-- What `main` does next. -/
inductive LaunchPc (ndev : ℕ)
  /-- `crefsdr::start`, `chackrfref::start`. -/
  | refThread | refStreaming
  /-- `crtlsdr::start`, `chackrf::start`. -/
  | streaming (k : Fin (ndev + 1)) | thread (k : Fin (ndev + 1))
  /-- `coherent.start()`. -/
  | coherent
  | started
  deriving DecidableEq, Repr

/-- The call of `start` for the device after `k`, if there is one. -/
def LaunchPc.after {ndev : ℕ} (k : Fin (ndev + 1)) : LaunchPc ndev :=
  if h : k + 1 < ndev + 1 then .streaming ⟨k + 1, h⟩ else .coherent

/-- The devices, their threads and `main`. -/
structure LaunchState (ndev : ℕ) where
  main : LaunchPc ndev
  /-- The thread of the device exists. -/
  created : Fin (ndev + 1) → Bool
  barrier : Barrier (Fin (ndev + 1))
  stream : Fin (ndev + 1) → Stream

/-- A step of `main`, of a thread at the barrier, or of the driver. -/
inductive LaunchAction (ndev : ℕ)
  | main
  | barrier (a : BarrierAction (Fin (ndev + 1)))
  | swapbuffer (k : Fin (ndev + 1)) (b : Mem)

namespace LaunchState

variable {ndev : ℕ} (o : ByteOrder) (s : LaunchState ndev)

/-- The constructed devices, and a barrier for all of them. -/
def init (asyncbufn blocksize : UInt32) : LaunchState ndev where
  main := .refThread
  created _ := false
  barrier := .init (.ofNat (ndev + 1))
  stream _ := .init asyncbufn blocksize

/-- `thread = std::thread(...)` of device `k`. -/
def create (k : Fin (ndev + 1)) : LaunchState ndev :=
  { s with created := Function.update s.created k true }

/-- `streaming = true` of device `k`. -/
def setStreaming (k : Fin (ndev + 1)) : LaunchState ndev :=
  { s with stream := Function.update s.stream k { s.stream k with streaming := true } }

/-- The next step of `main`. -/
def mainStep : Option (LaunchState ndev) :=
  match s.main with
  | .refThread => some { s.create 0 with main := .refStreaming }
  | .refStreaming => some { s.setStreaming 0 with main := .after 0 }
  | .streaming k => some { s.setStreaming k with main := .thread k }
  | .thread k => some { s.create k with main := .after k }
  | .coherent => some { s with main := .started }
  | .started => none

/-- One step. -/
def step : LaunchAction ndev → Option (LaunchState ndev)
  | .main => s.mainStep
  | .barrier a =>
    if s.created a.thread then (s.barrier.step a).map fun b => { s with barrier := b } else none
  | .swapbuffer k b =>
    if s.barrier.pc k = .passed then
      some { s with stream := Function.update s.stream k ((s.stream k).swapbuffer o b) }
    else none

end LaunchState
end Aegir
