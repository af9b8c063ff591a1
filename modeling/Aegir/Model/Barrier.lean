import Aegir.Std.Run

/-!
# `barrier`

The class of `common.h` at which the acquisition threads wait for each other. `cnt` is a `size_t`; the
threads are the elements of a type `ι`. A thread that finds the predicate of `cv.wait` false sleeps
until it is notified, or wakes up for no reason, and then evaluates the predicate again. Each step is
what a thread does while it holds the mutex.
-/

namespace Aegir

/-- Where a thread stands with `barrier::wait`. -/
inductive BarrierPc
  | outside
  /-- It sleeps in `cv.wait`. -/
  | asleep
  /-- It has been woken up, the predicate is next. -/
  | awake
  /-- `wait` has returned. -/
  | passed
  deriving DecidableEq, Repr

/-- A notification. -/
def BarrierPc.notified : BarrierPc → BarrierPc
  | asleep => awake
  | pc => pc

/-- The barrier and the threads. -/
structure Barrier (ι : Type*) where
  cnt : UInt64
  pc : ι → BarrierPc

/-- A step of a thread. -/
inductive BarrierAction (ι : Type*)
  /-- The call of `wait`, up to the end of `cv.wait` or to its sleep. -/
  | wait (i : ι)
  /-- A thread wakes up for no reason. -/
  | spurious (i : ι)
  /-- A woken thread evaluates the predicate. -/
  | test (i : ι)
  deriving DecidableEq, Repr

/-- The thread that takes the step. -/
def BarrierAction.thread {ι : Type*} : BarrierAction ι → ι
  | wait i | spurious i | test i => i

namespace Barrier

variable {ι : Type*} [DecidableEq ι]

/-- The constructor; no thread has called `wait`. -/
def init (cnt : UInt64) : Barrier ι := ⟨cnt, fun _ => .outside⟩

/-- Thread `i` moves to `pc`. -/
def goto (s : Barrier ι) (i : ι) (pc : BarrierPc) : Barrier ι :=
  { s with pc := Function.update s.pc i pc }

/-- `cv.notify_all`. -/
def notifyAll (s : Barrier ι) : Barrier ι := { s with pc := fun i => (s.pc i).notified }

/-- `barrier::wait`, for thread `i`. -/
def wait (s : Barrier ι) (i : ι) : Barrier ι :=
  let s := { s with cnt := s.cnt - 1 }
  if s.cnt = 0 then s.notifyAll.goto i .passed else s.goto i .asleep

/-- One step of a thread. -/
def step (s : Barrier ι) : BarrierAction ι → Option (Barrier ι)
  | .wait i => if s.pc i = .outside then some (s.wait i) else none
  | .spurious i => if s.pc i = .asleep then some (s.goto i .awake) else none
  | .test i =>
    if s.pc i = .awake then some (s.goto i (if s.cnt = 0 then .passed else .asleep)) else none

end Barrier
end Aegir
