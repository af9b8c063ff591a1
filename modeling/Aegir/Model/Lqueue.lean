import Aegir.Std.Run

/-!
# `lqueue`

The queue class of `common.h` and any number of threads that call `push` and `pop`. `push` is one
critical section. `pop` waits in a critical section until the queue is not empty; after it, without the
lock, it copies the front element and removes an element, and returns the copy. A thread that waits has
no step as long as the queue is empty. The elements carry the number of the `push` that stored them.
-/

namespace Aegir

/-- Where a thread stands in `pop`. -/
inductive PopPc (T : Type*)
  | outside
  | waited
  /-- The copy, unless there was no element to copy. -/
  | copied (v : Option (Nat × T))

/-- The members of `lqueue`, and where each thread stands. -/
structure Lqueue (T : Type*) where
  q : List (Nat × T)
  pc : Nat → PopPc T
  /-- History: the elements pushed, and those that calls of `pop` returned, in order. -/
  pushed : List (Nat × T)
  returned : List (Nat × T)
  /-- History: `front` or `pop` of the underlying queue was executed when it was empty. -/
  emptyAccess : Bool

/-- A step of a thread: `push`, or one of the steps of `pop` of the thread `t`. -/
inductive LqueueAction (T : Type*)
  | push (v : T)
  | wait (t : Nat)
  | front (t : Nat)
  | pop (t : Nat)

namespace Lqueue

variable {T : Type*}

/-- The constructor, and no call so far. -/
def init : Lqueue T := ⟨[], fun _ => .outside, [], [], false⟩

/-- The thread `t` moves on. -/
def goto (s : Lqueue T) (t : Nat) (pc : PopPc T) : Lqueue T :=
  { s with pc := Function.update s.pc t pc }

section
variable {s : Lqueue T} {t t' : Nat} {pc : PopPc T}

@[simp] theorem goto_pc_self : (s.goto t pc).pc t = pc := Function.update_self ..
theorem goto_pc_of_ne (h : t' ≠ t) : (s.goto t pc).pc t' = s.pc t' := Function.update_of_ne h ..

end

/-- An access to the first element of the underlying queue. -/
def access (s : Lqueue T) : Lqueue T := { s with emptyAccess := s.emptyAccess || s.q.isEmpty }

/-- One step of a thread. -/
def step (s : Lqueue T) : LqueueAction T → Option (Lqueue T)
  | .push v =>
    some { s with q := s.q ++ [(s.pushed.length, v)], pushed := s.pushed ++ [(s.pushed.length, v)] }
  | .wait t =>
    match s.pc t with
    | .outside => if s.q.isEmpty then none else some (s.goto t .waited)
    | _ => none
  | .front t =>
    match s.pc t with
    | .waited => some (s.access.goto t (.copied s.q.head?))
    | _ => none
  | .pop t =>
    match s.pc t with
    | .copied v =>
      some { s.access.goto t .outside with q := s.q.tail, returned := s.returned ++ v.toList }
    | _ => none

end Lqueue
end Aegir
