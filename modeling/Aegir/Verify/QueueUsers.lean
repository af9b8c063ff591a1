import Aegir.Model.Lqueue

/-!
# How many threads may call `pop`

As long as a thread that copies the front element removes it before another thread copies it, and copies
nothing from an empty queue, `lqueue` is a queue: what was returned and what is left are what was pushed,
in order (`fifo_of_run`). One thread that calls `pop` always does so. A copy that another thread makes in
between leads to an access to an empty queue or to an element returned twice (`exists_violation`).
-/

namespace Aegir

namespace Lqueue

variable {T : Type*} {s s' : Lqueue T} {tr : List (LqueueAction T)} {t t' : Nat}

/-! ## Steps -/

theorem step_wait (h : s.step (.wait t) = some s') :
    s.pc t = .outside ∧ s.q ≠ [] ∧ s' = s.goto t .waited := by
  simp only [step] at h
  split at h
  next hpc =>
    split at h
    · cases h
    next hq =>
      refine ⟨hpc, fun hnil => hq (by rw [hnil]; rfl), (Option.some.inj h).symm⟩
  next => cases h

theorem step_front (h : s.step (.front t) = some s') :
    s.pc t = .waited ∧ s' = s.access.goto t (.copied s.q.head?) := by
  simp only [step] at h
  split at h
  next hpc => exact ⟨hpc, (Option.some.inj h).symm⟩
  next => cases h

theorem step_pop (h : s.step (.pop t) = some s') : ∃ v, s.pc t = .copied v ∧
    s' = { s.access.goto t .outside with q := s.q.tail, returned := s.returned ++ v.toList } := by
  simp only [step] at h
  split at h
  next v hpc => exact ⟨v, hpc, (Option.some.inj h).symm⟩
  next => cases h

/-- A thread that waited can copy, and no other thread moves. -/
theorem exists_step_front (h : s.pc t = .waited) :
    ∃ s', s.step (.front t) = some s' ∧ s'.pc t = .copied s.q.head? ∧ s'.q = s.q ∧
      s'.returned = s.returned ∧ ∀ t', t' ≠ t → s'.pc t' = s.pc t' :=
  ⟨s.access.goto t (.copied s.q.head?), by simp only [step, h], goto_pc_self, rfl, rfl,
    fun _ ht => goto_pc_of_ne ht⟩

/-- A thread that has copied can remove, and no other thread moves. -/
theorem exists_step_pop {v : Option (Nat × T)} (h : s.pc t = .copied v) :
    ∃ s', s.step (.pop t) = some s' ∧ s'.pc t = .outside ∧ s'.q = s.q.tail ∧
      s'.returned = s.returned ++ v.toList ∧ ∀ t', t' ≠ t → s'.pc t' = s.pc t' :=
  ⟨{ s.access.goto t .outside with q := s.q.tail, returned := s.returned ++ v.toList },
    by simp only [step, h], goto_pc_self, rfl, rfl, fun _ ht => goto_pc_of_ne ht⟩

/-! ## The queue -/

/-- Each element pushed is returned at most once, the elements are returned in the order in which they
were pushed, and no access found the underlying queue empty. -/
structure Fifo (s : Lqueue T) : Prop where
  once : (s.returned.map (·.1)).Nodup
  order : (s.returned.map (·.1)).Pairwise (· ≤ ·)
  nonempty : s.emptyAccess = false

/-- The front element is copied when there is one and no other thread has copied it and not yet removed
it. -/
def CopiesAlone (s : Lqueue T) : LqueueAction T → Prop
  | .front _ => s.q ≠ [] ∧ ∀ t v, s.pc t ≠ .copied v
  | _ => True

/-- What holds as long as the front element is copied by one thread at a time. -/
structure Inv (s : Lqueue T) : Prop where
  fifo : s.returned ++ s.q = s.pushed
  numbers : s.pushed.map (·.1) = List.range s.pushed.length
  nonempty : s.emptyAccess = false
  copied : ∀ t v, s.pc t = .copied v → s.q ≠ [] ∧ v = s.q.head?
  alone : ∀ t t' v v', s.pc t = .copied v → s.pc t' = .copied v' → t = t'

theorem Inv.init : Inv (.init : Lqueue T) where
  fifo := rfl
  numbers := rfl
  nonempty := rfl
  copied _ _ h := by cases h
  alone _ _ _ _ h := by cases h

theorem goto_copied {pc : PopPc T} {v : Option (Nat × T)} (h : (s.goto t pc).pc t' = .copied v) :
    t' = t ∧ pc = .copied v ∨ t' ≠ t ∧ s.pc t' = .copied v := by
  by_cases ht : t' = t
  · rw [ht, goto_pc_self] at h
    exact .inl ⟨ht, h⟩
  · rw [goto_pc_of_ne ht] at h
    exact .inr ⟨ht, h⟩

theorem Inv.push (hi : Inv s) (v : T) : Inv
    { s with q := s.q ++ [(s.pushed.length, v)], pushed := s.pushed ++ [(s.pushed.length, v)] } where
  fifo := by rw [← List.append_assoc, hi.fifo]
  numbers := by simp [hi.numbers, List.range_succ]
  nonempty := hi.nonempty
  copied t v ht := by
    obtain ⟨hne, hv⟩ := hi.copied t v ht
    refine ⟨by simp, hv.trans ?_⟩
    rw [List.head?_append_of_ne_nil _ hne]
  alone := hi.alone

theorem Inv.wait (hi : Inv s) : Inv (s.goto t .waited) where
  fifo := hi.fifo
  numbers := hi.numbers
  nonempty := hi.nonempty
  copied t' v h := by
    obtain ⟨-, h⟩ | ⟨-, h⟩ := goto_copied h
    · cases h
    · exact hi.copied t' v h
  alone t₁ t₂ v₁ v₂ h₁ h₂ := by
    obtain ⟨-, h₁⟩ | ⟨-, h₁⟩ := goto_copied h₁
    · cases h₁
    obtain ⟨-, h₂⟩ | ⟨-, h₂⟩ := goto_copied h₂
    · cases h₂
    exact hi.alone t₁ t₂ v₁ v₂ h₁ h₂

/-- The thread that copies is the only one that has copied. -/
theorem Inv.front (hi : Inv s) (hok : CopiesAlone s (.front t)) :
    Inv (s.access.goto t (.copied s.q.head?)) where
  fifo := hi.fifo
  numbers := hi.numbers
  nonempty := by simp [goto, access, hi.nonempty, hok.1]
  copied t' v h := by
    obtain ⟨-, h⟩ | ⟨-, h⟩ := goto_copied h
    · cases h
      exact ⟨hok.1, rfl⟩
    · exact absurd h (hok.2 t' v)
  alone t₁ t₂ v₁ v₂ h₁ h₂ := by
    obtain ⟨rfl, -⟩ | ⟨-, h₁⟩ := goto_copied h₁
    · obtain ⟨rfl, -⟩ | ⟨-, h₂⟩ := goto_copied h₂
      · rfl
      · exact absurd h₂ (hok.2 t₂ v₂)
    · exact absurd h₁ (hok.2 t₁ v₁)

/-- The element removed is the one that was copied. -/
theorem Inv.pop {v : Option (Nat × T)} (hi : Inv s) (hpc : s.pc t = .copied v) : Inv
    { s.access.goto t .outside with q := s.q.tail, returned := s.returned ++ v.toList } := by
  obtain ⟨hne, rfl⟩ := hi.copied t v hpc
  -- no other thread has copied
  have hnone : ∀ t' v, (s.access.goto t .outside).pc t' ≠ .copied v := by
    intro t' v' h
    obtain ⟨-, h⟩ | ⟨ht, h⟩ := goto_copied h
    · cases h
    · exact ht (hi.alone t' t _ _ h hpc)
  refine ⟨?_, hi.numbers, by simp [goto, access, hi.nonempty, hne], ?_, ?_⟩
  · obtain ⟨x, l, hq⟩ := List.exists_cons_of_ne_nil hne
    have hfifo := hi.fifo
    rw [hq] at hfifo ⊢
    rw [List.head?_cons, List.tail_cons, Option.toList_some, List.append_assoc]
    exact hfifo
  · exact fun t' v h => absurd h (hnone t' v)
  · exact fun t' _ v _ h => absurd h (hnone t' v)

theorem Inv.step {a : LqueueAction T} (hi : Inv s) (hok : CopiesAlone s a) (h : s.step a = some s') :
    Inv s' := by
  cases a with
  | push v => cases h; exact hi.push v
  | wait t =>
    obtain ⟨-, -, rfl⟩ := step_wait h
    exact hi.wait
  | front t =>
    obtain ⟨-, rfl⟩ := step_front h
    exact hi.front hok
  | pop t =>
    obtain ⟨v, hpc, rfl⟩ := step_pop h
    exact hi.pop hpc

theorem inv_of_run (h : Run step CopiesAlone init tr s) : Inv s :=
  h.invariant .init fun _ _ _ hi hok hs => hi.step hok hs

theorem Inv.fifo_returned (hi : Inv s) : Fifo s := by
  have hrange : s.returned.map (·.1) <+: List.range s.pushed.length := by
    rw [← hi.numbers, ← hi.fifo, List.map_append]
    exact List.prefix_append ..
  exact ⟨hrange.sublist.nodup List.nodup_range, List.pairwise_le_range.sublist hrange.sublist,
    hi.nonempty⟩

/-! ## One thread that calls `pop` -/

/-- Only the thread `t` calls `pop`. -/
def PopsAlone (t : Nat) (_ : Lqueue T) : LqueueAction T → Prop
  | .push _ => True
  | .wait t' | .front t' | .pop t' => t' = t

/-- The other threads are outside of `pop`, and no element is removed between the wait and the copy. -/
structure PopperInv (t : Nat) (s : Lqueue T) : Prop where
  others : ∀ t', t' ≠ t → s.pc t' = .outside
  waited : s.pc t = .waited → s.q ≠ []

theorem PopperInv.goto {pc : PopPc T} (hi : PopperInv t s) (h : pc = .waited → s.q ≠ []) :
    PopperInv t (s.goto t pc) where
  others t' ht := (goto_pc_of_ne ht).trans (hi.others t' ht)
  waited hpc := h (goto_pc_self.symm.trans hpc)

theorem PopperInv.step {a : LqueueAction T} (hi : PopperInv t s) (hok : PopsAlone t s a)
    (h : s.step a = some s') : PopperInv t s' := by
  cases a with
  | push v =>
    cases h
    exact ⟨hi.others, fun _ => by simp⟩
  | wait t' =>
    cases hok
    obtain ⟨-, hq, rfl⟩ := step_wait h
    exact hi.goto fun _ => hq
  | front t' =>
    cases hok
    obtain ⟨-, rfl⟩ := step_front h
    exact PopperInv.goto (s := s.access) ⟨hi.others, hi.waited⟩ (by rintro ⟨⟩)
  | pop t' =>
    cases hok
    obtain ⟨v, -, rfl⟩ := step_pop h
    have hgoto : PopperInv t (s.access.goto t .outside) :=
      PopperInv.goto (s := s.access) ⟨hi.others, hi.waited⟩ (by rintro ⟨⟩)
    refine ⟨hgoto.others, fun hpc => ?_⟩
    cases goto_pc_self.symm.trans hpc

/-- One thread copies what no other thread copies. -/
theorem PopperInv.copiesAlone {a : LqueueAction T} (hi : PopperInv t s) (hok : PopsAlone t s a)
    (h : s.step a = some s') : CopiesAlone s a := by
  cases a with
  | front t' =>
    cases hok
    obtain ⟨hpc, -⟩ := step_front h
    refine ⟨hi.waited hpc, fun t' v hv => ?_⟩
    by_cases ht : t' = t
    · rw [ht, hpc] at hv
      cases hv
    · rw [hi.others t' ht] at hv
      cases hv
  | push | wait | pop => trivial

theorem inv_of_popsAlone (h : Run step (PopsAlone t) init tr s) : Inv s :=
  (h.invariant (I := fun s => PopperInv t s ∧ Inv s)
    ⟨⟨fun _ _ => rfl, by rintro ⟨⟩⟩, .init⟩
    fun _ _ _ hi hok hs =>
      ⟨hi.1.step hok hs, hi.2.step (hi.1.copiesAlone hok hs) hs⟩).2

/-! ## A copy that another thread has made -/

/-- The copy leads to an access to an empty queue, or to an element that is returned twice. -/
theorem exists_violation (hi : Inv s) (hpc : s.pc t = .waited)
    (hnot : ¬CopiesAlone s (.front t)) :
    ∃ tr s', Run step anyStep s (.front t :: tr) s' ∧ ¬Fifo s' := by
  by_cases hq : s.q = []
  · have hfront : s.step (.front t) = some (s.access.goto t (.copied s.q.head?)) := by
      simp only [step, hpc]
    refine ⟨[], _, .snoc .nil trivial hfront, fun hf => ?_⟩
    have hempty := hf.nonempty
    simp [goto, access, hq] at hempty
  · obtain ⟨t', v, hv⟩ : ∃ t' v, s.pc t' = .copied v := by
      by_contra hnone
      exact hnot ⟨hq, fun t' v hv => hnone ⟨t', v, hv⟩⟩
    obtain ⟨-, rfl⟩ := hi.copied t' v hv
    obtain ⟨x, l, hx⟩ := List.exists_cons_of_ne_nil hq
    have ht : t' ≠ t := by
      rintro rfl
      rw [hpc] at hv
      cases hv
    -- both threads have copied `x`, and both return it
    obtain ⟨s₁, hs₁, hpc₁, -, -, hothers₁⟩ := exists_step_front hpc
    obtain ⟨s₂, hs₂, -, -, hret₂, hothers₂⟩ := exists_step_pop ((hothers₁ t' ht).trans hv)
    obtain ⟨s₃, hs₃, -, -, hret₃, -⟩ := exists_step_pop ((hothers₂ t ht.symm).trans hpc₁)
    refine ⟨[.pop t', .pop t], s₃, ((Run.nil.snoc trivial hs₁).snoc trivial hs₂).snoc trivial hs₃,
      fun hf => ?_⟩
    have honce := hf.once
    simp [hret₃, hret₂, hx, List.nodup_append] at honce

/-- For any threads: as long as the front element is copied by one thread at a time, and only when there is
one, the calls of `pop` return the elements pushed in order, each once, and what is left is in the queue.
Any other copy can be followed by an access to an empty queue or by an element returned twice. One thread
that calls `pop` makes no such copy. -/
theorem fifo_of_run (T : Type*) :
    (∀ tr s, Run step CopiesAlone (init : Lqueue T) tr s →
      Fifo s ∧ s.returned ++ s.q = s.pushed) ∧
    (∀ tr s t, Run step CopiesAlone (init : Lqueue T) tr s → s.pc t = .waited →
      ¬CopiesAlone s (.front t) →
      ∃ tr' s', Run step anyStep s (.front t :: tr') s' ∧ ¬Fifo s') ∧
    ∀ t tr s, Run step (PopsAlone t) (init : Lqueue T) tr s →
      Fifo s ∧ s.returned ++ s.q = s.pushed := by
  refine ⟨fun tr s h => ?_, fun tr s t h hpc hnot => ?_, fun t tr s h => ?_⟩
  · have hi := inv_of_run h
    exact ⟨hi.fifo_returned, hi.fifo⟩
  · exact exists_violation (inv_of_run h) hpc hnot
  · have hi := inv_of_popsAlone h
    exact ⟨hi.fifo_returned, hi.fifo⟩

/-- A thread that waited returns the first element, if no other one has copied it. -/
theorem exists_turn {x : Nat × T} {l : List (Nat × T)} (hpc : s.pc t = .waited) (hq : s.q = x :: l)
    (hnone : ∀ t v, s.pc t ≠ .copied v) :
    ∃ s', Run step CopiesAlone s [.front t, .pop t] s' ∧ s'.q = l ∧
      s'.returned = s.returned ++ [x] ∧ (∀ t v, s'.pc t ≠ .copied v) ∧
      ∀ t', t' ≠ t → s'.pc t' = s.pc t' := by
  obtain ⟨s₁, hs₁, hpc₁, hq₁, hret₁, hothers₁⟩ := exists_step_front hpc
  obtain ⟨s₂, hs₂, hpc₂, hq₂, hret₂, hothers₂⟩ := exists_step_pop hpc₁
  have hothers : ∀ t', t' ≠ t → s₂.pc t' = s.pc t' := fun t' ht =>
    (hothers₂ t' ht).trans (hothers₁ t' ht)
  refine ⟨s₂, (Run.nil.snoc ⟨by simp [hq], hnone⟩ hs₁).snoc trivial hs₂, by rw [hq₂, hq₁, hq, List.tail_cons],
    by rw [hret₂, hret₁, hq, List.head?_cons, Option.toList_some], fun t' v h => ?_, hothers⟩
  by_cases ht : t' = t
  · rw [ht, hpc₂] at h
    cases h
  · rw [hothers t' ht] at h
    exact hnone t' v h

/-- Two threads that both wait and then return one element after the other. -/
def alternatingTrace : List (LqueueAction Char) :=
  [.push 'a', .push 'b', .wait 1, .wait 2, .front 1, .pop 1, .front 2, .pop 2]

theorem run_alternatingTrace :
    ∃ s, Run step CopiesAlone (init : Lqueue Char) alternatingTrace s ∧
      s.returned = [(0, 'a'), (1, 'b')] := by
  let s₀ : Lqueue Char := init
  let s₁ : Lqueue Char := { s₀ with q := [(0, 'a'), (1, 'b')], pushed := [(0, 'a'), (1, 'b')] }
  have hwait : Run step CopiesAlone s₀ [.push 'a', .push 'b', .wait 1, .wait 2]
      ((s₁.goto 1 .waited).goto 2 .waited) :=
    (((Run.nil.snoc trivial rfl).snoc trivial rfl).snoc trivial rfl).snoc trivial rfl
  have hnone : ∀ t v, ((s₁.goto 1 .waited).goto 2 .waited).pc t ≠ .copied v := fun t v h => by
    obtain ⟨-, h⟩ | ⟨-, h⟩ := goto_copied h
    · cases h
    · obtain ⟨-, h⟩ | ⟨-, h⟩ := goto_copied h <;> cases h
  obtain ⟨s₂, hrun₂, hq₂, hret₂, hnone₂, hothers⟩ := exists_turn (t := 1) rfl rfl hnone
  obtain ⟨s₃, hrun₃, -, hret₃, -, -⟩ := exists_turn ((hothers 2 (by decide)).trans rfl) hq₂ hnone₂
  exact ⟨s₃, (hwait.append hrun₂).append hrun₃, by rw [hret₃, hret₂]; rfl⟩

theorem fifo_alternatingTrace :
    ∃ s, Run step CopiesAlone (init : Lqueue Char) alternatingTrace s ∧
      s.returned = [(0, 'a'), (1, 'b')] ∧ Fifo s ∧ s.returned ++ s.q = s.pushed := by
  obtain ⟨s, hrun, hs⟩ := run_alternatingTrace
  exact ⟨s, hrun, hs, (fifo_of_run Char).1 _ s hrun⟩

/-- Two threads wait for one element. -/
def staleTrace : List (LqueueAction Char) :=
  [.push 'a', .wait 1, .wait 2, .front 1, .front 2, .pop 1, .pop 2]

theorem not_fifo_of_run :
    ¬ ∀ tr s, Run step anyStep (init : Lqueue Char) tr s → Fifo s := by
  intro h
  obtain ⟨s, hrun, hs⟩ := Run.exists_of_exec step anyStep (init : Lqueue Char) staleTrace
    (fun s => s.emptyAccess) (by decide +kernel)
  have hf := (h _ s hrun).nonempty
  rw [hs] at hf
  cases hf

end Lqueue
end Aegir
