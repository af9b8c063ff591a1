import Aegir.Model.Barrier

/-!
# What the barrier lets through

For a barrier constructed with `cnt₀` and any number of threads, in every interleaving: nobody returns
from `wait` before `cnt₀` threads have called it, and no more than `cnt₀` threads ever return. When
`cnt₀` threads have called it, each of them has returned or is awake and returns in its next step: the
notification reaches every sleeper, and no thread goes back to sleep until another one calls `wait`.
-/

namespace Aegir

/-- What one step of a thread does. -/
inductive BarrierStep {ι : Type*} [DecidableEq ι] (s : Barrier ι) : Barrier ι → Prop
  | last {i} (hi : s.pc i = .outside) (hc : s.cnt - 1 = 0) :
    BarrierStep s ((Barrier.notifyAll { s with cnt := s.cnt - 1 }).goto i .passed)
  | sleep {i} (hi : s.pc i = .outside) (hc : s.cnt - 1 ≠ 0) :
    BarrierStep s (Barrier.goto { s with cnt := s.cnt - 1 } i .asleep)
  | spurious {i} (hi : s.pc i = .asleep) : BarrierStep s (s.goto i .awake)
  | leave {i} (hi : s.pc i = .awake) (hc : s.cnt = 0) : BarrierStep s (s.goto i .passed)
  | again {i} (hi : s.pc i = .awake) (hc : s.cnt ≠ 0) : BarrierStep s (s.goto i .asleep)

namespace Barrier

variable {ι : Type*} [DecidableEq ι] {s s' : Barrier ι}

theorem step_cases {a : BarrierAction ι} (h : s.step a = some s') : BarrierStep s s' := by
  cases a with
  | wait i =>
    obtain ⟨hi, heq⟩ := Option.ite_none_right_eq_some.mp h
    cases heq
    unfold wait
    by_cases hc : s.cnt - 1 = 0
    · simp only [hc, if_true]
      exact hc ▸ .last hi hc
    · simp only [hc, if_false]
      exact .sleep hi hc
  | spurious i =>
    obtain ⟨hi, heq⟩ := Option.ite_none_right_eq_some.mp h
    cases heq
    exact .spurious hi
  | test i =>
    obtain ⟨hi, heq⟩ := Option.ite_none_right_eq_some.mp h
    cases heq
    split
    case isTrue hc => exact .leave hi hc
    case isFalse hc => exact .again hi hc

/-- A thread that has not called `wait` is not moved by the others. -/
theorem pc_outside {a : BarrierAction ι} (h : s.step a = some s') {i : ι} (hi : i ≠ a.thread)
    (hpc : s.pc i = .outside) : s'.pc i = .outside := by
  cases a with
  | wait j =>
    obtain ⟨-, heq⟩ := Option.ite_none_right_eq_some.mp h
    cases heq
    have hj : i ≠ j := hi
    unfold wait
    dsimp only
    split <;> simp [goto, notifyAll, hj, hpc, BarrierPc.notified]
  | spurious j | test j =>
    obtain ⟨-, heq⟩ := Option.ite_none_right_eq_some.mp h
    cases heq
    have hj : i ≠ j := hi
    simp [goto, hj, hpc]

theorem notified_outside {pc : BarrierPc} : pc.notified = .outside ↔ pc = .outside := by
  cases pc <;> simp [BarrierPc.notified]

theorem notified_ne_asleep {pc : BarrierPc} : pc.notified ≠ .asleep := by
  cases pc <;> simp [BarrierPc.notified]

section
variable {ι : Type*} [Fintype ι] {s : Barrier ι}

/-- The threads that have called `wait`. -/
def arrived (s : Barrier ι) : Finset ι := {i | s.pc i ≠ .outside}

/-- The threads that have returned from it. -/
def passed (s : Barrier ι) : Finset ι := {i | s.pc i = .passed}

theorem mem_arrived {i : ι} : i ∈ s.arrived ↔ s.pc i ≠ .outside := by simp [arrived]

theorem mem_passed {i : ι} : i ∈ s.passed ↔ s.pc i = .passed := by simp [passed]

theorem passed_subset : s.passed ⊆ s.arrived := fun i hi => by
  rw [mem_arrived, mem_passed.mp hi]
  simp

theorem notifyAll_arrived : s.notifyAll.arrived = s.arrived := by
  ext j
  simp [mem_arrived, notifyAll, notified_outside]

/-- How the counter goes with the threads that have called `wait`. -/
structure Counts (cnt₀ : UInt64) (s : Barrier ι) : Prop where
  cnt : s.cnt = cnt₀ - UInt64.ofNat s.arrived.card
  le : s.passed.card ≤ cnt₀.toNat
  ge : s.passed.Nonempty → cnt₀.toNat ≤ s.arrived.card
  asleep : s.arrived.card = cnt₀.toNat → ∀ i, s.pc i ≠ .asleep

theorem counts_init {cnt₀ : UInt64} : Counts cnt₀ (init cnt₀ : Barrier ι) where
  cnt := by simp [arrived, init]
  le := by simp [passed, init]
  ge := by simp [passed, init]
  asleep _ i := by simp [init]

/-- One call of `wait` more, and the counter after it. -/
theorem Counts.cnt_sub_one {cnt₀ : UInt64} (h : Counts cnt₀ s) :
    s.cnt - 1 = cnt₀ - UInt64.ofNat (s.arrived.card + 1) := by
  rw [h.cnt, UInt64.ofNat_add, sub_sub]
  rfl

/-- The counter is zero when `cnt₀` threads have called `wait`. -/
theorem cnt_eq_zero_iff (hcard : Fintype.card ι < 2 ^ 64) {cnt₀ cnt : UInt64} {a : Finset ι}
    (h : cnt = cnt₀ - UInt64.ofNat a.card) : cnt = 0 ↔ a.card = cnt₀.toNat := by
  have ha : a.card < 2 ^ 64 := a.card_le_univ.trans_lt hcard
  subst h
  rw [sub_eq_zero, ← UInt64.toNat_inj, UInt64.toNat_ofNat_of_lt' ha]
  exact eq_comm

end

variable [Fintype ι] {cnt₀ : UInt64}

theorem goto_arrived {i : ι} {pc : BarrierPc} (h : pc ≠ .outside) :
    (s.goto i pc).arrived = insert i s.arrived := by
  ext j
  by_cases hj : j = i
  · subst hj
    simp [mem_arrived, goto, h]
  · simp [mem_arrived, goto, hj]

/-- A thread that has called `wait` moves on. -/
theorem goto_arrived_of_mem {i : ι} {pc : BarrierPc} (h : pc ≠ .outside)
    (hi : s.pc i ≠ .outside) : (s.goto i pc).arrived = s.arrived := by
  rw [goto_arrived h, Finset.insert_eq_of_mem (mem_arrived.mpr hi)]

theorem goto_passed {i : ι} {pc : BarrierPc} (h : pc ≠ .passed) (hi : s.pc i ≠ .passed) :
    (s.goto i pc).passed = s.passed := by
  ext j
  by_cases hj : j = i
  · subst hj
    simp [mem_passed, goto, h, hi]
  · simp [mem_passed, goto, hj]

/-- A thread that has not called `wait` does. -/
theorem card_goto_arrived {i : ι} {pc : BarrierPc} (h : pc ≠ .outside) (hi : s.pc i = .outside) :
    (s.goto i pc).arrived.card = s.arrived.card + 1 := by
  rw [goto_arrived h, Finset.card_insert_of_notMem]
  rw [mem_arrived, hi]
  simp

theorem Counts.step (hcard : Fintype.card ι < 2 ^ 64) (h : Counts cnt₀ s) (hs : BarrierStep s s') :
    Counts cnt₀ s' := by
  cases hs with
  | @last i hi hc =>
    set s₁ : Barrier ι := notifyAll { s with cnt := s.cnt - 1 } with hs₁
    have hout : s₁.pc i = .outside := notified_outside.mpr hi
    have harr : s₁.arrived = s.arrived := notifyAll_arrived
    have hcnt : (s₁.goto i .passed).cnt = cnt₀ - UInt64.ofNat (s₁.goto i .passed).arrived.card := by
      rw [card_goto_arrived (by simp) hout, harr, ← h.cnt_sub_one]
      rfl
    have hall := (cnt_eq_zero_iff hcard hcnt).mp hc
    refine ⟨hcnt, ?_, fun _ => hall.ge, fun _ j => ?_⟩
    · rw [← hall]
      exact Finset.card_le_card passed_subset
    · -- the sleepers have been notified
      by_cases hj : j = i
      · subst hj
        simp [goto]
      · have hne : s₁.pc j ≠ .asleep := notified_ne_asleep
        simpa [goto, hj] using hne
  | @sleep i hi hc =>
    set s₁ : Barrier ι := { s with cnt := s.cnt - 1 } with hs₁
    have hout : s₁.pc i = .outside := hi
    have hcnt : (s₁.goto i .asleep).cnt = cnt₀ - UInt64.ofNat (s₁.goto i .asleep).arrived.card := by
      rw [card_goto_arrived (by simp) hout]
      exact h.cnt_sub_one
    have hpassed : (s₁.goto i .asleep).passed = s.passed := goto_passed (by simp) (by simp [hout])
    refine ⟨hcnt, ?_, fun hp => ?_, fun hall => absurd ((cnt_eq_zero_iff hcard hcnt).mpr hall) hc⟩
    · rw [hpassed]
      exact h.le
    · rw [card_goto_arrived (by simp) hout]
      rw [hpassed] at hp
      exact (h.ge hp).trans (Nat.le_succ _)
  | @spurious i hi =>
    have harr : (s.goto i .awake).arrived = s.arrived := goto_arrived_of_mem (by simp) (by simp [hi])
    have hpassed : (s.goto i .awake).passed = s.passed := goto_passed (by simp) (by simp [hi])
    refine ⟨?_, ?_, ?_, fun hall => ?_⟩
    · rw [harr]; exact h.cnt
    · rw [hpassed]; exact h.le
    · rw [hpassed, harr]; exact h.ge
    · rw [harr] at hall
      exact absurd hi (h.asleep hall i)
  | @leave i hi hc =>
    have harr : (s.goto i .passed).arrived = s.arrived := goto_arrived_of_mem (by simp) (by simp [hi])
    have hall := (cnt_eq_zero_iff hcard h.cnt).mp hc
    refine ⟨?_, ?_, fun _ => ?_, fun _ j => ?_⟩
    · rw [harr]; exact h.cnt
    · rw [← hall, ← harr]
      exact Finset.card_le_card passed_subset
    · rw [harr]; exact hall.ge
    · by_cases hj : j = i
      · subst hj
        simp [goto]
      · simpa [goto, hj] using h.asleep hall j
  | @again i hi hc =>
    have harr : (s.goto i .asleep).arrived = s.arrived := goto_arrived_of_mem (by simp) (by simp [hi])
    have hpassed : (s.goto i .asleep).passed = s.passed := goto_passed (by simp) (by simp [hi])
    refine ⟨?_, ?_, ?_, fun hall => ?_⟩
    · rw [harr]; exact h.cnt
    · rw [hpassed]; exact h.le
    · rw [hpassed, harr]; exact h.ge
    · rw [harr] at hall
      exact absurd ((cnt_eq_zero_iff hcard h.cnt).mpr hall) hc

theorem counts_of_run (hcard : Fintype.card ι < 2 ^ 64) {tr : List (BarrierAction ι)}
    (h : Run Barrier.step anyStep (init cnt₀) tr s) : Counts cnt₀ s :=
  h.invariant counts_init fun _ _ _ hi _ hs => hi.step hcard (step_cases hs)

/-- The barrier lets `cnt₀` threads through, and none of them before as many have called `wait`. -/
theorem passed_of_run (hcard : Fintype.card ι < 2 ^ 64) {tr : List (BarrierAction ι)}
    (h : Run Barrier.step anyStep (init cnt₀) tr s) :
    s.passed.card ≤ cnt₀.toNat ∧ (s.passed.Nonempty → cnt₀.toNat ≤ s.arrived.card) :=
  have hc := counts_of_run hcard h
  ⟨hc.le, hc.ge⟩

/-- Two threads and a barrier for two: the first one sleeps, wakes up for no reason and sleeps again. -/
theorem passed_of_run_two : ∃ s : Barrier (Fin 2),
    Run Barrier.step anyStep (init 2) [.wait 0, .spurious 0, .test 0, .wait 1, .test 0] s ∧
      s.passed.card = 2 ∧ s.passed.card ≤ (2 : UInt64).toNat ∧
        (s.passed.Nonempty → (2 : UInt64).toNat ≤ s.arrived.card) := by
  obtain ⟨s, h, hp⟩ := Run.exists_of_exec (Barrier.step (ι := Fin 2)) anyStep (init 2)
    [.wait 0, .spurious 0, .test 0, .wait 1, .test 0] (fun s => s.passed.card = 2) (by decide)
  exact ⟨s, h, of_decide_eq_true hp, passed_of_run (by decide) h⟩

/-- When `cnt₀` threads have called `wait`, each of them has returned from it or returns in its next
step: no notification is lost. -/
theorem opens_of_run (hcard : Fintype.card ι < 2 ^ 64) {tr : List (BarrierAction ι)}
    (h : Run Barrier.step anyStep (init cnt₀) tr s) (hall : s.arrived.card = cnt₀.toNat) {i : ι}
    (hi : i ∈ s.arrived) :
    s.pc i = .passed ∨ s.pc i = .awake ∧ s.step (.test i) = some (s.goto i .passed) := by
  have hc := counts_of_run hcard h
  cases hpc : s.pc i with
  | outside => exact absurd hpc (mem_arrived.mp hi)
  | asleep => exact absurd hpc (hc.asleep hall i)
  | awake =>
    refine .inr ⟨rfl, ?_⟩
    have hzero := (cnt_eq_zero_iff hcard hc.cnt).mpr hall
    simp only [step, hpc, hzero, if_true]
  | passed => exact .inl rfl

/-- The first of two threads sleeps when the second one calls `wait`. -/
theorem opens_of_run_two : ∃ s : Barrier (Fin 2),
    Run Barrier.step anyStep (init 2) [.wait 0, .wait 1] s ∧ s.pc 0 ≠ .passed ∧
      (s.pc 0 = .passed ∨ s.pc 0 = .awake ∧ s.step (.test 0) = some (s.goto 0 .passed)) := by
  obtain ⟨s, h, hp⟩ := Run.exists_of_exec (Barrier.step (ι := Fin 2)) anyStep (init 2)
    [.wait 0, .wait 1] (fun s => s.arrived.card = 2 ∧ s.pc 0 ≠ .outside ∧ s.pc 0 ≠ .passed)
    (by decide)
  obtain ⟨hall, hout, hpass⟩ := of_decide_eq_true hp
  exact ⟨s, h, hpass, opens_of_run (by decide) h hall (mem_arrived.mpr hout)⟩

end Barrier
end Aegir
