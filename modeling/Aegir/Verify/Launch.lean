import Aegir.Model.Launch
import Aegir.Verify.Barrier
import Aegir.Verify.LoopSteps

/-!
# The receiver starts as one

Whatever the order of the steps of `main`, of the acquisition threads and of the drivers: when a driver
delivers a block, every device has been started, and with at least one signal device all of them are
marked as streaming (`delivers_of_run`). `main` never waits, and a thread that exists comes through the
barrier or sleeps there until one arrives that can, or that `main` has yet to create (`starts_of_run`).
The devices that the coherent loop finds when it starts are in a
state that the loop model reaches from its own initial state by calls of `swapbuffer` alone
(`coherent_of_run`), so that what holds of every run of the loop holds of the started receiver.
-/

namespace Aegir

/-- How far `main` has got: the number of steps that it has taken. -/
def LaunchPc.count {ndev : ℕ} : LaunchPc ndev → ℕ
  | refThread => 0
  | refStreaming => 1
  | streaming k => 2 * k
  | thread k => 2 * k + 1
  | coherent => 2 * ndev + 2
  | started => 2 * ndev + 3

/-- When `main` creates the thread of device `k`. -/
def createdAt (k : ℕ) : ℕ := if k = 0 then 0 else 2 * k + 1

/-- When `main` stores `streaming = true` for device `k`. -/
def streamingAt (k : ℕ) : ℕ := if k = 0 then 1 else 2 * k

theorem LaunchPc.count_after {ndev : ℕ} (k : Fin (ndev + 1)) :
    (LaunchPc.after k).count = 2 * k + 2 := by
  unfold after
  split
  · simp only [count]
    ring
  · simp only [count]
    omega

namespace LaunchState

variable {ndev : ℕ} {o : ByteOrder} {s s' : LaunchState ndev} {asyncbufn blocksize : UInt32}
  {tr : List (LaunchAction ndev)}

/-- What a step can do. -/
inductive LaunchStep (o : ByteOrder) (s : LaunchState ndev) :
    LaunchAction ndev → LaunchState ndev → Prop
  | refThread (hm : s.main = .refThread) :
    LaunchStep o s .main { s.create 0 with main := .refStreaming }
  | refStreaming (hm : s.main = .refStreaming) :
    LaunchStep o s .main { s.setStreaming 0 with main := .after 0 }
  | streaming {k} (hm : s.main = .streaming k) :
    LaunchStep o s .main { s.setStreaming k with main := .thread k }
  | thread {k} (hm : s.main = .thread k) :
    LaunchStep o s .main { s.create k with main := .after k }
  | coherent (hm : s.main = .coherent) : LaunchStep o s .main { s with main := .started }
  | barrier {a b} (hc : s.created a.thread = true) (hb : s.barrier.step a = some b) :
    LaunchStep o s (.barrier a) { s with barrier := b }
  | swapbuffer {k} (b) (hk : s.barrier.pc k = .passed) :
    LaunchStep o s (.swapbuffer k b)
      { s with stream := Function.update s.stream k ((s.stream k).swapbuffer o b) }

theorem step_cases {a : LaunchAction ndev} (h : s.step o a = some s') : LaunchStep o s a s' := by
  cases a with
  | main =>
    simp only [step, mainStep] at h
    split at h <;> cases h
    case h_1 hm => exact .refThread hm
    case h_2 hm => exact .refStreaming hm
    case h_3 k hm => exact .streaming hm
    case h_4 k hm => exact .thread hm
    case h_5 hm => exact .coherent hm
  | barrier a =>
    obtain ⟨hc, h⟩ := Option.ite_none_right_eq_some.mp h
    obtain ⟨b, hb, rfl⟩ := Option.map_eq_some_iff.mp h
    exact .barrier hc hb
  | swapbuffer k b =>
    obtain ⟨hk, h⟩ := Option.ite_none_right_eq_some.mp h
    cases h
    exact .swapbuffer b hk

/-- How far the threads have got. -/
structure Launching (s : LaunchState ndev) : Prop where
  signal : ∀ k, s.main = .streaming k ∨ s.main = .thread k → k ≠ 0
  created : ∀ k, s.created k = true ↔ createdAt k < s.main.count
  streaming : ∀ k, (s.stream k).streaming = true ↔ streamingAt k < s.main.count
  barrier : ∃ tr, Run Barrier.step anyStep (.init (.ofNat (ndev + 1))) tr s.barrier
  arrived : ∀ k, s.barrier.pc k ≠ .outside → s.created k = true

theorem launching_init : Launching (init asyncbufn blocksize : LaunchState ndev) where
  signal k hk := by simp [init] at hk
  created k := by simp [init, LaunchPc.count]
  streaming k := by simp [init, LaunchPc.count, Stream.init]
  barrier := ⟨[], .nil⟩
  arrived k hk := absurd rfl hk

theorem create_iff {k j : Fin (ndev + 1)} :
    (s.create k).created j = true ↔ s.created j = true ∨ j = k := by
  by_cases hj : j = k
  · simp [create, hj]
  · simp [create, hj]

theorem setStreaming_iff {k j : Fin (ndev + 1)} :
    ((s.setStreaming k).stream j).streaming = true ↔ (s.stream j).streaming = true ∨ j = k := by
  by_cases hj : j = k
  · simp [setStreaming, hj]
  · simp [setStreaming, hj]

/-- Both calls of `start` for the device after `j` are for a signal device. -/
theorem after_signal {j k : Fin (ndev + 1)}
    (h : LaunchPc.after j = .streaming k ∨ LaunchPc.after j = .thread k) : k ≠ 0 := by
  unfold LaunchPc.after at h
  split at h
  · simp only [LaunchPc.streaming.injEq, reduceCtorEq, or_false] at h
    rw [← h, ← Fin.val_ne_zero_iff]
    simp
  · simp at h

/-- What a step of `main` leaves. -/
structure MainStepped (s s' : LaunchState ndev) : Prop where
  count : s'.main.count = s.main.count + 1
  barrier : s'.barrier = s.barrier
  signal : ∀ k, s'.main = .streaming k ∨ s'.main = .thread k → k ≠ 0
  created : ∀ k, s'.created k = true ↔ s.created k = true ∨ createdAt k = s.main.count
  streaming : ∀ k, (s'.stream k).streaming = true ↔
    (s.stream k).streaming = true ∨ streamingAt k = s.main.count

theorem Launching.mainStepped (h : Launching s) (hs : LaunchStep o s .main s') :
    MainStepped s s' := by
  cases hs with
  | refThread hm =>
    refine ⟨by rw [hm]; rfl, rfl, fun k hk => by simp at hk, fun k => ?_, fun k => ?_⟩
    · refine create_iff.trans (or_congr_right ?_)
      rw [hm, LaunchPc.count, createdAt, Fin.ext_iff, Fin.val_zero]
      split <;> omega
    · have hne : streamingAt k ≠ 0 := by unfold streamingAt; split <;> omega
      simp [hm, LaunchPc.count, hne, create]
  | refStreaming hm =>
    refine ⟨by rw [hm]; exact LaunchPc.count_after 0, rfl, fun k => after_signal, fun k => ?_,
      fun k => ?_⟩
    · have hne : createdAt k ≠ 1 := by unfold createdAt; split <;> omega
      simp [hm, LaunchPc.count, hne, setStreaming]
    · refine setStreaming_iff.trans (or_congr_right ?_)
      rw [hm, LaunchPc.count, streamingAt, Fin.ext_iff, Fin.val_zero]
      split <;> omega
  | @streaming k hm =>
    have hk := Fin.val_ne_zero_iff.mpr (h.signal k (.inl hm))
    refine ⟨by rw [hm]; rfl, rfl, fun j hj => ?_, fun j => ?_, fun j => ?_⟩
    · simp only [reduceCtorEq, LaunchPc.thread.injEq, false_or] at hj
      exact hj ▸ h.signal k (.inl hm)
    · have hne : createdAt j ≠ 2 * k := by unfold createdAt; split <;> omega
      simp [hm, LaunchPc.count, hne, setStreaming]
    · refine setStreaming_iff.trans (or_congr_right ?_)
      rw [hm, LaunchPc.count, streamingAt, Fin.ext_iff]
      split <;> omega
  | @thread k hm =>
    have hk := Fin.val_ne_zero_iff.mpr (h.signal k (.inr hm))
    refine ⟨by rw [hm]; exact LaunchPc.count_after k, rfl, fun j => after_signal, fun j => ?_,
      fun j => ?_⟩
    · refine create_iff.trans (or_congr_right ?_)
      rw [hm, LaunchPc.count, createdAt, Fin.ext_iff]
      split <;> omega
    · have hne : streamingAt j ≠ 2 * k + 1 := by unfold streamingAt; split <;> omega
      simp [hm, LaunchPc.count, hne, create]
  | coherent hm =>
    refine ⟨by rw [hm]; rfl, rfl, fun k hk => by simp at hk, fun k => ?_, fun k => ?_⟩
    · have hne : createdAt k ≠ 2 * ndev + 2 := by unfold createdAt; split <;> omega
      simp [hm, LaunchPc.count, hne]
    · have hne : streamingAt k ≠ 2 * ndev + 2 := by unfold streamingAt; split <;> omega
      simp [hm, LaunchPc.count, hne]

theorem Launching.step {a : LaunchAction ndev} (h : Launching s) (hs : LaunchStep o s a s') :
    Launching s' := by
  by_cases ha : a = .main
  · subst ha
    have hm := h.mainStepped hs
    refine ⟨hm.signal, fun k => ?_, fun k => ?_, hm.barrier ▸ h.barrier, fun k hk => ?_⟩
    · rw [hm.created, hm.count, Nat.lt_succ_iff_lt_or_eq, h.created]
    · rw [hm.streaming, hm.count, Nat.lt_succ_iff_lt_or_eq, h.streaming]
    · rw [hm.barrier] at hk
      exact (hm.created k).mpr (.inl (h.arrived k hk))
  cases hs with
  | @barrier a b hc hb =>
    obtain ⟨tr, htr⟩ := h.barrier
    refine ⟨h.signal, h.created, h.streaming, ⟨_, htr.snoc trivial hb⟩, fun k hk => ?_⟩
    by_cases hka : k = a.thread
    · exact hka ▸ hc
    · exact h.arrived k fun hout => hk (Barrier.pc_outside hb hka hout)
  | @swapbuffer j b hk =>
    refine ⟨h.signal, h.created, fun k => ?_, h.barrier, h.arrived⟩
    rw [← h.streaming k]
    by_cases hj : k = j
    · subst hj
      simp [Stream.swapbuffer]
    · simp [hj]
  | _ => exact absurd rfl ha

theorem launching_of_run (h : Run (step o) anyStep (init asyncbufn blocksize) tr s) :
    Launching s :=
  h.invariant launching_init fun _ _ _ hi _ hs => hi.step (step_cases hs)

/-! ## The barrier -/

theorem count_le : s.main.count ≤ 2 * ndev + 3 := by
  cases s.main <;> simp only [LaunchPc.count] <;> omega

/-- When a thread has passed the barrier, `main` has created all of them. -/
theorem Launching.count_of_passed (h : Launching s) (hndev : ndev + 1 < 2 ^ 64)
    (hp : s.barrier.passed.Nonempty) :
    (∀ k, s.barrier.pc k ≠ .outside) ∧ ∀ k, s.created k = true := by
  obtain ⟨tr, htr⟩ := h.barrier
  have hcard : Fintype.card (Fin (ndev + 1)) = ndev + 1 := Fintype.card_fin _
  have hge := (Barrier.counts_of_run (hcard.trans_lt hndev) htr).ge hp
  rw [UInt64.toNat_ofNat_of_lt' hndev] at hge
  have hall : s.barrier.arrived = .univ := (Finset.card_eq_iff_eq_univ _).mp
    (le_antisymm (Finset.card_le_univ _) (hcard.trans_le hge))
  have hout : ∀ k, s.barrier.pc k ≠ .outside := fun k =>
    Barrier.mem_arrived.mp (hall ▸ Finset.mem_univ k)
  exact ⟨hout, fun k => h.arrived k (hout k)⟩

/-- When a driver delivers a block, every thread has been created and has called `wait`; if there is a
signal device, every device is marked as streaming. -/
theorem delivers_of_run (hndev : ndev + 1 < 2 ^ 64)
    (h : Run (step o) anyStep (init asyncbufn blocksize) tr s) {k : Fin (ndev + 1)} {b : Mem}
    (hs : s.step o (.swapbuffer k b) = some s') :
    (∀ j, s.created j = true ∧ s.barrier.pc j ≠ .outside) ∧
      (1 ≤ ndev → ∀ j, (s.stream j).streaming = true) := by
  have hl := launching_of_run h
  obtain ⟨hk, -⟩ := Option.ite_none_right_eq_some.mp hs
  obtain ⟨hout, hcreated⟩ := hl.count_of_passed hndev ⟨k, Barrier.mem_passed.mpr hk⟩
  refine ⟨fun j => ⟨hcreated j, hout j⟩, fun hone j => ?_⟩
  -- the last thread is created behind all the stores
  have hlast := (hl.created (Fin.last ndev)).mp (hcreated _)
  rw [createdAt, Fin.val_last, if_neg (by omega)] at hlast
  rw [hl.streaming, streamingAt]
  have hj := j.isLt
  split <;> omega

/-- A reference device and one signal device: the first block arrives. -/
theorem delivers_of_run_one : ∃ s s' : LaunchState 1,
    Run (step .little) anyStep (init 8 8)
      [.main, .main, .main, .barrier (.wait 0), .main, .barrier (.wait 1)] s ∧
    s.step .little (.swapbuffer 1 fun _ => 0) = some s' ∧
    (∀ j, s.created j = true ∧ s.barrier.pc j ≠ .outside) ∧
      (1 ≤ 1 → ∀ j, (s.stream j).streaming = true) := by
  obtain ⟨s, h, hp⟩ := Run.exists_of_exec (@step 1 .little) anyStep (init 8 8)
    [.main, .main, .main, .barrier (.wait 0), .main, .barrier (.wait 1)]
    (fun s => (s.step .little (.swapbuffer 1 fun _ => 0)).isSome) (by decide)
  obtain ⟨s', hs⟩ := Option.isSome_iff_exists.mp hp
  exact ⟨s, s', h, hs, delivers_of_run (by decide) h hs⟩

/-- `main` goes on until it has started the coherent loop. -/
theorem mainStep_isSome (hm : s.main ≠ .started) : s.mainStep.isSome := by
  unfold mainStep
  split <;> first | rfl | exact absurd ‹_› hm

/-- A thread that has not been created is one that `main` goes on to create. -/
theorem Launching.main_isSome (h : Launching s) {j : Fin (ndev + 1)} (hj : s.created j = false) :
    (s.step o .main).isSome := by
  refine mainStep_isSome fun hm => ?_
  have hlt : createdAt j < s.main.count := by
    have hle := j.isLt
    rw [hm, LaunchPc.count, createdAt]
    split <;> omega
  cases hj.symm.trans ((h.created j).mpr hlt)

/-- Nobody sleeps when all threads have arrived. -/
theorem Launching.exists_outside (h : Launching s) (hndev : ndev + 1 < 2 ^ 64) {k : Fin (ndev + 1)}
    (hk : s.barrier.pc k = .asleep) : ∃ j, s.barrier.pc j = .outside := by
  by_contra hout
  push Not at hout
  obtain ⟨tr, htr⟩ := h.barrier
  have hcard : Fintype.card (Fin (ndev + 1)) = ndev + 1 := Fintype.card_fin _
  have hall : s.barrier.arrived = .univ :=
    Finset.eq_univ_of_forall fun j => Barrier.mem_arrived.mpr (hout j)
  have hfull : s.barrier.arrived.card = (UInt64.ofNat (ndev + 1)).toNat := by
    rw [hall, Finset.card_univ, hcard, UInt64.toNat_ofNat_of_lt' hndev]
  exact (Barrier.counts_of_run (hcard.trans_lt hndev) htr).asleep hfull k hk

/-- `main` can go on until it has started everything. A thread that exists and has not passed the barrier
can take a step that is not a wake-up for no reason, or it sleeps and a thread is missing, which can
arrive or which `main` has yet to create, and `main` can go on. -/
theorem starts_of_run (hndev : ndev + 1 < 2 ^ 64)
    (h : Run (step o) anyStep (init asyncbufn blocksize) tr s) :
    (s.main = .started ∨ (s.step o .main).isSome) ∧
      ∀ k, s.created k = true → s.barrier.pc k ≠ .passed →
        (∃ a : BarrierAction (Fin (ndev + 1)), a.thread = k ∧ (∀ j, a ≠ .spurious j) ∧
          (s.step o (.barrier a)).isSome) ∨
        s.barrier.pc k = .asleep ∧ ∃ j, s.barrier.pc j = .outside ∧
          ((s.step o (.barrier (.wait j))).isSome ∨
            s.created j = false ∧ (s.step o .main).isSome) := by
  have hl := launching_of_run h
  have hwait : ∀ j, s.created j = true → s.barrier.pc j = .outside →
      (s.step o (.barrier (.wait j))).isSome := fun j hc hj => by
    simp [step, BarrierAction.thread, hc, Barrier.step, hj]
  refine ⟨or_iff_not_imp_left.mpr mainStep_isSome, fun k hc hk => ?_⟩
  cases hpc : s.barrier.pc k with
  | outside => exact .inl ⟨.wait k, rfl, fun _ => by simp, hwait k hc hpc⟩
  | awake =>
    refine .inl ⟨.test k, rfl, fun _ => by simp, ?_⟩
    simp [step, BarrierAction.thread, hc, Barrier.step, hpc]
  | passed => exact absurd hpc hk
  | asleep =>
    obtain ⟨j, hj⟩ := hl.exists_outside hndev hpc
    refine .inr ⟨rfl, j, hj, ?_⟩
    cases hcj : s.created j with
    | true => exact .inl (hwait j hcj hj)
    | false => exact .inr ⟨rfl, hl.main_isSome hcj⟩

/-- The thread of the reference device sleeps until that of the signal device arrives. -/
theorem starts_of_run_asleep : ∃ s : LaunchState 1,
    Run (step .little) anyStep (init 8 8) [.main, .barrier (.wait 0)] s ∧
    s.barrier.pc 0 = .asleep ∧ ∃ j, s.barrier.pc j = .outside ∧
      ((s.step .little (.barrier (.wait j))).isSome ∨
        s.created j = false ∧ (s.step .little .main).isSome) := by
  obtain ⟨s, h, hp⟩ := Run.exists_of_exec (@step 1 .little) anyStep (init 8 8)
    [.main, .barrier (.wait 0)]
    (fun s => s.created 0 = true ∧ s.barrier.pc 0 = .asleep) (by decide)
  obtain ⟨hc, hpc⟩ := of_decide_eq_true hp
  rcases (starts_of_run (by decide) h).2 0 hc (by simp [hpc]) with ⟨a, ha, hno, hs⟩ | hasleep
  · -- no other step is possible for a thread that sleeps
    cases a with
    | spurious j => exact absurd rfl (hno j)
    | wait j | test j =>
      obtain rfl : j = 0 := ha
      simp [step, BarrierAction.thread, hc, Barrier.step, hpc] at hs
  · exact ⟨s, h, hasleep⟩

/-! ## The coherent loop -/

/-- The calls of `swapbuffer` in a run. -/
def swaps : List (LaunchAction ndev) → List CoherentAction :=
  List.filterMap fun
    | .swapbuffer k b => some (.swapbuffer k b)
    | _ => none

theorem swaps_append (tr tr' : List (LaunchAction ndev)) :
    swaps (tr ++ tr') = swaps tr ++ swaps tr' := List.filterMap_append

variable {C R : Type*} [Field C] [Star C] [Field R] [DecidableEq R] {cfg : CoherentConfig C R}
  (noise : Bool)

/-- The loop model has taken the same calls of `swapbuffer`, and no step of the loop. -/
structure Simulated (cfg : CoherentConfig C R) (s : LaunchState ndev) (c : CoherentState C R) :
    Prop where
  pc : c.pc = .refRead
  stream : ∀ k : Fin (ndev + 1), c.stream k = { s.stream k with streaming := true }

theorem withStreaming (s : LaunchState ndev) (k j : Fin (ndev + 1)) :
    { (s.setStreaming k).stream j with streaming := true } =
      { s.stream j with streaming := true } := by
  by_cases hj : j = k
  · simp [setStreaming, hj]
  · simp [setStreaming, hj]

/-- The devices are in a state that the loop model reaches by the same calls of `swapbuffer`, but for
the flag of those that are not yet marked as streaming. -/
theorem simulated_of_run (h : Run (step cfg.order) anyStep (init cfg.asyncbufn cfg.blocksize) tr s) :
    ∃ c, Run (CoherentState.step cfg) anyStep (.init cfg noise) (swaps tr) c ∧
      Simulated cfg s c := by
  refine h.history (I := fun tr s => ∃ c, Run (CoherentState.step cfg) anyStep (.init cfg noise)
    (swaps tr) c ∧ Simulated cfg s c) ?_ ?_
  · exact ⟨_, .nil, rfl, fun k => rfl⟩
  intro tr s a s' ⟨c, hc, hsim⟩ _ hs
  rw [swaps_append]
  cases step_cases hs with
  | @swapbuffer k b hk =>
    refine ⟨_, hc.snoc trivial rfl, hsim.pc, fun j => ?_⟩
    simp only [CoherentState.withCore, LoopCore.swapbuffer, LoopCore.setStream]
    by_cases hj : j = k
    · subst hj
      simp [hsim.stream, Stream.swapbuffer]
    · have hne : (j : ℕ) ≠ k := Fin.val_ne_iff.mpr hj
      simp [hsim.stream, hj, hne]
  | barrier | coherent | refThread | thread =>
    exact ⟨c, by simpa [swaps] using hc, hsim.pc, hsim.stream⟩
  | refStreaming | streaming =>
    exact ⟨c, by simpa [swaps] using hc, hsim.pc, fun j =>
      (hsim.stream j).trans (withStreaming ..).symm⟩

/-- When the coherent loop starts, its devices are in a state that the loop model reaches from its own
initial state by calls of `swapbuffer` alone. -/
theorem coherent_of_run (h : Run (step cfg.order) anyStep (init cfg.asyncbufn cfg.blocksize) tr s)
    (hm : s.main = .started) :
    ∃ c : CoherentState C R, Run (CoherentState.step cfg) anyStep (.init cfg noise) (swaps tr) c ∧
      c.pc = .refRead ∧ ∀ k : Fin (ndev + 1), c.stream k = s.stream k := by
  obtain ⟨c, hc, hsim⟩ := simulated_of_run noise h
  refine ⟨c, hc, hsim.pc, fun k => ?_⟩
  have hst : (s.stream k).streaming = true := by
    rw [(launching_of_run h).streaming, hm, LaunchPc.count, streamingAt]
    have hk := k.isLt
    split <;> omega
  rw [hsim.stream, ← hst]

/-- The reference device alone: its thread does not wait for `main`. -/
theorem coherent_of_run_alone : ∃ s : LaunchState 0, ∃ c : CoherentState ℚ ℚ,
    Run (step .little) anyStep (init 8 8) [.main, .barrier (.wait 0), .swapbuffer 0 fun _ => 0,
      .main, .main] s ∧
    s.main = .started ∧
    Run (CoherentState.step (CoherentState.smallReceiver 0 8)) anyStep
      (.init (CoherentState.smallReceiver 0 8) false)
      (@swaps 0 [.main, .barrier (.wait 0), .swapbuffer 0 fun _ => 0, .main, .main]) c ∧
    c.pc = .refRead ∧ ∀ k : Fin 1, c.stream k = s.stream k := by
  obtain ⟨s, h, hp⟩ := Run.exists_of_exec (@step 0 .little) anyStep (init 8 8)
    [.main, .barrier (.wait 0), .swapbuffer 0 fun _ => 0, .main, .main]
    (fun s => s.main = .started) (by decide)
  have hm : s.main = .started := of_decide_eq_true hp
  have h₈ : Run (step (CoherentState.smallReceiver 0 8).order) anyStep
      (init (CoherentState.smallReceiver 0 8).asyncbufn (CoherentState.smallReceiver 0 8).blocksize)
      _ s := h
  obtain ⟨c, hc, hpc, hst⟩ := coherent_of_run false h₈ hm
  exact ⟨s, c, h, hm, hc, hpc, hst⟩

end LaunchState
end Aegir
