import Aegir.Std.Progress
import Aegir.Verify.DataTokens
import Aegir.Verify.Iteration

/-!
# The loop and the slowest device

The coherent loop stops in `read` only, where the device that it is about to read has no data token
(`loopStep_eq_none_iff`). In every interleaving it has completed no more iterations than any device has
delivered blocks, and where it stops it has completed as many as the slowest device
(`lockstep_of_run`); every iteration takes a bounded number of its steps (`loopSteps_of_run`). So the
receiver publishes one frame for each block of the slowest device, and none when a device falls silent.
-/

namespace Aegir

/-- How many steps are left for a device at most. -/
def DevPc.left : DevPc → Nat
  | .read => 11
  | .test => 10
  | .conv => 9
  | .lagtest => 8
  | .queue => 7
  | .noise => 6
  | .est => 5
  | .phase => 4
  | .write => 3
  | .debug => 2
  | .consume => 1

/-- How many steps the loop takes at most to the end of its iteration. -/
def LoopPc.left (ndev : Nat) : LoopPc → Nat
  | .refRead => 12 * ndev + 8
  | .refConv => 12 * ndev + 7
  | .refQueue => 12 * ndev + 6
  | .refWrite => 12 * ndev + 5
  | .refConsume => 12 * ndev + 4
  | .syncTest i => (ndev + 1 - i) + 11 * ndev + 3
  | .dev _ i _ p => 11 * (ndev - i) + p.left + 2
  | .lag => 2
  | .notify => 1

theorem left_nextDev {ndev i c : Nat} {a : Bool} :
    (nextDev ndev a (i + 1) c).left ndev ≤ 11 * (ndev - i) + 2 := by
  unfold nextDev
  split <;> simp only [LoopPc.left, DevPc.left] <;> omega

/-- The action is a step of the loop. -/
def CoherentAction.isLoop : CoherentAction → Bool
  | .loop => true
  | _ => false

theorem CoherentAction.isLoop_iff {a : CoherentAction} : a.isLoop = true ↔ a = .loop := by
  cases a <;> simp [isLoop]

/-- `read` takes a token that a block has brought. -/
theorem TokenInv.reads_le {v v' : DevView} {o : ByteOrder} (hi : TokenInv v)
    (hle : v.reads ≤ v.stored) (h : ViewStep o v v') : v'.reads ≤ v'.stored := by
  cases h with
  | same | consume | skip => exact hle
  | swapbuffer => exact Nat.le_succ_of_le hle
  | read hd =>
    simp only [Stream.read, hi.streaming, if_true] at hd
    split at hd <;> cases hd
    rename_i hpos
    have hne : v.reads ≠ v.stored := by
      intro heq
      rw [hi.newdata, heq] at hpos
      simp at hpos
    show v.reads + 1 ≤ v.stored
    omega

namespace LoopCore

variable {C : Type*} {s : LoopCore C} {k : Nat}

/-- A device that is about to be read has been read once in each completed iteration. -/
theorem reads_of_reading (hpc : s.pc.reading = some k) :
    (s.view k).reads = s.hist.iter := by
  have hnot : ¬ s.pc.hasRead k := by
    cases hs : s.pc with
    | refRead => exact id
    | dev a i c p =>
      cases p <;> simp only [hs, LoopPc.reading, reduceCtorEq, Option.some.injEq] at hpc
      subst hpc
      simp [LoopPc.hasRead]
    | _ => simp [hs, LoopPc.reading] at hpc
  simp [view, hnot]

theorem reading_le {ndev : Nat} (hrange : DevInRange ndev s) (hpc : s.pc.reading = some k) : k ≤ ndev := by
  cases hs : s.pc with
  | refRead =>
    rw [hs, LoopPc.reading, Option.some.injEq] at hpc
    exact hpc ▸ Nat.zero_le _
  | dev a i c p =>
    cases p <;> simp only [hs, LoopPc.reading, reduceCtorEq, Option.some.injEq] at hpc
    exact hpc ▸ (hrange _ _ _ _ hs).2
  | _ => simp [hs, LoopPc.reading] at hpc

end LoopCore

namespace CoherentState

variable {C R : Type*} [Field C] [Star C] [Field R] [DecidableEq R] {cfg : CoherentConfig C R}
  {s s' : CoherentState C R} {tr : List CoherentAction} {noise : Bool}

/-- The loop stops where it reads a device without a token, and nowhere else. -/
theorem loopStep_eq_none_iff (hb : ((cfg.blocksize.toNat >>> 1 : Nat) : R) ≠ 0) :
    s.loopStep cfg = none ↔ ∃ k, s.pc.reading = some k ∧ (s.stream k).read = none := by
  unfold loopStep
  split
  case h_1 hpc => simp [hpc, LoopPc.reading]
  case h_7 a i c p hpc =>
    cases p with
    | read => simp [hpc, LoopPc.reading, devStep]
    | test =>
      simp only [devStep, hpc, LoopPc.reading]
      split <;> simp
    | _ => simp [hpc, LoopPc.reading, devStep]
  case h_8 hpc =>
    have hc := computelag_isSome (s := s) hb
    rw [Option.isSome_iff_ne_none] at hc
    split <;> simp [hpc, LoopPc.reading, hc]
  case h_6 hpc =>
    simp only [hpc, LoopPc.reading]
    split
    · split <;> simp
    · simp
  all_goals rename_i hpc; simp [hpc, LoopPc.reading]

/-! ## The length of an iteration -/

/-- A step brings the loop nearer to the end of its iteration, or ends it. -/
theorem LoopStep.left_lt (h : LoopStep cfg s s') :
    s'.hist.iter = s.hist.iter ∧ s'.pc.left cfg.ndev < s.pc.left cfg.ndev ∨
      s.pc = .notify ∧ s'.pc = .refRead ∧ s'.hist.iter = s.hist.iter + 1 := by
  have hcore : ∀ k, (s.queuelag cfg k).hist = s.hist := fun k =>
    congrArg LoopCore.hist (queuelag_core k)
  cases h with
  | notify hpc => exact .inr ⟨hpc, rfl, rfl⟩
  | refQueue hpc => exact .inl ⟨congrArg History.iter (hcore 0), by simp [hpc, LoopPc.left]⟩
  | @queue a i c hpc =>
    exact .inl ⟨congrArg History.iter (hcore i), by simp [hpc, LoopPc.left, DevPc.left]⟩
  | lag hpc _ hs =>
    refine .inl ⟨congrArg (·.hist.iter) (computelag_core hs), ?_⟩
    simp [hpc, LoopPc.left]
  | syncNext hpc hi =>
    refine .inl ⟨rfl, ?_⟩
    simp only [hpc, LoopPc.left]
    omega
  | syncEnd a hpc =>
    have hle : (nextDev cfg.ndev a (0 + 1) 1).left cfg.ndev ≤ 11 * (cfg.ndev - 0) + 2 :=
      left_nextDev
    rw [Nat.zero_add] at hle
    refine .inl ⟨rfl, hle.trans_lt ?_⟩
    simp only [hpc, LoopPc.left]
    omega
  | @notReady a i c hpc =>
    refine .inl ⟨rfl, left_nextDev.trans_lt ?_⟩
    simp only [hpc, LoopPc.left, DevPc.left]
    omega
  | @consume a i c hpc =>
    refine .inl ⟨rfl, left_nextDev.trans_lt ?_⟩
    simp only [hpc, LoopPc.left, DevPc.left]
    omega
  | @conv a i c hpc =>
    refine .inl ⟨rfl, ?_⟩
    cases a <;> simp [hpc, LoopPc.left, DevPc.left]
  | @lagtest a i c hpc =>
    refine .inl ⟨rfl, ?_⟩
    cases (s.dsp i).lagrequested <;> simp [hpc, LoopPc.left, DevPc.left]
  | noise hpc =>
    refine .inl ⟨rfl, ?_⟩
    cases s.noise <;> simp [hpc, LoopPc.left, DevPc.left]
  | refRead hpc | refConv hpc | refWrite hpc | refConsume hpc | read hpc | ready hpc | est hpc
    | phase hpc | write hpc | debug hpc | noLag hpc =>
    refine .inl ⟨rfl, ?_⟩
    simp [hpc, withCore, LoopCore.goto, LoopPc.left, DevPc.left]
    try omega

theorem step_iter {a : CoherentAction} (h : s.step cfg a = some s') (ha : a ≠ .loop) :
    s'.hist.iter = s.hist.iter := by
  cases a with
  | loop => exact absurd rfl ha
  | cmdphaseConv | cmdphaseEst =>
    simp only [step] at h
    split at h <;> cases h
    rfl
  | _ => cases h; rfl

/-- The loop pays for its steps with what is left of the iteration; a new one brings `12 * ndev + 8`. -/
theorem loopSteps_add_le (h : Run (CoherentState.step cfg) anyStep s tr s') :
    (tr.countP CoherentAction.isLoop : ℤ) +
        (s'.pc.left cfg.ndev - (12 * cfg.ndev + 8) * s'.hist.iter) ≤
      s.pc.left cfg.ndev - (12 * cfg.ndev + 8) * s.hist.iter := by
  refine h.countP_le (I := fun _ => True)
    (fun s => (s.pc.left cfg.ndev : ℤ) - (12 * cfg.ndev + 8) * s.hist.iter) trivial
    fun s a s' _ _ hs => ⟨trivial, ?_⟩
  by_cases ha : a = .loop
  · subst ha
    rcases (loopStep_cases hs).left_lt with ⟨hiter, hlt⟩ | ⟨hpc, hpc', hiter⟩
    · rw [hiter]
      simp only [CoherentAction.isLoop, if_true]
      omega
    · rw [hpc, hpc', hiter]
      simp only [CoherentAction.isLoop, if_true, LoopPc.left]
      push_cast
      linarith
  · have hloop : a.isLoop = false := by
      rw [Bool.eq_false_iff, ne_eq, CoherentAction.isLoop_iff]
      exact ha
    simp [step_pc hs ha, step_iter hs ha, hloop]

theorem iter_le_of_run (h : Run (CoherentState.step cfg) anyStep s tr s') :
    s.hist.iter ≤ s'.hist.iter := by
  refine h.invariant (I := fun s' => s.hist.iter ≤ s'.hist.iter) le_rfl
    fun s₁ a s₂ hle _ hs => hle.trans ?_
  by_cases ha : a = .loop
  · subst ha
    rcases (loopStep_cases hs).left_lt with ⟨hiter, -⟩ | ⟨-, -, hiter⟩ <;> omega
  · exact (step_iter hs ha).ge

/-- From any state in which an iteration begins and however the threads interleave, the next `m`
iterations take the loop at most `(12 * ndev + 8) * m` steps; for `m = 1` that bounds each iteration by
itself. One that is not complete yet has what `left` counts still before it. -/
theorem loopSteps_of_run (hpc : s.pc = .refRead)
    (h : Run (CoherentState.step cfg) anyStep s tr s') :
    ∃ m, s'.hist.iter = s.hist.iter + m ∧
      tr.countP CoherentAction.isLoop + s'.pc.left cfg.ndev ≤ (12 * cfg.ndev + 8) * (m + 1) ∧
      (s'.pc = .refRead → tr.countP CoherentAction.isLoop ≤ (12 * cfg.ndev + 8) * m) := by
  obtain ⟨m, hm⟩ := Nat.exists_eq_add_of_le (iter_le_of_run h)
  have hpaid := loopSteps_add_le h
  have hle : tr.countP CoherentAction.isLoop + s'.pc.left cfg.ndev ≤
      (12 * cfg.ndev + 8) * (m + 1) := by
    have hstart : s.pc.left cfg.ndev = 12 * cfg.ndev + 8 := by rw [hpc]; rfl
    rw [hstart, hm] at hpaid
    zify
    push_cast at hpaid
    linarith
  refine ⟨m, hm, hle, fun hpc' => ?_⟩
  rw [hpc', LoopPc.left, Nat.mul_succ] at hle
  exact Nat.le_of_add_le_add_right hle

/-! ## Data tokens -/

theorem reads_le_of_run
    (h : Run (CoherentState.step cfg) (fun s a => KeepsStreaming s.toLoopCore a)
      (init cfg noise) tr s) {k : Nat} (hk : k ≤ cfg.ndev) :
    TokenInv (s.toLoopCore.view k) ∧ (s.toLoopCore.view k).reads ≤ (s.toLoopCore.view k).stored := by
  refine (core_invariant KeepsStreaming (I := fun s => LoopCore.DevInRange cfg.ndev s ∧
    TokenInv (s.view k) ∧ (s.view k).reads ≤ (s.view k).stored) ⟨?_, ?_, ?_⟩ ?_ h).2
  · exact fun _ _ _ _ hpc => nomatch hpc
  · exact ⟨rfl, rfl, rfl, rfl, rfl⟩
  · exact le_rfl
  · intro s a s' ⟨hrange, hi, hle⟩ hok hs
    have hv := LoopCore.coreStep_view hs hrange hok hk
    exact ⟨hrange.step hs, hi.step hv, hi.reads_le hle hv⟩

/-- A device that is about to be read has no token if and only if all its blocks have been read. -/
theorem read_eq_none_iff {v : DevView} (hi : TokenInv v) (hle : v.reads ≤ v.stored)
    (hlt : v.stored < v.reads + 2 ^ 31) : v.stream.read = none ↔ v.stored = v.reads := by
  have hpos : 0 < v.stream.newdata ↔ v.reads < v.stored := by
    rw [hi.newdata, Int32.lt_iff_toInt_lt, Int32.toInt_ofInt_of_le (by omega) (by omega)]
    show (0 : ℤ) < _ ↔ _
    omega
  simp only [Stream.read, hi.streaming, if_true]
  split
  case isTrue h =>
    have := hpos.mp h
    simp only [reduceCtorEq, false_iff]
    omega
  case isFalse h =>
    have := mt hpos.mpr h
    simp only [true_iff]
    omega

/-- However the threads interleave, the loop has completed no more iterations than any device has
delivered blocks; and it cannot move if and only if it is about to read a device that has delivered
no more blocks than the loop has completed iterations. -/
theorem lockstep_of_run [CharZero R] (hb : 2 ≤ cfg.blocksize.toNat)
    (h : Run (CoherentState.step cfg) (fun s a => KeepsStreaming s.toLoopCore a)
      (init cfg noise) tr s) :
    (∀ k, k ≤ cfg.ndev → s.hist.iter ≤ s.hist.stored k) ∧
      ((∀ k, k ≤ cfg.ndev → s.hist.stored k < s.hist.iter + 2 ^ 31) →
        (s.loopStep cfg = none ↔
          ∃ k, k ≤ cfg.ndev ∧ s.pc.reading = some k ∧ s.hist.stored k = s.hist.iter)) := by
  have htok := fun k (hk : k ≤ cfg.ndev) => reads_le_of_run h hk
  refine ⟨fun k hk => (Nat.le_add_right ..).trans (htok k hk).2, fun hlt => ?_⟩
  have hhalf : ((cfg.blocksize.toNat >>> 1 : Nat) : R) ≠ 0 := by
    rw [Nat.cast_ne_zero, Nat.shiftRight_one]
    omega
  rw [loopStep_eq_none_iff hhalf]
  constructor
  · rintro ⟨k, hpc, hd⟩
    have hk := LoopCore.reading_le (tokenInv_of_run h).1 hpc
    obtain ⟨hi, hle⟩ := htok k hk
    have hreads : (s.toLoopCore.view k).reads = s.hist.iter := LoopCore.reads_of_reading hpc
    exact ⟨k, hk, hpc, ((read_eq_none_iff hi hle (hreads ▸ hlt k hk)).mp hd).trans hreads⟩
  · rintro ⟨k, hk, hpc, heq⟩
    obtain ⟨hi, hle⟩ := htok k hk
    have hreads : (s.toLoopCore.view k).reads = s.hist.iter := LoopCore.reads_of_reading hpc
    exact ⟨k, hpc, (read_eq_none_iff hi hle (hreads ▸ hlt k hk)).mpr (heq.trans hreads.symm)⟩

/-- The reference has delivered two blocks and the signal device one: one iteration, and the loop waits
for the signal device. -/
def slowTrace : List CoherentAction :=
  [.swapbuffer 0 fun _ => 0, .swapbuffer 0 fun _ => 0, .swapbuffer 1 fun _ => 0] ++
    List.replicate 16 .loop

theorem lockstep_of_run_slowTrace :
    ∃ s, Run (CoherentState.step (smallReceiver 1 2)) (fun s a => KeepsStreaming s.toLoopCore a)
        (init (smallReceiver 1 2) false) slowTrace s ∧
      s.hist.iter = 1 ∧ s.loopStep (smallReceiver 1 2) = none ∧
      (∀ k, k ≤ 1 → s.hist.iter ≤ s.hist.stored k) ∧
      ((∀ k, k ≤ 1 → s.hist.stored k < s.hist.iter + 2 ^ 31) →
        (s.loopStep (smallReceiver 1 2) = none ↔
          ∃ k, k ≤ 1 ∧ s.pc.reading = some k ∧ s.hist.stored k = s.hist.iter)) := by
  obtain ⟨s, hrun, hs⟩ := Run.exists_of_exec (CoherentState.step (smallReceiver 1 2))
    (fun s a => KeepsStreaming s.toLoopCore a) (init (smallReceiver 1 2) false) slowTrace
    (fun s => s.hist.iter = 1 ∧ (s.loopStep (smallReceiver 1 2)).isNone) (by decide +kernel)
  obtain ⟨hiter, hstop⟩ := of_decide_eq_true hs
  exact ⟨s, hrun, hiter, Option.isNone_iff_eq_none.mp hstop, lockstep_of_run (by decide) hrun⟩

theorem loopSteps_of_run_slowTrace :
    ∃ s s' : CoherentState ℚ ℚ,
      Run (CoherentState.step (smallReceiver 1 2)) anyStep (init (smallReceiver 1 2) false)
        (slowTrace.take 13) s ∧
      Run (CoherentState.step (smallReceiver 1 2)) anyStep s (slowTrace.drop 13) s' ∧
      ∃ m, s'.hist.iter = s.hist.iter + m ∧
        (slowTrace.drop 13).countP CoherentAction.isLoop + s'.pc.left 1 ≤ (12 * 1 + 8) * (m + 1) ∧
        (s'.pc = .refRead →
          (slowTrace.drop 13).countP CoherentAction.isLoop ≤ (12 * 1 + 8) * m) := by
  obtain ⟨s, hrun, hs⟩ := Run.exists_of_exec (CoherentState.step (smallReceiver 1 2)) anyStep
    (init (smallReceiver 1 2) false) (slowTrace.take 13)
    (fun s => s.pc = .refRead ∧
      (exec (CoherentState.step (smallReceiver 1 2)) anyStep s (slowTrace.drop 13)).any fun _ => true)
    (by decide +kernel)
  obtain ⟨hpc, hrest⟩ := of_decide_eq_true hs
  obtain ⟨s', hrun', -⟩ := Run.exists_of_exec (CoherentState.step (smallReceiver 1 2)) anyStep s
    (slowTrace.drop 13) (fun _ => true) hrest
  exact ⟨s, s', hrun, hrun', loopSteps_of_run hpc hrun'⟩

end CoherentState
end Aegir
