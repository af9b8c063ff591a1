import Aegir.Model.Control
import Aegir.Std.Run

/-!
# The number of corrections until a device is synchronized

The control loop with exact lags and a device on which a correction `p` for the time `t` at the rate
`fs` takes `p * fs * t` from the lag. The rate `p` has the sign of the lag and the time is chosen for
`frac_t` of it, so each correction leaves a tenth of the lag (`control_of_lt`), whatever the lag is,
and the device is synchronized after the first number of corrections that brings the lag down to the
threshold (`corrections_isLeast`).
-/

namespace Aegir

open Real

/-- Real numbers as `float`s. -/
noncomputable def exactFloat : FloatArith ℝ := ⟨id, fun _ => true, tanh⟩

@[simp] theorem toFloat_exactFloat (x : ℝ) : exactFloat.toFloat x = some x := rfl

theorem fracT_exactFloat : fracT exactFloat = 9 / 10 := by norm_num [fracT, exactFloat]

theorem syncThreshold_exactFloat : syncThreshold exactFloat = 1 / 100 := by
  norm_num [syncThreshold, exactFloat]

/-! ## One correction -/

theorem mul_tanh_pos {x : ℝ} (h : x ≠ 0) : 0 < x * tanh x := by
  rw [tanh_eq_sinh_div_cosh, ← mul_div_assoc]
  apply div_pos _ (cosh_pos x)
  rcases lt_or_gt_of_ne h with h | h
  · exact mul_pos_of_neg_of_neg h (sinh_neg_iff.mpr h)
  · exact mul_pos h (sinh_pos_iff.mpr h)

variable {fs lag lag₀ : ℝ}

theorem descent_exactFloat : descent exactFloat lag = some (maxppm * tanh (lag / 100)) := by
  simp [descent, scale, exactFloat, FloatArith.toFloat]

/-- The rate of a correction is in the range of the resampler and has the sign of the lag. -/
theorem descent_spec (h : lag ≠ 0) :
    ∃ p, descent exactFloat lag = some p ∧ |p| < maxppm ∧ 0 < lag * p := by
  have hmax : (0 : ℝ) < maxppm := by
    rw [maxppm_eq]
    exact zpow_pos two_pos _
  refine ⟨_, descent_exactFloat, ?_, ?_⟩
  · rw [abs_mul, abs_of_pos hmax]
    exact mul_lt_of_lt_one_right hmax (abs_tanh_lt_one _)
  · have hpos := mul_tanh_pos (div_ne_zero h (by norm_num : (100 : ℝ) ≠ 0))
    calc 0 < 100 * maxppm * (lag / 100 * tanh (lag / 100)) :=
          mul_pos (mul_pos (by norm_num) hmax) hpos
      _ = lag * (maxppm * tanh (lag / 100)) := by ring

/-- The time of a correction is the one that takes `frac_t` of the lag. -/
theorem correctionTime_spec {p : ℝ} (hfs : 0 < fs) (h : 0 < lag * p) :
    ∃ t, correctionTime exactFloat lag p fs = some t ∧ 0 < t ∧
      p * fs * t = fracT exactFloat * lag := by
  have hp : p ≠ 0 := right_ne_zero_of_mul h.ne'
  have hne : p * fs ≠ 0 := mul_ne_zero hp hfs.ne'
  have hpos : 0 < lag / (p * fs) := by
    refine div_pos_iff.mpr (mul_pos_iff.mp ?_)
    rw [← mul_assoc]
    exact mul_pos h hfs
  refine ⟨fracT exactFloat * |lag / (p * fs)|, by simp [correctionTime, divide_of_ne hne], ?_, ?_⟩
  · exact mul_pos (by norm_num [fracT_exactFloat]) (abs_pos.mpr hpos.ne')
  · rw [abs_of_pos hpos]
    field_simp

/-- A lag beyond the threshold is corrected. -/
theorem control_of_lt (hfs : 0 < fs) (h : syncThreshold exactFloat < |lag|) :
    ∃ p t, control exactFloat lag fs = some (.correct p t) ∧ 0 < |p| ∧ |p| < maxppm ∧
      lag - p * fs * t = lag / 10 := by
  have hlag : lag ≠ 0 := by
    rintro rfl
    rw [syncThreshold_exactFloat, abs_zero] at h
    norm_num at h
  obtain ⟨p, hp, hmax, hsign⟩ := descent_spec hlag
  obtain ⟨t, ht, -, hlag'⟩ := correctionTime_spec hfs hsign
  refine ⟨p, t, by simp [control, if_pos h, hp, ht], abs_pos.mpr ?_, hmax, ?_⟩
  · exact right_ne_zero_of_mul hsign.ne'
  · rw [hlag', fracT_exactFloat]
    ring

theorem control_of_le (h : |lag| ≤ syncThreshold exactFloat) :
    control exactFloat lag fs = some .synchronize := if_neg h.not_gt

/-! ## The loop -/

/-- A device under control: its lag, and the corrections so far. -/
structure SyncLoop where
  lag : ℝ
  corrections : List ℝ := []
  synced : Bool := false

namespace SyncLoop

variable {s s' : SyncLoop} {tr : List Unit}

/-- An iteration of the controller, which waits as long as the device is synchronized. -/
noncomputable def step (fs : ℝ) (s : SyncLoop) (_ : Unit) : Option SyncLoop :=
  if s.synced then none
  else (control exactFloat s.lag fs).map fun
    | .correct p t =>
      { s with lag := s.lag - p * fs * t, corrections := s.corrections ++ [p] }
    | .synchronize => { s with synced := true }

theorem step_of_lt (hfs : 0 < fs) (hs : s.synced = false)
    (h : syncThreshold exactFloat < |s.lag|) :
    ∃ p, step fs s () = some { s with lag := s.lag / 10, corrections := s.corrections ++ [p] } ∧
      0 < |p| ∧ |p| < maxppm := by
  obtain ⟨p, t, hc, hpos, hmax, hlag⟩ := control_of_lt hfs h
  exact ⟨p, by simp [step, hs, hc, hlag], hpos, hmax⟩

theorem step_of_le (hs : s.synced = false) (h : |s.lag| ≤ syncThreshold exactFloat) :
    step fs s () = some { s with synced := true } := by
  simp [step, hs, control_of_le h]

/-- What an iteration does. -/
theorem step_cases (hfs : 0 < fs) (h : step fs s () = some s') :
    s.synced = false ∧
      ((∃ p, s' = { s with lag := s.lag / 10, corrections := s.corrections ++ [p] } ∧ 0 < |p| ∧
          |p| < maxppm ∧ syncThreshold exactFloat < |s.lag|) ∨
        s' = { s with synced := true } ∧ |s.lag| ≤ syncThreshold exactFloat) := by
  have hs : s.synced = false := by
    cases hs : s.synced with
    | false => rfl
    | true => simp [step, hs] at h
  refine ⟨hs, ?_⟩
  rcases lt_or_ge (syncThreshold exactFloat) |s.lag| with hlt | hle
  · obtain ⟨p, hp, hpos, hmax⟩ := step_of_lt hfs hs hlt
    exact .inl ⟨p, (Option.some.inj (hp.symm.trans h)).symm, hpos, hmax, hlt⟩
  · exact .inr ⟨(Option.some.inj ((step_of_le hs hle).symm.trans h)).symm, hle⟩

/-- The loop after the iterations `tr`, started with the lag `lag₀`. -/
structure Inv (lag₀ : ℝ) (tr : List Unit) (s : SyncLoop) : Prop where
  lag : s.lag = lag₀ / 10 ^ s.corrections.length
  rates : ∀ p ∈ s.corrections, 0 < |p| ∧ |p| < maxppm
  /-- There was a reason for each correction. -/
  far : ∀ k < s.corrections.length, syncThreshold exactFloat < |lag₀| / 10 ^ k
  near : s.synced → |s.lag| ≤ syncThreshold exactFloat
  length : tr.length = s.corrections.length + s.synced.toNat

theorem abs_div_pow (k : ℕ) : |lag₀ / 10 ^ k| = |lag₀| / 10 ^ k := by
  rw [abs_div, abs_of_pos (pow_pos (by norm_num : (0 : ℝ) < 10) k)]

theorem Inv.step (hfs : 0 < fs) (h : Inv lag₀ tr s) (hs : step fs s () = some s') :
    Inv lag₀ (tr ++ [()]) s' := by
  obtain ⟨hsynced, ⟨p, rfl, hpos, hmax, hlt⟩ | ⟨rfl, hle⟩⟩ := step_cases hfs hs
  · refine ⟨?_, ?_, ?_, by simp [hsynced], by simp [h.length, hsynced]⟩
    · rw [List.length_append, List.length_singleton, pow_succ, ← div_div, ← h.lag]
    · intro q hq
      rcases List.mem_append.mp hq with hq | hq
      · exact h.rates q hq
      · exact List.mem_singleton.mp hq ▸ ⟨hpos, hmax⟩
    · intro k hk
      rw [List.length_append, List.length_singleton, Nat.lt_succ_iff_lt_or_eq] at hk
      rcases hk with hk | rfl
      · exact h.far k hk
      · rwa [h.lag, abs_div_pow] at hlt
  · exact ⟨h.lag, h.rates, h.far, fun _ => hle, by simp [h.length, hsynced]⟩

theorem inv_of_run (hfs : 0 < fs) (h : Run (step fs) anyStep ⟨lag₀, [], false⟩ tr s) :
    Inv lag₀ tr s :=
  h.history ⟨by simp, by simp, by simp, by simp, rfl⟩ fun _ _ _ _ h _ hs => h.step hfs hs

theorem exists_near (lag₀ : ℝ) : ∃ k : ℕ, |lag₀| / 10 ^ k ≤ syncThreshold exactFloat := by
  have hpos : 0 < syncThreshold exactFloat := by norm_num [syncThreshold_exactFloat]
  obtain ⟨k, hk⟩ := pow_unbounded_of_one_lt (|lag₀| / syncThreshold exactFloat)
    (by norm_num : (1 : ℝ) < 10)
  refine ⟨k, ?_⟩
  rw [div_lt_iff₀ hpos] at hk
  exact (div_le_iff₀' (pow_pos (by norm_num) k)).mpr hk.le

/-- The loop goes on as long as the lag is beyond the threshold. -/
theorem exists_run (hfs : 0 < fs) {n : ℕ}
    (h : ∀ k < n, syncThreshold exactFloat < |lag₀| / 10 ^ k) :
    ∃ tr s, Run (step fs) anyStep ⟨lag₀, [], false⟩ tr s ∧ s.synced = false ∧
      s.corrections.length = n := by
  induction n with
  | zero => exact ⟨[], _, .nil, rfl, rfl⟩
  | succ n ih =>
    obtain ⟨tr, s, hrun, hs, hlen⟩ := ih fun k hk => h k (hk.trans n.lt_succ_self)
    have hlt : syncThreshold exactFloat < |s.lag| := by
      rw [(inv_of_run hfs hrun).lag, hlen, abs_div_pow]
      exact h n n.lt_succ_self
    obtain ⟨p, hp, -⟩ := step_of_lt hfs hs hlt
    exact ⟨tr ++ [()], _, hrun.snoc trivial hp, hs, by simp [hlen]⟩

/-- For every rate and every lag: each correction is in the range of the resampler and leaves a tenth
of the lag, the device is synchronized, and this is after the least number of corrections that brings
the lag down to the threshold. -/
theorem corrections_isLeast (hfs : 0 < fs) (lag₀ : ℝ) :
    (maxppm : ℝ) = 2 ^ (-11 : ℤ) ∧ 1 - fracT exactFloat = 1 / 10 ∧
      ∃ n, IsLeast {k : ℕ | |lag₀| * (10 : ℝ) ^ (-k : ℤ) ≤ syncThreshold exactFloat} n ∧
        (∀ tr s, Run (step fs) anyStep ⟨lag₀, [], false⟩ tr s →
          (∀ p ∈ s.corrections, 0 < |p| ∧ |p| < maxppm) ∧
          s.lag = lag₀ * (1 - fracT exactFloat) ^ s.corrections.length ∧
          (s.synced → s.corrections.length = n) ∧ tr.length ≤ n + 1) ∧
        ∃ tr s, Run (step fs) anyStep ⟨lag₀, [], false⟩ tr s ∧ s.synced := by
  have htenth : 1 - fracT exactFloat = 1 / 10 := by norm_num [fracT_exactFloat]
  have hpow : ∀ k : ℕ, |lag₀| * (10 : ℝ) ^ (-k : ℤ) = |lag₀| / 10 ^ k := fun k => by
    rw [zpow_neg, zpow_natCast, div_eq_mul_inv]
  simp only [hpow]
  refine ⟨maxppm_eq, htenth, ?_⟩
  classical
  have hnear := exists_near lag₀
  have hfar : ∀ k < Nat.find hnear, syncThreshold exactFloat < |lag₀| / 10 ^ k :=
    fun k hk => not_le.mp (Nat.find_min hnear hk)
  refine ⟨Nat.find hnear, ⟨Nat.find_spec hnear, fun k hk => Nat.find_min' hnear hk⟩, ?_, ?_⟩
  · intro tr s hrun
    have hinv := inv_of_run hfs hrun
    have hle : s.corrections.length ≤ Nat.find hnear :=
      not_lt.mp fun hlt => (Nat.find_spec hnear).not_gt (hinv.far _ hlt)
    refine ⟨hinv.rates, ?_, fun hs => hle.antisymm (Nat.find_min' hnear ?_), ?_⟩
    · rw [htenth, hinv.lag, div_pow, one_pow, mul_one_div]
    · have hlag := hinv.near hs
      rwa [hinv.lag, abs_div_pow] at hlag
    · rw [hinv.length]
      exact Nat.add_le_add hle (Bool.toNat_le _)
  · obtain ⟨tr, s, hrun, hs, hlen⟩ := exists_run hfs hfar
    have hle : |s.lag| ≤ syncThreshold exactFloat := by
      rw [(inv_of_run hfs hrun).lag, hlen, abs_div_pow]
      exact Nat.find_spec hnear
    exact ⟨tr ++ [()], _, hrun.snoc trivial (step_of_le hs hle), rfl⟩

/-- A lag of 1000 samples takes five corrections. -/
theorem corrections_isLeast_thousand :
    ∃ tr s, Run (step 2048000) anyStep ⟨1000, [], false⟩ tr s ∧ s.synced ∧
      s.corrections.length = 5 := by
  obtain ⟨-, -, n, hn, hall, tr, s, hrun, hs⟩ :=
    corrections_isLeast (by norm_num : (0 : ℝ) < 2048000) 1000
  refine ⟨tr, s, hrun, hs, ?_⟩
  have hfive : IsLeast {k : ℕ | |(1000 : ℝ)| * (10 : ℝ) ^ (-k : ℤ) ≤ syncThreshold exactFloat} 5 := by
    rw [syncThreshold_exactFloat]
    refine ⟨by norm_num, fun k hk => ?_⟩
    by_contra hlt
    have hk : |(1000 : ℝ)| * (10 : ℝ) ^ (-k : ℤ) ≤ 1 / 100 := hk
    have hpow : (10 : ℝ) ^ (-4 : ℤ) ≤ 10 ^ (-k : ℤ) := zpow_le_zpow_right₀ (by norm_num) (by omega)
    norm_num at hk hpow
    linarith
  rw [(hall tr s hrun).2.2.1 hs, hn.unique hfive]

end SyncLoop

end Aegir
