import Aegir.Verify.SampleRates

/-!
# The time for which a correction lasts

`fillts` divides a time into seconds and nanoseconds, and takes it as nanoseconds alone if it is not
larger than one second. This makes a time that `nanosleep` accepts of every time but one second itself
(`isTime_fillts_iff`), and one second is among the times that the controller asks for
(`not_isTime_fillts`).
-/

namespace Aegir

/-! ## `fillts` -/

section
variable {K : Type*} [Field K] [LinearOrder K] [FloorRing K]

/-- What `nanosleep` accepts, and the time in whole nanoseconds. -/
structure Timespec.IsTime (t : Timespec) (ts : K) : Prop where
  tv_sec : 0 ≤ t.tv_sec
  tv_nsec : 0 ≤ t.tv_nsec ∧ t.tv_nsec ≤ 999999999
  total : t.tv_sec * 10 ^ 9 + t.tv_nsec = ⌊ts * (10 ^ 9 : ℕ)⌋

variable [IsStrictOrderedRing K] {ts : K}

/-- The nanoseconds of a part of a second. -/
theorem floor_nanoseconds (h : 0 ≤ ts) (hlt : ts < 1) :
    0 ≤ ⌊ts * (10 ^ 9 : ℕ)⌋ ∧ ⌊ts * (10 ^ 9 : ℕ)⌋ ≤ 999999999 := by
  have hpos : (0 : K) < (10 ^ 9 : ℕ) := Nat.cast_pos.mpr (by norm_num)
  have hfloor : ⌊ts * (10 ^ 9 : ℕ)⌋ < 10 ^ 9 := by
    rw [Int.floor_lt]
    calc ts * (10 ^ 9 : ℕ) < 1 * (10 ^ 9 : ℕ) := mul_lt_mul_of_pos_right hlt hpos
      _ = ((10 ^ 9 : ℤ) : K) := by norm_num
  exact ⟨Int.floor_nonneg.mpr (mul_nonneg h hpos.le), by omega⟩

/-- The whole seconds and the nanoseconds of the rest. -/
theorem floor_add_floor_fract (ts : K) :
    ⌊ts⌋ * 10 ^ 9 + ⌊(ts - ⌊ts⌋) * (10 ^ 9 : ℕ)⌋ = ⌊ts * (10 ^ 9 : ℕ)⌋ := by
  have hsplit : ts * (10 ^ 9 : ℕ) = ((⌊ts⌋ * 10 ^ 9 : ℤ) : K) + (ts - ⌊ts⌋) * (10 ^ 9 : ℕ) := by
    push_cast
    ring
  rw [hsplit, Int.floor_intCast_add]

/-- One second is not larger than one second, so it becomes `10 ^ 9` nanoseconds. -/
theorem not_isTime_one : ¬(fillts (1 : K)).IsTime (1 : K) := by
  intro h
  have heq : fillts (1 : K) = ⟨0, 10 ^ 9⟩ := by
    rw [fillts, if_neg (lt_irrefl _), one_mul, Int.floor_natCast]
    rfl
  have hmax := h.tv_nsec.2
  rw [heq] at hmax
  norm_num at hmax

/-- The times that `nanosleep` accepts: all but one second. -/
theorem isTime_fillts_iff (h : 0 ≤ ts) : (fillts ts).IsTime ts ↔ ts ≠ 1 := by
  rcases lt_trichotomy ts 1 with hlt | rfl | hgt
  · have heq : fillts ts = ⟨0, ⌊ts * (10 ^ 9 : ℕ)⌋⟩ := if_neg hlt.not_gt
    refine iff_of_true ?_ hlt.ne
    rw [heq]
    exact ⟨le_rfl, floor_nanoseconds h hlt, by simp⟩
  · exact iff_of_false not_isTime_one fun hne => hne rfl
  · have heq : fillts ts = ⟨⌊ts⌋, ⌊(ts - ⌊ts⌋) * (10 ^ 9 : ℕ)⌋⟩ := if_pos hgt
    refine iff_of_true ?_ hgt.ne'
    rw [heq]
    exact ⟨Int.floor_nonneg.mpr h, floor_nanoseconds (Int.fract_nonneg ts) (Int.fract_lt_one ts),
      floor_add_floor_fract ts⟩

/-- One and a half seconds. -/
theorem isTime_fillts_iff_half : (fillts (3 / 2 : ℚ)).IsTime (3 / 2 : ℚ) ↔ (3 / 2 : ℚ) ≠ 1 :=
  isTime_fillts_iff (by norm_num)

end

/-! ## A correction of one second -/

variable {tanh : ℝ → ℝ} {x : ℝ} {e n : ℤ}

section
variable (hlo : 2 ^ e ≤ x) (hhi : x < 2 ^ (e + 1)) (hmin : -126 ≤ e)
  (h : |x - n * 2 ^ (e - 23)| < 1 / 2 * 2 ^ (e - 23))
include hlo hhi hmin h

/-- A number between two powers of two that is near a `float`. -/
theorem round_eq_of_mem : (ieeeFloat tanh).round x = n * 2 ^ (e - 23) := by
  have hexp : e - ((24 : ℕ) - 1) = e - 23 := by norm_num
  have hpos : 0 < x := (zpow_pos two_pos e).trans_le hlo
  rw [round_of_nonneg hpos.le, ← hexp]
  exact roundTo_eq_of_mem hlo hhi (by omega) (by rwa [hexp])

theorem toFloat_eq_of_mem (hmax : e ≤ 126) :
    (ieeeFloat tanh).toFloat x = some ((n : ℝ) * 2 ^ (e - 23)) := by
  have hpos : 0 < x := (zpow_pos two_pos e).trans_le hlo
  obtain ⟨z, hz, -⟩ := toFloat_of_mem tanh (a := e) (b := e + 1)
    (by rwa [abs_of_pos hpos]) (by rw [abs_of_pos hpos]; exact hhi.le) (by omega) (by omega)
  have hsome : ((ieeeFloat tanh).toFloat x).isSome := hz ▸ rfl
  rw [FloatArith.toFloat] at hsome ⊢
  split at hsome
  next hfinite => rw [if_pos hfinite, round_eq_of_mem hlo hhi hmin h]
  next => cases hsome

end

theorem realfs_2880000 : realfs 2880000 = some 2880000 := by
  have hratio : realFsratio (.ofNat (450000 * 2 ^ 28 / (2880000 : UInt32).toNat)) = 41943040 := by
    decide
  have hround : binary64 ((2880000 : ℕ) : ℚ) = (2880000 : ℕ) :=
    roundTo_natCast_of_lt (by norm_num) (Nat.log_lt_of_lt_pow (by norm_num) (by norm_num))
  rw [realfs_of_lt (by decide), hratio, divide_of_ne (by norm_num [UInt32.toNat])]
  norm_num [UInt32.toNat] at hround ⊢
  exact hround

/-- How near `tanh` is to one. -/
theorem one_sub_tanh_le (x : ℝ) : 1 - Real.tanh x ≤ 2 * Real.exp (-(2 * x)) := by
  have hcosh := Real.cosh_pos x
  have hsub : 1 - Real.tanh x = Real.exp (-x) / Real.cosh x := by
    rw [Real.tanh_eq_sinh_div_cosh, ← Real.cosh_sub_sinh, sub_div, div_self hcosh.ne']
  have hpow : Real.exp (-(2 * x)) * Real.exp x = Real.exp (-x) := by
    rw [← Real.exp_add]
    ring_nf
  rw [hsub, div_le_iff₀ hcosh, Real.cosh_eq]
  calc Real.exp (-x) = Real.exp (-(2 * x)) * Real.exp x := hpow.symm
    _ ≤ Real.exp (-(2 * x)) * (Real.exp x + Real.exp (-x)) :=
        mul_le_mul_of_nonneg_left (by linarith [Real.exp_pos (-x)]) (Real.exp_pos _).le
    _ = 2 * Real.exp (-(2 * x)) * ((Real.exp x + Real.exp (-x)) / 2) := by ring

theorem one_sub_tanh_lt : 1 - Real.tanh 15.625 < 2 ^ (-29 : ℤ) := by
  have hexp : (2 : ℝ) ^ 31 ≤ Real.exp 31 := by
    have hone : (2 : ℝ) ≤ Real.exp 1 := by
      have := Real.add_one_le_exp (1 : ℝ)
      linarith
    calc (2 : ℝ) ^ 31 ≤ Real.exp 1 ^ 31 := pow_le_pow_left₀ two_pos.le hone 31
      _ = Real.exp 31 := by rw [← Real.exp_nat_mul]; norm_num
  have hle : Real.exp (-(2 * 15.625)) ≤ (2 ^ 31)⁻¹ := by
    rw [Real.exp_neg]
    apply inv_anti₀ (by norm_num)
    exact hexp.trans (Real.exp_le_exp.mpr (by norm_num))
  calc 1 - Real.tanh 15.625 ≤ 2 * Real.exp (-(2 * 15.625)) := one_sub_tanh_le _
    _ ≤ 2 * (2 ^ 31)⁻¹ := mul_le_mul_of_nonneg_left hle two_pos.le
    _ < 2 ^ (-29 : ℤ) := by norm_num

theorem controlRate_2880000 : controlRate (ieeeFloat tanh) 2880000 = some 2880000 := by
  have hconv : (FloatValue.finite (binary32 (2880000 : UInt32).toNat)).toUint32 = some 2880000 :=
    (toUint32_binary32_eq_iff 2880000).mpr (by decide)
  have hfloat : (ieeeFloat tanh).toFloat 2880000 = some 2880000 := by
    rw [toFloat_eq_of_mem (e := 21) (n := 11520000)] <;> norm_num
  rw [controlRate_eq, hconv, Option.bind_some, realfs_2880000, Option.bind_some]
  exact_mod_cast hfloat

/-- At a rate of 2880000, the correction of a lag of 1562.5 samples is to last for one second. -/
theorem controlStep_2880000 :
    controlStep (ieeeFloat Real.tanh) 2880000 1562.5 = some (.correct (2 ^ (-11 : ℤ)) 1) := by
  have hlag : (ieeeFloat Real.tanh).toFloat (1562.5 / scale) = some 15.625 := by
    rw [toFloat_eq_of_mem (e := 3) (n := 16384000)] <;> norm_num [scale]
  have hp : (ieeeFloat Real.tanh).toFloat (maxppm * Real.tanh 15.625) = some (2 ^ (-11 : ℤ)) := by
    have hlo := one_sub_tanh_lt
    have hhi := Real.tanh_lt_one 15.625
    rw [maxppm_eq, toFloat_eq_of_mem (e := -12) (n := 2 ^ 24)]
    · norm_num
    · norm_num at hlo ⊢; linarith
    · norm_num at hlo ⊢; linarith
    · norm_num
    · rw [abs_lt]
      norm_num at hlo ⊢
      constructor <;> linarith
    · norm_num
  have hrate : (ieeeFloat Real.tanh).toFloat (2 ^ (-11 : ℤ) * 2880000) = some 1406.25 := by
    rw [toFloat_eq_of_mem (e := 10) (n := 11520000)] <;> norm_num
  have htime : (ieeeFloat Real.tanh).toFloat (1562.5 / 1406.25) = some (9320676 * 2 ^ (-23 : ℤ)) := by
    rw [toFloat_eq_of_mem (e := 0) (n := 9320676)] <;> norm_num [abs_lt]
  have hfrac : fracT (ieeeFloat Real.tanh) = 15099494 * 2 ^ (-24 : ℤ) := by
    rw [fracT, round_eq_of_mem (e := -1) (n := 15099494)] <;> norm_num [abs_lt]
  have hsecond : (ieeeFloat Real.tanh).toFloat
      (15099494 * 2 ^ (-24 : ℤ) * |9320676 * 2 ^ (-23 : ℤ)|) = some 1 := by
    rw [toFloat_eq_of_mem (e := 0) (n := 2 ^ 23)] <;> norm_num [abs_lt]
  have hdescent : descent (ieeeFloat Real.tanh) 1562.5 = some (2 ^ (-11 : ℤ)) := by
    rw [descent, hlag]
    exact hp
  have hcorrection :
      correctionTime (ieeeFloat Real.tanh) 1562.5 (2 ^ (-11 : ℤ)) 2880000 = some 1 := by
    simp only [correctionTime, hrate, htime, hfrac, divide_of_ne (by norm_num : (1406.25 : ℝ) ≠ 0),
      Option.bind_eq_bind, Option.bind_some]
    exact hsecond
  have hfar : syncThreshold (ieeeFloat Real.tanh) < |1562.5| :=
    syncThreshold_lt_one.trans (by norm_num)
  simp only [controlStep, controlRate_2880000, control, hfar, if_true, hdescent, hcorrection,
    Option.bind_eq_bind, Option.bind_some, Option.pure_def]

/-- So not every time that the controller asks for is accepted. -/
theorem not_isTime_fillts :
    ¬ ∀ (samplerate : UInt32) (lag p ts : ℝ), 0 ≤ ts →
      controlStep (ieeeFloat Real.tanh) samplerate lag = some (.correct p ts) →
      (fillts ts).IsTime ts :=
  fun h => not_isTime_one (h _ _ _ _ zero_le_one controlStep_2880000)

end Aegir
