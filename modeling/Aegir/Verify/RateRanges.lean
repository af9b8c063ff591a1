import Aegir.Verify.SampleRates

/-!
# The rates that the hardware has

A ratio has 29 binary digits at the lower rates of the hardware and at most 27 at the higher ones. The
mask of `realfs` clears digit 28 and the two last digits, and digit 28 is set again where digit 27 is.
In the first range both are set, in the second one neither is, so nothing but the two last digits is
lost (`toNat_realFsratio_eq`), and the rate is less than one away from the one asked for
(`realfs_accurate`).
-/

namespace Aegir

/-- `realfs` with exact numbers. -/
def realfsExact (requestedfs : UInt32) : Option ℚ := do
  let ratio ← divide (rtlXtal.toNat * twoPow 22 : ℚ) requestedfs.toNat
  let fsratio ← (FloatValue.finite ratio).toUint32
  divide (rtlXtal.toNat * twoPow 22 : ℚ) (realFsratio fsratio).toNat

variable {r : UInt32}

theorem toUint32_ratio (hr : 0 < r.toNat) :
    (FloatValue.finite ((450000 * 2 ^ 28 : ℕ) / r.toNat)).toUint32 =
      if 28125 < r.toNat then some (.ofNat (450000 * 2 ^ 28 / r.toNat)) else none := by
  apply toUint32_of_floor hr
  · exact div_nonneg (Nat.cast_nonneg _) (Nat.cast_nonneg _)
  · exact_mod_cast Rat.floor_natCast_div_natCast _ _

theorem realfsExact_of_pos (hr : 0 < r.toNat) : realfsExact r =
    if 28125 < r.toNat then divide ((450000 * 2 ^ 28 : ℕ) : ℚ)
      (realFsratio (.ofNat (450000 * 2 ^ 28 / r.toNat))).toNat
    else none := by
  rw [realfsExact, divide_of_ne (Nat.cast_ne_zero.mpr hr.ne'), rtlXtal_mul]
  simp only [Option.bind_eq_bind, Option.bind_some, toUint32_ratio hr]
  split <;> rfl

/-- `realfs` rounds the exact rate. -/
theorem realfs_eq_map (r : UInt32) : realfs r = (realfsExact r).map binary64 := by
  rcases Nat.eq_zero_or_pos r.toNat with hr | hr
  · simp [realfs, realfsExact, hr, divide]
  · rw [realfsExact_of_pos hr]
    rcases Nat.lt_or_ge 28125 r.toNat with h | h
    · rw [if_pos h, realfs_of_lt h]
    · rw [if_neg h.not_gt, realfs_eq_none h, Option.map_none]

/-! ## The digits of the ratio -/

/-- The digits that the mask keeps, and digit 27 once more as digit 28. -/
theorem toNat_realFsratio (n : UInt32) : (realFsratio n).toNat =
    n.toNat / 4 % 2 ^ 26 * 4 + n.toNat / 2 ^ 27 % 2 * 2 ^ 28 := by
  have hmask : (n &&& 0x0ffffffc).toNat = n.toNat / 4 % 2 ^ 26 * 4 := and_mask n.toNat 26 2
  have hbit : (n &&& 0x0ffffffc &&& 0x08000000).toNat = n.toNat / 2 ^ 27 % 2 * 2 ^ 27 := by
    have h := and_mask (n &&& 0x0ffffffc).toNat 1 27
    rw [hmask] at h
    rw [UInt32.toNat_and, hmask]
    refine h.trans ?_
    omega
  have hshift : ((n &&& 0x0ffffffc &&& 0x08000000) <<< 1).toNat = 2 ^ 28 * (n.toNat / 2 ^ 27 % 2) := by
    rw [UInt32.toNat_shiftLeft, hbit, show (1 : UInt32).toNat % 32 = 1 from rfl, Nat.shiftLeft_eq,
      pow_one]
    omega
  have hlt : n.toNat / 4 % 2 ^ 26 * 4 < 2 ^ 28 := by omega
  rw [realFsratio, UInt32.toNat_or, hmask, hshift, Nat.or_comm, ← Nat.two_pow_add_eq_or_of_lt hlt,
    Nat.add_comm, Nat.mul_comm (2 ^ 28)]

/-- Where digits 27 and 28 are the same, and there is no digit beyond, only the last two digits are
lost. -/
theorem toNat_realFsratio_eq {q : ℕ} (h : q < 2 ^ 27 ∨ 2 ^ 28 + 2 ^ 27 ≤ q ∧ q < 2 ^ 29) :
    (realFsratio (.ofNat q)).toNat = q - q % 4 := by
  have hq : (UInt32.ofNat q).toNat = q := UInt32.toNat_ofNat_of_lt (by
    show q < 2 ^ 32
    omega)
  rw [toNat_realFsratio, hq]
  omega

/-! ## The rates -/

/-- The rates of `getSampleRateRange`. -/
def InRateRange (fs : ℕ) : Prop := 225001 ≤ fs ∧ fs ≤ 300000 ∨ 900001 ≤ fs ∧ fs ≤ 3200000

variable {fs : ℕ}

/-- The ratios of these rates. -/
theorem InRateRange.ratio (h : InRateRange fs) :
    450000 * 2 ^ 28 / fs < 2 ^ 27 ∨
      2 ^ 28 + 2 ^ 27 ≤ 450000 * 2 ^ 28 / fs ∧ 450000 * 2 ^ 28 / fs < 2 ^ 29 := by
  rcases h with ⟨hlo, hhi⟩ | ⟨hlo, hhi⟩
  · right
    have hpos : 0 < fs := by omega
    rw [Nat.le_div_iff_mul_le hpos, Nat.div_lt_iff_lt_mul hpos]
    omega
  · left
    rw [Nat.div_lt_iff_lt_mul (by omega)]
    omega

/-- The loss of the last two digits changes the rate by less than one. -/
theorem InRateRange.lt_mul (h : InRateRange fs) {q : ℕ} (hq : q = 450000 * 2 ^ 28 / fs) :
    q - q % 4 ≠ 0 ∧ fs * (q - q % 4) ≤ 450000 * 2 ^ 28 ∧ 450000 * 2 ^ 28 < (fs + 1) * (q - q % 4) := by
  have hpos : 0 < fs := by rcases h with h | h <;> omega
  have hmax : fs ≤ 3200000 := by rcases h with h | h <;> omega
  have hlow : 37748736 ≤ q := by
    rw [hq, Nat.le_div_iff_mul_le hpos]
    omega
  have hle : fs * q ≤ 450000 * 2 ^ 28 := hq ▸ Nat.mul_div_le _ _
  have hlt : 450000 * 2 ^ 28 < fs * (q + 1) := hq ▸ Nat.lt_mul_div_succ _ hpos
  refine ⟨by omega, (Nat.mul_le_mul_left fs (Nat.sub_le _ _)).trans hle, ?_⟩
  have hsub : fs * q ≤ fs * (q - q % 4) + fs * 3 := by
    rw [← Nat.mul_add]
    exact Nat.mul_le_mul_left fs (by omega)
  have hnext : fs * (q + 1) = fs * q + fs := Nat.mul_succ fs q
  have hmore : (fs + 1) * (q - q % 4) = fs * (q - q % 4) + (q - q % 4) := Nat.succ_mul fs _
  omega

/-- For every rate of the hardware's ranges: the divisor is the ratio without its two last digits, digit
28 being set again if and only if it was set, and the rate is less than one above the one asked for. -/
theorem realfs_accurate {r : UInt32} (h : InRateRange r.toNat) :
    ∃ (q : ℕ) (fs : ℚ), q = ⌊(28800000 * 2 ^ 22 : ℚ) / r.toNat⌋ ∧
      (realFsratio (.ofNat q)).toNat = q - q % 4 ∧
      (UInt32.ofNat q &&& 0x0ffffffc).toNat.testBit 28 = false ∧
      (realFsratio (.ofNat q)).toNat.testBit 28 = q.testBit 28 ∧
      realFsratio (.ofNat q) ≠ 0 ∧
      realfsExact r = some fs ∧ fs = 28800000 * 2 ^ 22 / (realFsratio (.ofNat q)).toNat ∧
      0 ≤ fs - r.toNat ∧ fs - r.toNat < 1 := by
  have hpos : 0 < r.toNat := by rcases h with h | h <;> omega
  have hlt : 28125 < r.toNat := by rcases h with h | h <;> omega
  obtain ⟨q, hq⟩ : ∃ q, q = 450000 * 2 ^ 28 / r.toNat := ⟨_, rfl⟩
  have hratio := toNat_realFsratio_eq (hq ▸ h.ratio)
  obtain ⟨hne, hle, hgt⟩ := h.lt_mul hq
  have hmul : (28800000 * 2 ^ 22 : ℚ) = (450000 * 2 ^ 28 : ℕ) := by norm_num
  have hd : (0 : ℚ) < (q - q % 4 : ℕ) := Nat.cast_pos.mpr (Nat.pos_of_ne_zero hne)
  refine ⟨q, 28800000 * 2 ^ 22 / (q - q % 4 : ℕ), ?_, hratio, ?_, ?_, ?_, ?_, by rw [hratio], ?_, ?_⟩
  · rw [hq, hmul]
    exact_mod_cast (Rat.floor_natCast_div_natCast _ _).symm
  · have hmask : (UInt32.ofNat q &&& 0x0ffffffc).toNat = (UInt32.ofNat q).toNat / 4 % 2 ^ 26 * 4 :=
      and_mask _ 26 2
    exact Nat.testBit_lt_two_pow (by omega)
  · have hdigits : (q - q % 4) / 2 ^ 28 = q / 2 ^ 28 := by omega
    rw [hratio, Nat.testBit_eq_decide_div_mod_eq, hdigits, Nat.testBit_eq_decide_div_mod_eq]
  · intro hzero
    rw [hzero] at hratio
    exact hne hratio.symm
  · rw [realfsExact_of_pos hpos, if_pos hlt, ← hq, hratio, hmul, divide_of_ne hd.ne']
  · rw [sub_nonneg, le_div_iff₀ hd, hmul]
    exact_mod_cast hle
  · rw [sub_lt_iff_lt_add', div_lt_iff₀ hd, hmul]
    exact_mod_cast hgt

/-- A rate that is changed, of the lower range. -/
theorem realfs_accurate_lower : ∃ (q : ℕ) (fs : ℚ),
    q = ⌊(28800000 * 2 ^ 22 : ℚ) / (299999 : UInt32).toNat⌋ ∧
      (realFsratio (.ofNat q)).toNat = q - q % 4 ∧
      (UInt32.ofNat q &&& 0x0ffffffc).toNat.testBit 28 = false ∧
      (realFsratio (.ofNat q)).toNat.testBit 28 = q.testBit 28 ∧
      realFsratio (.ofNat q) ≠ 0 ∧
      realfsExact 299999 = some fs ∧ fs = 28800000 * 2 ^ 22 / (realFsratio (.ofNat q)).toNat ∧
      0 ≤ fs - (299999 : UInt32).toNat ∧ fs - (299999 : UInt32).toNat < 1 :=
  realfs_accurate (.inl (by decide))

end Aegir
