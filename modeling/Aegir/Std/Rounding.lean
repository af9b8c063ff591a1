import Mathlib

/-!
# Rounding to a binary significand

Rounding to nearest, of two neighbours to the one whose last digit is even: to an integer
(`roundEven`), and to a significand of `p` binary digits, the last of which stands for at least
`2 ^ emin` (`roundTo`). Only numbers that are not negative are rounded to a significand; the sign
is the business of the caller, and so are numbers too large for a format. What is needed of a
rounded number is when it is below a power of two (`roundTo_lt_iff`, `roundTo_le_iff`) and when it is
the number itself (`roundTo_eq_iff`).
-/

namespace Aegir

variable {K : Type*} [Field K] [LinearOrder K] [IsStrictOrderedRing K] [FloorRing K] {x y : K}

/-! ## To an integer -/

/-- The nearest integer, and of two the even one. -/
def roundEven (x : K) : ℤ :=
  if Int.fract x < 1 - Int.fract x ∨ Int.fract x = 1 - Int.fract x ∧ Even ⌊x⌋ then ⌊x⌋ else ⌊x⌋ + 1

theorem roundEven_le_iff {n : ℤ} : roundEven x ≤ n ↔ x < n + 1 / 2 ∨ x = n + 1 / 2 ∧ Even n := by
  have hx : x = ⌊x⌋ + Int.fract x := (Int.floor_add_fract x).symm
  have hlo := Int.fract_nonneg x
  have hhi := Int.fract_lt_one x
  have hle : ⌊x⌋ ≤ roundEven x := by unfold roundEven; split <;> omega
  have hge : roundEven x ≤ ⌊x⌋ + 1 := by unfold roundEven; split <;> omega
  rcases lt_trichotomy n ⌊x⌋ with h | rfl | h
  · have hn : (n : K) + 1 ≤ ⌊x⌋ := by exact_mod_cast h
    refine ⟨fun hr => by omega, fun hr => ?_⟩
    rcases hr with hr | ⟨hr, -⟩ <;> linarith
  · have hlt : x < ⌊x⌋ + 1 / 2 ↔ Int.fract x < 1 - Int.fract x := by
      constructor <;> intro <;> linarith
    have heq : x = ⌊x⌋ + 1 / 2 ↔ Int.fract x = 1 - Int.fract x := by
      constructor <;> intro <;> linarith
    rw [hlt, heq, roundEven]
    split
    next h => exact iff_of_true le_rfl h
    next h => exact iff_of_false (by omega) h
  · have hn : (⌊x⌋ : K) + 1 ≤ n := by exact_mod_cast h
    exact ⟨fun _ => .inl (by linarith), fun _ => by omega⟩

@[simp] theorem roundEven_intCast (n : ℤ) : roundEven (n : K) = n := by
  simp [roundEven]

theorem roundEven_mono (h : x ≤ y) : roundEven x ≤ roundEven y := by
  rw [roundEven_le_iff]
  rcases roundEven_le_iff.mp (le_refl (roundEven y)) with hy | ⟨hy, heven⟩
  · exact .inl (h.trans_lt hy)
  · rcases (h.trans_eq hy).lt_or_eq with hx | hx
    · exact .inl hx
    · exact .inr ⟨hx, heven⟩

theorem roundEven_nonneg (h : 0 ≤ x) : 0 ≤ roundEven x := by
  have := roundEven_mono h
  rwa [← Int.cast_zero, roundEven_intCast] at this

/-- The nearest integer is at most one half away. -/
theorem abs_roundEven_sub_le (x : K) : |(roundEven x : K) - x| ≤ 1 / 2 := by
  have hx : x = ⌊x⌋ + Int.fract x := (Int.floor_add_fract x).symm
  have hlo := Int.fract_nonneg x
  have hhi := Int.fract_lt_one x
  unfold roundEven
  rw [abs_le]
  split
  next h =>
    rcases h with h | ⟨h, -⟩ <;> constructor <;> linarith
  next h =>
    have hge : 1 - Int.fract x ≤ Int.fract x := not_lt.mp fun hlt => h (.inl hlt)
    push_cast
    constructor <;> linarith

/-- A number closer to an integer than one half. -/
theorem roundEven_eq_of_abs_sub_lt {n : ℤ} (h : |x - n| < 1 / 2) : roundEven x = n := by
  have hround := abs_roundEven_sub_le x
  rw [abs_lt] at h
  rw [abs_le] at hround
  have hlt : (roundEven x : K) < n + 1 := by linarith
  have hgt : (n : K) - 1 < roundEven x := by linarith
  have hlt' : roundEven x < n + 1 := by exact_mod_cast hlt
  have hgt' : n - 1 < roundEven x := by exact_mod_cast hgt
  omega

/-! ## To a significand -/

variable {p : ℕ} {emin e : ℤ}

/-- The exponent of the last digit of the significand of a positive number. -/
def lastExponent (p : ℕ) (emin : ℤ) (x : K) : ℤ := max (Int.log 2 x - (p - 1)) emin

/-- What the last digit of the significand stands for. -/
def ulp (p : ℕ) (emin : ℤ) (x : K) : K := ((2 : ℕ) : K) ^ lastExponent p emin x

/-- The number with the nearest significand of `p` binary digits. -/
def roundTo (p : ℕ) (emin : ℤ) (x : K) : K := roundEven (x / ulp p emin x) * ulp p emin x

omit [IsStrictOrderedRing K] in
theorem ulp_eq : ulp p emin x = 2 ^ lastExponent p emin x := by rw [ulp, Nat.cast_ofNat]

theorem ulp_pos : 0 < ulp p emin x := ulp_eq (x := x) ▸ zpow_pos two_pos _

theorem roundTo_nonneg (h : 0 ≤ x) : 0 ≤ roundTo p emin x := by
  have hz : (0 : K) ≤ roundEven (x / ulp p emin x) := by
    exact_mod_cast roundEven_nonneg (div_nonneg h ulp_pos.le)
  exact mul_nonneg hz ulp_pos.le

/-- Rounding changes nothing if and only if the number is a multiple of its last digit. -/
theorem roundTo_eq_iff : roundTo p emin x = x ↔ ∃ n : ℤ, x = n * ulp p emin x := by
  constructor
  · exact fun h => ⟨_, h.symm⟩
  · rintro ⟨n, hn⟩
    have hdiv : x / ulp p emin x = n := (div_eq_iff ulp_pos.ne').mpr hn
    rw [roundTo, hdiv, roundEven_intCast, ← hn]

/-- Multiples of the last digit bound the rounded number where they bound the number. -/
theorem roundTo_le_mul {n : ℤ} (h : x ≤ n * ulp p emin x) : roundTo p emin x ≤ n * ulp p emin x := by
  have hr : roundEven (x / ulp p emin x) ≤ n := by
    rw [← roundEven_intCast (K := K) n]
    exact roundEven_mono ((div_le_iff₀ ulp_pos).mpr h)
  exact mul_le_mul_of_nonneg_right (by exact_mod_cast hr) ulp_pos.le

theorem mul_le_roundTo {n : ℤ} (h : n * ulp p emin x ≤ x) : n * ulp p emin x ≤ roundTo p emin x := by
  have hr : n ≤ roundEven (x / ulp p emin x) := by
    rw [← roundEven_intCast (K := K) n]
    exact roundEven_mono ((le_div_iff₀ ulp_pos).mpr h)
  exact mul_le_mul_of_nonneg_right (by exact_mod_cast hr) ulp_pos.le

omit [IsStrictOrderedRing K] in
/-- A power of two is a multiple of the last digits that are not larger. -/
theorem exists_zpow_eq_mul (h : lastExponent p emin x ≤ e) :
    ∃ n : ℤ, (2 : K) ^ e = n * ulp p emin x := by
  obtain ⟨k, hk⟩ := Int.eq_ofNat_of_zero_le (sub_nonneg.mpr h)
  refine ⟨2 ^ k, ?_⟩
  rw [ulp_eq, Int.cast_pow, Int.cast_ofNat, ← zpow_natCast, ← hk, ← zpow_add₀ two_ne_zero,
    sub_add_cancel]

theorem roundTo_le_zpow (h : lastExponent p emin x ≤ e) (hx : x ≤ 2 ^ e) :
    roundTo p emin x ≤ 2 ^ e := by
  obtain ⟨n, hn⟩ := exists_zpow_eq_mul h
  rw [hn] at hx ⊢
  exact roundTo_le_mul hx

theorem zpow_le_roundTo (h : lastExponent p emin x ≤ e) (hx : 2 ^ e ≤ x) :
    2 ^ e ≤ roundTo p emin x := by
  obtain ⟨n, hn⟩ := exists_zpow_eq_mul h
  rw [hn] at hx ⊢
  exact mul_le_roundTo hx

/-! ## Powers of two -/

theorem zpow_le_iff_le_log (hx : 0 < x) : 2 ^ e ≤ x ↔ e ≤ Int.log 2 x := by
  have := Int.zpow_le_iff_le_log (b := 2) one_lt_two hx (x := e)
  simpa using this

theorem lt_zpow_iff_log_lt (hx : 0 < x) : x < 2 ^ e ↔ Int.log 2 x < e := by
  rw [← not_le, zpow_le_iff_le_log hx, not_le]

/-- The last digit of the numbers between two powers of two. -/
theorem lastExponent_of_mem (hlo : 2 ^ e ≤ x) (hhi : x < 2 ^ (e + 1)) (hmin : emin ≤ e - (p - 1)) :
    lastExponent p emin x = e - (p - 1) := by
  have hx : 0 < x := (zpow_pos two_pos e).trans_le hlo
  have hle := (zpow_le_iff_le_log hx).mp hlo
  have hlt := (lt_zpow_iff_log_lt hx).mp hhi
  rw [lastExponent]
  omega

/-- Below a power of two, nothing is rounded to more than the power. -/
theorem roundTo_le_of_lt (hx : 0 < x) (hlt : x < 2 ^ e) (hp : 1 ≤ p) (hmin : emin ≤ e) :
    roundTo p emin x ≤ 2 ^ e := by
  have hlog := (lt_zpow_iff_log_lt hx).mp hlt
  exact roundTo_le_zpow (by rw [lastExponent]; omega) hlt.le

/-- From a power of two on, nothing is rounded to less than the power. -/
theorem le_roundTo_of_le (hle : 2 ^ e ≤ x) (hp : 1 ≤ p) (hmin : emin ≤ e) :
    2 ^ e ≤ roundTo p emin x := by
  have hx : 0 < x := (zpow_pos two_pos e).trans_le hle
  have hlog := (zpow_le_iff_le_log hx).mp hle
  calc (2 : K) ^ e ≤ 2 ^ Int.log 2 x := zpow_le_zpow_right₀ one_le_two hlog
    _ ≤ roundTo p emin x :=
      zpow_le_roundTo (by rw [lastExponent]; omega) ((zpow_le_iff_le_log hx).mpr le_rfl)

/-- The rounding of a number that is not too small changes it by at most its `2 ^ p`-th part. -/
theorem abs_roundTo_sub_le (hx : 0 < x) (hmin : (2 : K) ^ (emin + (p - 1)) ≤ x) :
    |roundTo p emin x - x| ≤ x * 2 ^ (-p : ℤ) := by
  have hlog : emin + (p - 1) ≤ Int.log 2 x := (zpow_le_iff_le_log hx).mp hmin
  have hpos : 0 < ulp p emin x := ulp_pos
  have hulp : ulp p emin x = 2 ^ (Int.log 2 x - (p - 1)) := by
    rw [ulp_eq, lastExponent, max_eq_left (by omega)]
  have hsub : roundTo p emin x - x =
      (roundEven (x / ulp p emin x) - x / ulp p emin x) * ulp p emin x := by
    rw [sub_mul, div_mul_cancel₀ _ ulp_pos.ne', roundTo]
  have hhalf : 2 * (2 : K) ^ (Int.log 2 x - p) = 2 ^ (Int.log 2 x - (p - 1)) := by
    rw [← zpow_one_add₀ two_ne_zero]
    congr 1
    ring
  calc |roundTo p emin x - x| ≤ 1 / 2 * ulp p emin x := by
        rw [hsub, abs_mul, abs_of_pos hpos]
        exact mul_le_mul_of_nonneg_right (abs_roundEven_sub_le _) hpos.le
    _ = 2 ^ Int.log 2 x * 2 ^ (-p : ℤ) := by
        rw [hulp, ← hhalf, ← zpow_add₀ two_ne_zero, ← sub_eq_add_neg]
        ring
    _ ≤ x * 2 ^ (-p : ℤ) :=
        mul_le_mul_of_nonneg_right ((zpow_le_iff_le_log hx).mpr le_rfl) (zpow_pos two_pos _).le

/-- The rounded quotient of natural numbers has the integer part of the quotient, if the digits of the
dividend are not more than those of the significand. -/
theorem floor_roundTo_div {a r : ℕ} (hr : 0 < r) (hle : r ≤ a) (ha : a < 2 ^ p)
    (hmin : emin + (p - 1) ≤ 0) : ⌊roundTo p emin ((a : K) / r)⌋ = (a / r : ℕ) := by
  have hrK : (0 : K) < r := Nat.cast_pos.mpr hr
  have hone : 1 ≤ (a : K) / r := (one_le_div hrK).mpr (Nat.cast_le.mpr hle)
  have hx : 0 < (a : K) / r := one_pos.trans_le hone
  have haK : (a : K) < 2 ^ p := by exact_mod_cast ha
  have hlog : lastExponent p emin ((a : K) / r) ≤ 0 := by
    have hlt : (a : K) / r < 2 ^ (p : ℤ) := by
      rw [zpow_natCast]
      exact (div_le_self (Nat.cast_nonneg a) (Nat.one_le_cast.mpr hr)).trans_lt haK
    have := (lt_zpow_iff_log_lt hx).mp hlt
    have hnonneg : 0 ≤ Int.log 2 ((a : K) / r) := by
      refine (zpow_le_iff_le_log hx).mp ?_
      rwa [zpow_zero]
    rw [lastExponent]
    omega
  have hmul : (r : K) * (a / r : ℕ) ≤ a := by exact_mod_cast Nat.mul_div_le a r
  have hnext : (a : K) + 1 ≤ r * ((a / r : ℕ) + 1) := by exact_mod_cast Nat.lt_mul_div_succ a hr
  rw [Int.floor_eq_iff, Int.cast_natCast]
  constructor
  · -- natural numbers are multiples of the last digit
    obtain ⟨n, hn⟩ := exists_zpow_eq_mul hlog
    have hcast : ((a / r : ℕ) : K) = ((a / r : ℕ) * n : ℤ) * ulp p emin ((a : K) / r) := by
      rw [Int.cast_mul, mul_assoc, ← hn, zpow_zero, mul_one, Int.cast_natCast]
    rw [hcast]
    refine mul_le_roundTo ?_
    rw [← hcast]
    exact (le_div_iff₀' hrK).mpr hmul
  · -- the next natural number is farther away than the rounding reaches
    have hmin' : (2 : K) ^ (emin + (p - 1)) ≤ (a : K) / r :=
      (zpow_le_one_of_nonpos₀ one_le_two hmin).trans hone
    have herr := (abs_le.mp (abs_roundTo_sub_le hx hmin')).2
    have hpow : (a : K) * 2 ^ (-p : ℤ) < 1 := by
      rw [zpow_neg, zpow_natCast, ← div_eq_mul_inv]
      exact (div_lt_one (pow_pos two_pos p)).mpr haK
    calc roundTo p emin ((a : K) / r) ≤ (a : K) / r + (a : K) / r * 2 ^ (-p : ℤ) := by linarith
      _ = ((a : K) + a * 2 ^ (-p : ℤ)) / r := by ring
      _ < ((a : K) + 1) / r := div_lt_div_of_pos_right (by linarith) hrK
      _ ≤ (a / r : ℕ) + 1 := (div_le_iff₀' hrK).mpr hnext

section
variable (hlo : 2 ^ e ≤ x) (hhi : x < 2 ^ (e + 1)) (hmin : emin ≤ e - (p - 1))
include hlo hhi hmin

/-- Between two powers of two, the numbers that are rounded to at most `n` last digits. -/
theorem roundTo_le_iff_of_mem {n : ℤ} :
    roundTo p emin x ≤ n * 2 ^ (e - (p - 1) : ℤ) ↔
      x < (n + 1 / 2) * 2 ^ (e - (p - 1) : ℤ) ∨
        x = (n + 1 / 2) * 2 ^ (e - (p - 1) : ℤ) ∧ Even n := by
  have hu : ulp p emin x = 2 ^ (e - (p - 1) : ℤ) := by rw [ulp_eq, lastExponent_of_mem hlo hhi hmin]
  have hpos : (0 : K) < 2 ^ (e - (p - 1) : ℤ) := zpow_pos two_pos _
  rw [roundTo, hu, mul_le_mul_iff_of_pos_right hpos, Int.cast_le, roundEven_le_iff,
    div_lt_iff₀ hpos, div_eq_iff hpos.ne']

/-- Between two powers of two, a number closer to a multiple of the last digit than half of it. -/
theorem roundTo_eq_of_mem {n : ℤ}
    (h : |x - n * 2 ^ (e - (p - 1) : ℤ)| < 1 / 2 * 2 ^ (e - (p - 1) : ℤ)) :
    roundTo p emin x = n * 2 ^ (e - (p - 1) : ℤ) := by
  have hu : ulp p emin x = 2 ^ (e - (p - 1) : ℤ) := by rw [ulp_eq, lastExponent_of_mem hlo hhi hmin]
  have hpos : (0 : K) < 2 ^ (e - (p - 1) : ℤ) := zpow_pos two_pos _
  have hround : roundEven (x / 2 ^ (e - (p - 1) : ℤ)) = n := by
    apply roundEven_eq_of_abs_sub_lt
    have hdiv : x / 2 ^ (e - (p - 1) : ℤ) - n =
        (x - n * 2 ^ (e - (p - 1) : ℤ)) / 2 ^ (e - (p - 1) : ℤ) := by
      rw [sub_div, mul_div_cancel_right₀ _ hpos.ne']
    rwa [hdiv, abs_div, abs_of_pos hpos, div_lt_iff₀ hpos]
  rw [roundTo, hu, hround]

/-- Nothing lies between successive multiples of the last digit. -/
theorem roundTo_lt_iff_of_mem {n : ℤ} {d : K} (hd : 0 < d) (hle : d ≤ 2 ^ (e - (p - 1) : ℤ)) :
    roundTo p emin x < n * 2 ^ (e - (p - 1) : ℤ) + d ↔
      roundTo p emin x ≤ n * 2 ^ (e - (p - 1) : ℤ) := by
  have hu : ulp p emin x = 2 ^ (e - (p - 1) : ℤ) := by rw [ulp_eq, lastExponent_of_mem hlo hhi hmin]
  have hpos : (0 : K) < 2 ^ (e - (p - 1) : ℤ) := zpow_pos two_pos _
  refine ⟨fun h => ?_, fun h => by linarith⟩
  rw [roundTo, hu] at h ⊢
  have hlt : (roundEven (x / 2 ^ (e - (p - 1) : ℤ)) : K) < n + 1 := by
    by_contra hge
    have := mul_le_mul_of_nonneg_right (not_lt.mp hge) hpos.le
    linarith
  have hle : roundEven (x / 2 ^ (e - (p - 1) : ℤ)) ≤ n := by
    have : roundEven (x / 2 ^ (e - (p - 1) : ℤ)) < n + 1 := by exact_mod_cast hlt
    omega
  exact mul_le_mul_of_nonneg_right (by exact_mod_cast hle) hpos.le

end

omit [IsStrictOrderedRing K] in
theorem two_mul_zpow (e : ℤ) : 2 * (2 : K) ^ (e - 1) = 2 ^ e := by
  rw [← zpow_one_add₀ two_ne_zero]
  congr 1
  ring

omit [IsStrictOrderedRing K] in
theorem pow_mul_zpow (n : ℕ) (e : ℤ) : 2 ^ n * (2 : K) ^ (e - n) = 2 ^ e := by
  rw [← zpow_natCast, ← zpow_add₀ two_ne_zero]
  congr 1
  ring

/-- The numbers that are rounded to less than a power of two. -/
theorem roundTo_lt_iff (hx : 0 < x) (hp : 1 ≤ p) (hmin : emin ≤ e - p) :
    roundTo p emin x < 2 ^ e ↔ x < 2 ^ e - 2 ^ (e - p - 1) := by
  have hhalf : 2 * (2 : K) ^ (e - p - 1) = 2 ^ (e - p) := two_mul_zpow (e - p)
  have hpos : (0 : K) < 2 ^ (e - p - 1) := zpow_pos two_pos _
  have hlow : (2 : K) ^ (e - p - 1) ≤ 2 ^ (e - 1) := zpow_le_zpow_right₀ one_le_two (by omega)
  have hdouble : 2 * (2 : K) ^ (e - 1) = 2 ^ e := two_mul_zpow e
  rcases lt_or_ge x (2 ^ (e - 1)) with h | hlo
  · have hround : roundTo p emin x ≤ 2 ^ (e - 1) := roundTo_le_of_lt hx h hp (by omega)
    have hpos' : (0 : K) < 2 ^ (e - 1) := zpow_pos two_pos _
    exact ⟨fun _ => by linarith, fun _ => by linarith⟩
  rcases lt_or_ge x (2 ^ e) with hhi | h
  · -- the last digit is `2 ^ (e - p)`, and `2 ^ p - 1` of them are the number before the power
    have hlast : e - 1 - (p - 1) = e - p := by ring
    have hhi : x < 2 ^ (e - 1 + 1) := by rwa [sub_add_cancel]
    have hmin : emin ≤ e - 1 - (p - 1) := by omega
    have hle := roundTo_le_iff_of_mem hlo hhi hmin (n := 2 ^ p - 1)
    have hlt := roundTo_lt_iff_of_mem hlo hhi hmin (n := 2 ^ p - 1) (zpow_pos two_pos _) le_rfl
    have hodd : ¬ Even ((2 : ℤ) ^ p - 1) := by
      rw [Int.even_sub_one, not_not]
      exact (even_two.pow_of_ne_zero (by omega))
    have hnext : (((2 ^ p - 1 : ℤ) : K)) * 2 ^ (e - p) + 2 ^ (e - p) = 2 ^ e := by
      rw [← pow_mul_zpow p e]
      push_cast
      ring
    have hmid : (((2 ^ p - 1 : ℤ) : K) + 1 / 2) * 2 ^ (e - p) = 2 ^ e - 2 ^ (e - p - 1) := by
      linear_combination hnext + hhalf / 2
    rw [hlast] at hle hlt
    rw [hnext] at hlt
    rw [hlt, hle, hmid]
    simp [hodd]
  · have hround : 2 ^ e ≤ roundTo p emin x := le_roundTo_of_le h hp (by omega)
    exact ⟨fun h => absurd h hround.not_gt, fun h => absurd h (by linarith)⟩

section
variable {f : ℕ} (hp : 1 ≤ p) (hmin : emin ≤ 1 - p)
include hmin

theorem ulp_natCast (h : p - 1 ≤ Nat.log 2 f) (hp : 1 ≤ p) :
    ulp p emin (f : K) = ((2 ^ (Nat.log 2 f - (p - 1)) : ℕ) : K) := by
  have hexp : lastExponent p emin (f : K) = ((Nat.log 2 f - (p - 1) : ℕ) : ℤ) := by
    rw [lastExponent, Int.log_natCast]
    omega
  rw [ulp_eq, hexp, zpow_natCast, Nat.cast_pow, Nat.cast_ofNat]

theorem roundTo_natCast_of_lt (h : Nat.log 2 f < p - 1) : roundTo p emin (f : K) = f := by
  obtain ⟨k, hk⟩ := Int.eq_ofNat_of_zero_le (show 0 ≤ -lastExponent p emin (f : K) by
    rw [lastExponent, Int.log_natCast]
    omega)
  refine roundTo_eq_iff.mpr ⟨f * 2 ^ k, ?_⟩
  rw [ulp_eq, ← neg_neg (lastExponent p emin (f : K)), hk, zpow_neg, zpow_natCast]
  have h2 : (2 : K) ^ k ≠ 0 := pow_ne_zero k two_ne_zero
  push_cast
  field_simp

include hp

/-- A natural number is not changed if and only if its last `log₂ f - (p - 1)` digits are zero. -/
theorem roundTo_natCast_eq_iff :
    roundTo p emin (f : K) = f ↔ 2 ^ (Nat.log 2 f - (p - 1)) ∣ f := by
  rcases Nat.lt_or_ge (Nat.log 2 f) (p - 1) with h | h
  · rw [Nat.sub_eq_zero_of_le h.le, pow_zero]
    exact ⟨fun _ => one_dvd f, fun _ => roundTo_natCast_of_lt hmin h⟩
  · rw [roundTo_eq_iff, ulp_natCast hmin h hp]
    constructor
    · rintro ⟨n, hn⟩
      have hn : (f : ℤ) = n * (2 ^ (Nat.log 2 f - (p - 1)) : ℕ) := by exact_mod_cast hn
      exact Int.natCast_dvd_natCast.mp ⟨n, by rw [hn, mul_comm]⟩
    · rintro ⟨n, hn⟩
      refine ⟨n, ?_⟩
      exact_mod_cast hn.trans (Nat.mul_comm ..)

/-- A natural number is rounded to one. -/
theorem exists_roundTo_natCast : ∃ k : ℕ, roundTo p emin (f : K) = k := by
  rcases Nat.lt_or_ge (Nat.log 2 f) (p - 1) with h | h
  · exact ⟨f, roundTo_natCast_of_lt hmin h⟩
  · have hpos : (0 : K) < ulp p emin (f : K) := ulp_pos
    obtain ⟨n, hn⟩ := Int.eq_ofNat_of_zero_le
      (roundEven_nonneg (div_nonneg (Nat.cast_nonneg f) hpos.le))
    refine ⟨n * 2 ^ (Nat.log 2 f - (p - 1)), ?_⟩
    rw [roundTo, hn, ulp_natCast hmin h hp]
    push_cast
    rfl

end

end Aegir
