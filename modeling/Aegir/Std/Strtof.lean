import Aegir.Std.CString
import Aegir.Std.Rounding

/-!
# `strtof` and `std::stof`

The numbers that `strtof` reads from the beginning of a string, in the C locale: after white space and
a sign, an infinity, a NaN, or digits with an exponent, hexadecimal behind `0x`. Whatever follows is
left alone, and `std::stof` does not ask for it. A number is rounded to the nearest `float`; `std::stof`
throws when there is no number and when `strtof` reports `ERANGE`, as it does for a number too large
and, as C leaves open, for one too small.
-/

namespace Aegir

/-! ## The number at the beginning of a string -/

/-- `isspace`. -/
def isSpace (c : Char) : Bool := c = ' ' ∨ '\t' ≤ c ∧ c ≤ '\r'

def isHexDigit (c : Char) : Bool := c.isDigit ∨ 'a' ≤ c ∧ c ≤ 'f' ∨ 'A' ≤ c ∧ c ≤ 'F'

def digitValue (c : Char) : ℕ :=
  if c.isDigit then c.toNat - 48 else if 'a' ≤ c then c.toNat - 87 else c.toNat - 55

/-- The number that digits stand for. -/
def ofDigits (base : ℕ) (l : List Char) : ℕ := l.foldl (fun n c => base * n + digitValue c) 0

/-- A sign, if there is one. -/
def sign : List Char → Bool × List Char
  | '-' :: l => (true, l)
  | '+' :: l => (false, l)
  | l => (false, l)

/-- Digits with at most one point: the digits, how many are behind the point, and what follows. -/
def mantissa (digit : Char → Bool) (l : List Char) : List Char × ℕ × List Char :=
  match l.dropWhile digit with
  | '.' :: r => (l.takeWhile digit ++ r.takeWhile digit, (r.takeWhile digit).length,
      r.dropWhile digit)
  | r => (l.takeWhile digit, 0, r)

/-- The exponent behind the letter `e`, in either case; without digits there is none. -/
def exponent (e : Char) : List Char → ℤ
  | [] => 0
  | c :: l =>
    let (neg, l) := sign l
    let digits := l.takeWhile Char.isDigit
    if c.toLower ≠ e ∨ digits = [] then 0
    else if neg then -ofDigits 10 digits else ofDigits 10 digits

/-- What `strtof` reads; `magnitude` is the number without its sign. -/
inductive Subject
  | nan
  | infinity (neg : Bool)
  | number (neg : Bool) (magnitude : ℚ)
  deriving DecidableEq, Repr

/-- Digits and an exponent, `step` digits of which are one digit of the mantissa. -/
def scaledDigits (digit : Char → Bool) (base b : ℕ) (step : ℕ) (e : Char) (l : List Char) :
    Option ℚ :=
  let (digits, behind, r) := mantissa digit l
  if digits = [] then none
  else some (ofDigits base digits * (b : ℚ) ^ (exponent e r - step * behind))

/-- The magnitude of a number: the digits of `0x` alone are the zero. -/
def magnitude : List Char → Option ℚ
  | '0' :: x :: l =>
    if x.toLower = 'x' then some ((scaledDigits isHexDigit 16 2 4 'p' l).getD 0)
    else scaledDigits Char.isDigit 10 10 1 'e' ('0' :: x :: l)
  | l => scaledDigits Char.isDigit 10 10 1 'e' l

/-- The subject sequence of `strtof`. -/
def subject (l : List Char) : Option Subject :=
  let (neg, l) := sign (l.dropWhile isSpace)
  if (l.take 3).map Char.toLower = ['i', 'n', 'f'] then some (.infinity neg)
  else if (l.take 3).map Char.toLower = ['n', 'a', 'n'] then some .nan
  else (magnitude l).map (.number neg)

/-! ## The number as a `float` -/

/-- A `float`. -/
inductive FloatValue
  | nan
  | infinity (neg : Bool)
  | finite (x : ℚ)
  deriving DecidableEq, Repr

/-- The nearest `float` to a number, were there no largest one. -/
def binary32 (x : ℚ) : ℚ := roundTo 24 (-149) x

/-- The `float` for a number and its sign. -/
def FloatValue.ofNumber (neg : Bool) (x : ℚ) : FloatValue :=
  .finite (if neg then -binary32 x else binary32 x)

/-- The number is too small for a `float` to come near it. -/
def Underflows (x : ℚ) : Prop := x < 2 ^ (-126 : ℤ) ∧ binary32 x ≠ x

instance (x : ℚ) : Decidable (Underflows x) := inferInstanceAs (Decidable (_ ∧ _))

/-- The exceptions of `std::stof`. -/
inductive StofError
  | invalid_argument | out_of_range
  deriving DecidableEq, Repr

/-- `std::stof`; `erange` tells for which of the numbers that underflow `strtof` reports `ERANGE`. -/
def stof (erange : ℚ → Bool) (str : List Char) : Except StofError FloatValue :=
  match subject (cstring str) with
  | none => .error .invalid_argument
  | some .nan => .ok .nan
  | some (.infinity neg) => .ok (.infinity neg)
  | some (.number neg x) =>
    if 2 ^ 128 ≤ binary32 x ∨ Underflows x ∧ erange x then .error .out_of_range
    else .ok (.ofNumber neg x)

/-- The integer part. -/
def trunc (x : ℚ) : ℤ := if x < 0 then ⌈x⌉ else ⌊x⌋

/-- The conversion to `uint32_t`; it is undefined when the integer part does not fit. -/
def FloatValue.toUint32 : FloatValue → Option UInt32
  | .finite x => if 0 ≤ trunc x ∧ trunc x < 2 ^ 32 then some (.ofNat (trunc x).toNat) else none
  | _ => none

/-- The conversion to `int`. -/
def FloatValue.toInt : FloatValue → Option ℤ
  | .finite x => if -2 ^ 31 ≤ trunc x ∧ trunc x < 2 ^ 31 then some (trunc x) else none
  | _ => none

/-! ## When a conversion is possible -/

namespace Subject

/-- `strtof` reports `ERANGE`. -/
def RangeError (erange : ℚ → Bool) : Subject → Prop
  | number _ x => 2 ^ 128 - 2 ^ 103 ≤ x ∨ Underflows x ∧ erange x
  | _ => False

end Subject

variable {x : ℚ}

@[simp] theorem binary32_zero : binary32 0 = 0 := roundTo_eq_iff.mpr ⟨0, by simp⟩

theorem binary32_lt_zpow_iff {e : ℤ} (h : 0 ≤ x) (he : -125 ≤ e) :
    binary32 x < 2 ^ e ↔ x < 2 ^ e - 2 ^ (e - 25) := by
  rcases h.eq_or_lt with rfl | hpos
  · have hlt : (2 : ℚ) ^ (e - 25) < 2 ^ e := zpow_lt_zpow_right₀ one_lt_two (by omega)
    have hpos : (0 : ℚ) < 2 ^ e := zpow_pos two_pos e
    rw [binary32_zero]
    exact ⟨fun _ => sub_pos.mpr hlt, fun _ => hpos⟩
  · have : binary32 x < 2 ^ e ↔ x < 2 ^ e - 2 ^ (e - (24 : ℕ) - 1) :=
      roundTo_lt_iff hpos (by omega) (by push_cast; omega)
    rwa [show e - (24 : ℕ) - 1 = e - 25 by push_cast; ring] at this

theorem binary32_lt_pow_iff {n : ℕ} (h : 0 ≤ x) (hn : 25 ≤ n) :
    binary32 x < 2 ^ n ↔ x < 2 ^ n - 2 ^ (n - 25) := by
  have := binary32_lt_zpow_iff h (show -125 ≤ (n : ℤ) by omega)
  rwa [show (n : ℤ) - 25 = (n - 25 : ℕ) by omega, zpow_natCast, zpow_natCast] at this

theorem pow_le_binary32_iff {n : ℕ} (h : 0 ≤ x) (hn : 25 ≤ n) :
    2 ^ n ≤ binary32 x ↔ 2 ^ n - 2 ^ (n - 25) ≤ x := by
  rw [← not_lt, binary32_lt_pow_iff h hn, not_lt]

theorem trunc_of_nonneg (h : 0 ≤ x) : trunc x = ⌊x⌋ := if_neg h.not_gt

theorem scaledDigits_nonneg {digit : Char → Bool} {base b step : ℕ} {e : Char} {l : List Char}
    (h : scaledDigits digit base b step e l = some x) : 0 ≤ x := by
  simp only [scaledDigits] at h
  split at h
  · cases h
  · cases h
    positivity

theorem magnitude_nonneg {l : List Char} (h : magnitude l = some x) : 0 ≤ x := by
  unfold magnitude at h
  split at h
  · split at h
    · cases h
      cases hd : scaledDigits isHexDigit 16 2 4 'p' _ with
      | none => exact le_rfl
      | some y => exact scaledDigits_nonneg hd
    · exact scaledDigits_nonneg h
  · exact scaledDigits_nonneg h

theorem subject_nonneg {l : List Char} {neg : Bool} (h : subject l = some (.number neg x)) :
    0 ≤ x := by
  simp only [subject] at h
  split at h
  · cases h
  · split at h
    · cases h
    · obtain ⟨y, hy, heq⟩ := Option.map_eq_some_iff.mp h
      cases heq
      exact magnitude_nonneg hy

/-! ## What `std::stof` returns -/

variable {erange : ℚ → Bool} {str : List Char} {s : Subject}

theorem stof_of_number {neg : Bool} (h : subject (cstring str) = some (.number neg x))
    (herr : ¬ Subject.RangeError erange (.number neg x)) :
    stof erange str = .ok (.ofNumber neg x) := by
  rw [stof, h]
  have hbig := pow_le_binary32_iff (subject_nonneg h) (n := 128) (by norm_num)
  exact if_neg fun hif => herr (hif.imp_left hbig.mp)

theorem exists_digitChar {c : Char} (h : c.isDigit) : ∃ n < 10, c = Nat.digitChar n := by
  have hb : 48 ≤ c.toNat ∧ c.toNat ≤ 57 := by
    simpa [Char.isDigit, Char.le_def, UInt32.le_iff_toNat_le] using h
  refine ⟨c.toNat - 48, by omega, Char.toNat_inj.mp ?_⟩
  rw [Nat.toNat_digitChar_of_lt_ten (by omega)]
  omega

section
variable {c : Char} {l : List Char}

/-- A digit is not taken for anything else. -/
theorem digit_ne (h : c.isDigit) :
    isSpace c = false ∧ c ∉ ['-', '+', '\x00', ' '] ∧ c.toLower ∉ ['i', 'n', 'x'] := by
  obtain ⟨n, hn, rfl⟩ := exists_digitChar h
  revert n
  decide +kernel

theorem sign_of_ne (hneg : c ≠ '-') (hpos : c ≠ '+') : sign (c :: l) = (false, c :: l) := by
  unfold sign
  split <;> simp_all

theorem mantissa_of_all {digit : Char → Bool} (h : ∀ c ∈ l, digit c) :
    mantissa digit l = (l, 0, []) := by
  rw [mantissa, List.dropWhile_eq_nil_iff.mpr h, List.takeWhile_eq_self_iff.mpr h]

theorem scaledDigits_of_all (h : ∀ c ∈ l, c.isDigit) (hl : l ≠ []) :
    scaledDigits Char.isDigit 10 10 1 'e' l = some (ofDigits 10 l : ℚ) := by
  simp [scaledDigits, mantissa_of_all h, hl, exponent]

theorem magnitude_of_all (h : ∀ c ∈ l, c.isDigit) (hl : l ≠ []) :
    magnitude l = some (ofDigits 10 l : ℚ) := by
  rw [← scaledDigits_of_all h hl]
  unfold magnitude
  split
  next x l =>
    obtain ⟨-, -, hx⟩ := digit_ne (h x (by simp))
    rw [if_neg fun h => hx (by simp [h])]
  next => rfl

/-- Behind a digit, and before a point, there is neither an infinity nor a NaN. -/
theorem subject_of_digit (h : c.isDigit) :
    subject (c :: l) = (magnitude (c :: l)).map (.number false) := by
  obtain ⟨hspace, hsign, hlower⟩ := digit_ne h
  have hneg : c ≠ '-' := fun hc => hsign (by simp [hc])
  have hpos : c ≠ '+' := fun hc => hsign (by simp [hc])
  have hi : c.toLower ≠ 'i' := fun hc => hlower (by simp [hc])
  have hn : c.toLower ≠ 'n' := fun hc => hlower (by simp [hc])
  rw [subject, List.dropWhile_cons_of_neg (by simp [hspace]), sign_of_ne hneg hpos]
  simp [hi, hn]

/-- Digits are the number that they stand for. -/
theorem subject_of_all (h : ∀ c ∈ l, c.isDigit) (hl : l ≠ []) :
    subject l = some (.number false (ofDigits 10 l)) := by
  have hmag := magnitude_of_all h hl
  obtain ⟨c, l, rfl⟩ := List.exists_cons_of_ne_nil hl
  rw [subject_of_digit (h c (List.mem_cons_self ..)), hmag, Option.map_some]

/-! ### With a point -/

variable {l' : List Char}

theorem mantissa_of_point (h : ∀ c ∈ l, c.isDigit) (h' : ∀ c ∈ l', c.isDigit) :
    mantissa Char.isDigit (l ++ '.' :: l') = (l ++ l', l'.length, []) := by
  have hdrop : (l ++ '.' :: l').dropWhile Char.isDigit = '.' :: l' := by
    rw [List.dropWhile_append_of_pos h, List.dropWhile_cons_of_neg (by decide)]
  have htake : (l ++ '.' :: l').takeWhile Char.isDigit = l := by
    rw [List.takeWhile_append_of_pos h, List.takeWhile_cons_of_neg (by decide), List.append_nil]
  simp only [mantissa, hdrop, htake, List.takeWhile_eq_self_iff.mpr h',
    List.dropWhile_eq_nil_iff.mpr h']

theorem magnitude_of_point (h : ∀ c ∈ l, c.isDigit) (h' : ∀ c ∈ l', c.isDigit) (hl : l ≠ []) :
    magnitude (l ++ '.' :: l') = some ((ofDigits 10 (l ++ l') : ℚ) / 10 ^ l'.length) := by
  have hscaled : scaledDigits Char.isDigit 10 10 1 'e' (l ++ '.' :: l') =
      some ((ofDigits 10 (l ++ l') : ℚ) / 10 ^ l'.length) := by
    simp [scaledDigits, mantissa_of_point h h', hl, exponent, div_eq_mul_inv]
  obtain ⟨c, l, rfl⟩ := List.exists_cons_of_ne_nil hl
  rw [← hscaled]
  unfold magnitude
  split
  next x r heq =>
    -- the character behind a zero is a digit or the point
    have hx : x.isDigit ∨ x = '.' := by
      cases l with
      | nil => exact .inr (List.cons.inj (List.cons.inj heq).2).1.symm
      | cons d l => exact .inl ((List.cons.inj (List.cons.inj heq).2).1 ▸ h d (by simp))
    have hlower : x.toLower ≠ 'x' := by
      rcases hx with hx | rfl
      · exact fun hc => (digit_ne hx).2.2 (by simp [hc])
      · decide
    rw [if_neg hlower, heq]
  next => rfl

/-- Digits on both sides of a point. -/
theorem subject_of_point (h : ∀ c ∈ l, c.isDigit) (h' : ∀ c ∈ l', c.isDigit) (hl : l ≠ []) :
    subject (l ++ '.' :: l') =
      some (.number false (ofDigits 10 (l ++ l') / 10 ^ l'.length)) := by
  have hmag := magnitude_of_point h h' hl
  obtain ⟨c, l, rfl⟩ := List.exists_cons_of_ne_nil hl
  rw [List.cons_append] at hmag ⊢
  rw [subject_of_digit (h c (List.mem_cons_self ..)), hmag, Option.map_some]

end

theorem isDigit_of_mem_toDigits {n : ℕ} {c : Char} (h : c ∈ Nat.toDigits 10 n) : c.isDigit :=
  Nat.isDigit_of_mem_toDigits (by norm_num) le_rfl h

theorem ofDigits_toDigits (n : ℕ) : ofDigits 10 (Nat.toDigits 10 n) = n := by
  have hvalue : ∀ (m : ℕ), ∀ c ∈ Nat.toDigits 10 n,
      10 * m + digitValue c = 10 * m + (c.toNat - '0'.toNat) := fun m c hc => by
    rw [digitValue, if_pos (isDigit_of_mem_toDigits hc)]
    rfl
  rw [ofDigits, List.foldl_ext _ _ 0 hvalue, ← Nat.ofDigitChars_eq_foldl,
    Nat.ofDigitChars_ten_toDigits]

/-- One more digit. -/
theorem ofDigits_toDigits_append {m n : ℕ} (hn : n < 10) :
    ofDigits 10 (Nat.toDigits 10 m ++ Nat.toDigits 10 n) = 10 * m + n := by
  have hdigit := ofDigits_toDigits n
  have hdigits := ofDigits_toDigits m
  rw [Nat.toDigits_of_lt_base hn] at hdigit ⊢
  simp only [ofDigits, List.foldl_append, List.foldl_cons, List.foldl_nil, mul_zero,
    zero_add] at hdigit hdigits ⊢
  rw [hdigit, hdigits]

/-- A natural number in decimal is read as the nearest `float`. -/
theorem stof_toDigits {n : ℕ} (h : n < 2 ^ 127) :
    stof erange (Nat.toDigits 10 n) = .ok (.finite (binary32 n)) := by
  have hdigit : ∀ c ∈ Nat.toDigits 10 n, c.isDigit := fun c => isDigit_of_mem_toDigits
  have hnul : '\x00' ∉ Nat.toDigits 10 n := fun h0 => by cases hdigit _ h0
  have hsubject : subject (cstring (Nat.toDigits 10 n)) = some (.number false n) := by
    rw [cstring_of_notMem hnul, subject_of_all hdigit Nat.toDigits_ne_nil, ofDigits_toDigits]
  refine stof_of_number hsubject ?_
  rintro (hbig | ⟨⟨hsmall, hne⟩, -⟩)
  · have hn : (n : ℚ) < 2 ^ 127 := by exact_mod_cast h
    norm_num at hbig hn
    linarith
  · have hone : (n : ℚ) < 1 := hsmall.trans (by norm_num)
    obtain rfl : n = 0 := Nat.lt_one_iff.mp (by exact_mod_cast hone)
    exact hne (by rw [Nat.cast_zero, binary32_zero])

theorem toUint32_natCast (k : ℕ) :
    (FloatValue.finite k).toUint32 = if k < 2 ^ 32 then some (.ofNat k) else none := by
  have htrunc : trunc (k : ℚ) = k := by rw [trunc_of_nonneg (Nat.cast_nonneg k), Int.floor_natCast]
  rw [FloatValue.toUint32, htrunc]
  rcases Nat.lt_or_ge k (2 ^ 32) with hk | hk
  · rw [if_pos hk, if_pos ⟨by omega, by exact_mod_cast hk⟩, Int.toNat_natCast]
  · rw [if_neg hk.not_gt, if_neg fun h => hk.not_gt (by exact_mod_cast h.2)]

/-- Natural numbers come back from `float` if and only if their first 24 binary digits are all. -/
theorem toUint32_binary32_eq_iff (n : UInt32) :
    (FloatValue.finite (binary32 n.toNat)).toUint32 = some n ↔
      2 ^ (Nat.log 2 n.toNat - 23) ∣ n.toNat := by
  have hp : 1 ≤ 24 := by norm_num
  have hmin : (-149 : ℤ) ≤ 1 - (24 : ℕ) := by norm_num
  rw [← roundTo_natCast_eq_iff (K := ℚ) hp hmin, ← binary32]
  obtain ⟨k, hk⟩ := exists_roundTo_natCast (K := ℚ) (f := n.toNat) hp hmin
  rw [binary32, hk, toUint32_natCast, Nat.cast_inj]
  constructor
  · intro h
    split at h
    next hlt =>
      rw [← Option.some.inj h, UInt32.toNat_ofNat', Nat.mod_eq_of_lt hlt]
    next => cases h
  · rintro rfl
    rw [if_pos n.toNat_lt, UInt32.ofNat_toNat]

end Aegir
