import Aegir.Model.GainCommands
import Aegir.Verify.CommandLine
import Aegir.Verify.RemoteCommands

/-!
# Gains

The console takes the integer part of a gain before it multiplies by ten, so that whole decibels
arrive and the digit behind the point does not. `AegirDevice` sends the integer part itself and reports
the gain that it was given. A gain is kept to the tenth by the first client if and only if it has none,
and by the second one, to half a tenth, if and only if its fractional part is at most that
(`keepsTenths_iff`).
-/

namespace Aegir

/-- The console, run on the message, calls `set_tuner_gain(n)` of the reference and of every signal
device. -/
def Receiver.SetsTunerGain (r : Receiver) (inputln : List Char) (n : ℤ) : Prop :=
  dispatchTunergain stofExact r inputln = some (.ok (r.setTunerGain n))

variable {r : Receiver}

theorem setTunerGain_inj {n k : ℤ} : r.setTunerGain n = r.setTunerGain k ↔ n = k :=
  ⟨fun h => congrArg (·.refdev.rfgain) h, fun h => h ▸ rfl⟩

/-! ## The console -/

theorem dispatchTunergain_append {stof : List Char → Except StofError FloatValue}
    {opt : List Char} :
    dispatchTunergain stof r (chars "tunergain" ++ ' ' :: opt) =
      some (cmdtunergainWith stof r r.setTunerGain opt) := by
  have hcmd : (chars "tunergain", .tunergain) ∈ commandCodes := by simp [commandCodes]
  have hspace : ' ' ∉ chars "tunergain" := by decide +kernel
  rw [dispatchTunergain, parsecmd_append hspace, getoptionstr_append hspace, lookup_of_mem hcmd,
    Option.getD_some, if_pos rfl]

/-- Ten times the integer part. -/
theorem setsTunerGain_iff {opt : List Char} {x : ℚ} (hnul : '\x00' ∉ opt)
    (hs : subject opt = some (.number false x)) (hx : 0 ≤ x) (hlt : 10 * ⌊x⌋ < 2 ^ 31) {n : ℤ} :
    r.SetsTunerGain (chars "tunergain" ++ ' ' :: opt) n ↔ 10 * ⌊x⌋ = n := by
  have hfloor : 0 ≤ ⌊x⌋ := Int.floor_nonneg.mpr hx
  have hint : (FloatValue.finite x).toInt = some ⌊x⌋ := by
    rw [FloatValue.toInt, trunc_of_nonneg hx, if_pos (by omega)]
  have hmod : (⌊x⌋ * 10).bmod (2 ^ 32) = 10 * ⌊x⌋ := by
    rw [Int.bmod_eq_of_le (by omega) (by omega), mul_comm]
  have hcmd : cmdtunergainWith stofExact r r.setTunerGain opt = .ok (r.setTunerGain (10 * ⌊x⌋)) := by
    simp only [cmdtunergainWith, stofExact, cstring_of_notMem hnul, hs, Bool.false_eq_true, if_false,
      hint, hmod]
  rw [Receiver.SetsTunerGain, dispatchTunergain_append, hcmd, Option.some_inj, Except.ok.injEq,
    setTunerGain_inj]

/-! ## The clients -/

theorem tunergain_append {opt : List Char} :
    chars "tunergain " ++ opt = chars "tunergain" ++ ' ' :: opt := by
  have hspace : chars "tunergain " = chars "tunergain" ++ [' '] := by decide +kernel
  rw [hspace, List.append_assoc, List.singleton_append]

theorem length_toDigits_mod_ten (t : ℕ) : (Nat.toDigits 10 (t % 10)).length = 1 := by
  rw [Nat.toDigits_of_lt_base (Nat.mod_lt t (by norm_num)), List.length_singleton]

/-- Tenths of a decibel are printed as they are. -/
theorem setGain_tenths {t : ℕ} (ht : t < 2 ^ 31) :
    AegirSDRImpl.setGain (.finite (t / 10)) = chars "tunergain" ++
      ' ' :: (Nat.toDigits 10 (t / 10) ++ '.' :: Nat.toDigits 10 (t % 10)) := by
  have hx : (0 : ℚ) ≤ t / 10 := by positivity
  have htenths : (roundEven (10 * |(t / 10 : ℚ)|)).toNat = t := by
    rw [abs_of_nonneg hx, mul_div_cancel₀ _ (by norm_num), ← Int.cast_natCast, roundEven_intCast,
      Int.toNat_natCast]
  have hlen : (Nat.toDigits 10 (t / 10)).length ≤ 9 := by
    rw [Nat.length_toDigits_le_iff (by norm_num) (by norm_num)]
    omega
  have hword : (chars "tunergain").length = 9 := by decide +kernel
  rw [AegirSDRImpl.setGain, ControlClient.send_eq, FloatValue.fixed1]
  simp only [htenths, if_neg hx.not_gt, List.nil_append, tunergain_append]
  rw [snprintf, List.take_of_length_le]
  simp only [List.length_append, List.length_cons, hword, length_toDigits_mod_ten]
  omega

theorem setsTunerGain_setGain_iff {t : ℕ} (ht : t < 2 ^ 31) {n : ℤ} :
    r.SetsTunerGain (AegirSDRImpl.setGain (.finite (t / 10))) n ↔ (10 * (t / 10) : ℕ) = n := by
  have hdigit : ∀ m, ∀ c ∈ Nat.toDigits 10 m, c.isDigit := fun m c => isDigit_of_mem_toDigits
  have hnul : '\x00' ∉ Nat.toDigits 10 (t / 10) ++ '.' :: Nat.toDigits 10 (t % 10) := by
    intro h
    rcases List.mem_append.mp h with h | h
    · cases hdigit _ _ h
    · rcases List.mem_cons.mp h with h | h
      · cases h
      · cases hdigit _ _ h
  have hsubject := subject_of_point (hdigit (t / 10)) (hdigit (t % 10)) Nat.toDigits_ne_nil
  rw [ofDigits_toDigits_append (Nat.mod_lt t (by norm_num)), length_toDigits_mod_ten, pow_one,
    Nat.div_add_mod] at hsubject
  have hfloor : ⌊(t / 10 : ℚ)⌋ = (t / 10 : ℕ) := by
    have := Rat.floor_intCast_div_natCast t 10
    rwa [Int.cast_natCast, Nat.cast_ofNat, ← Int.natCast_div] at this
  rw [setGain_tenths ht, setsTunerGain_iff hnul hsubject (by positivity) (by omega), hfloor]
  push_cast
  rfl

section
variable {K : Type*} [Field K] [LinearOrder K] [FloorRing K] {d : AegirDevice K} {g : K}

/-- `AegirDevice` sends the integer part. -/
theorem setGain_eq (hg : 0 ≤ g) (hlt : ⌊g⌋ < 2 ^ 31) :
    d.setGain g = some (⟨g⟩, chars "tunergain" ++ ' ' :: Nat.toDigits 10 ⌊g⌋.natAbs) := by
  have hfloor : 0 ≤ ⌊g⌋ := Int.floor_nonneg.mpr hg
  have hint : castInt g = some ⌊g⌋ := by
    rw [castInt, if_neg hg.not_gt, if_pos (by omega)]
  have hprint : intToString ⌊g⌋ = Nat.toDigits 10 ⌊g⌋.natAbs := by
    rw [intToString, if_neg (by omega), List.nil_append]
  rw [AegirDevice.setGain, hint, Option.map_some, ControlClient.send_eq, hprint, tunergain_append]

theorem setsTunerGain_toDigits_iff {m : ℕ} (hlt : 10 * m < 2 ^ 31) {n : ℤ} :
    r.SetsTunerGain (chars "tunergain" ++ ' ' :: Nat.toDigits 10 m) n ↔ (10 * m : ℕ) = n := by
  have hdigit : ∀ c ∈ Nat.toDigits 10 m, c.isDigit := fun c => isDigit_of_mem_toDigits
  have hnul : '\x00' ∉ Nat.toDigits 10 m := fun h => by cases hdigit _ h
  have hsubject := subject_of_all hdigit Nat.toDigits_ne_nil
  rw [ofDigits_toDigits] at hsubject
  rw [setsTunerGain_iff hnul hsubject (by positivity) (by rw [Int.floor_natCast]; omega),
    Int.floor_natCast]
  push_cast
  rfl

/-- After `setGain`, and once the console has executed the command, the gain of every device is within
half a tenth of a decibel of what `getGain` reports. -/
def AegirDevice.Keeps (d : AegirDevice K) (r : Receiver) (g : K) : Prop :=
  ∃ d' inputln n, d.setGain g = some (d', inputln) ∧ r.SetsTunerGain inputln n ∧
    |n / 10.0 - d'.getGain| ≤ 0.05

variable [IsStrictOrderedRing K]

theorem keeps_iff (hg : 0 ≤ g) (hlt : 10 * g < 2 ^ 31) : d.Keeps r g ↔ Int.fract g ≤ 0.05 := by
  have hfloor : 0 ≤ ⌊g⌋ := Int.floor_nonneg.mpr hg
  have hten : 10 * ⌊g⌋ < 2 ^ 31 := by
    have hle : (10 * ⌊g⌋ : K) < 2 ^ 31 := by linarith [Int.floor_le g]
    exact_mod_cast hle
  have hsent := setGain_eq (d := d) hg (by omega)
  have hset : ∀ n, r.SetsTunerGain _ n ↔ ((10 * ⌊g⌋.natAbs : ℕ) : ℤ) = n := fun n =>
    setsTunerGain_toDigits_iff (by omega)
  have happlied : (((10 * ⌊g⌋.natAbs : ℕ) : ℤ) : K) / 10.0 - g = -Int.fract g := by
    have hcast : ((10 * ⌊g⌋.natAbs : ℕ) : ℤ) = 10 * ⌊g⌋ := by omega
    rw [hcast, Int.cast_mul, ← Int.self_sub_floor, neg_sub]
    norm_num
  have habs : |-Int.fract g| = Int.fract g := by rw [abs_neg, abs_of_nonneg (Int.fract_nonneg g)]
  rw [← habs, ← happlied]
  constructor
  · rintro ⟨d', inputln, n, hd, hn, hle⟩
    rw [hsent] at hd
    cases hd
    rw [← hset n |>.mp hn] at hle
    exact hle
  · intro hle
    exact ⟨_, _, _, hsent, (hset _).mpr rfl, hle⟩

/-- What both clients keep: the first one the tenths of whole decibels, the second one the gains that
are at most half a tenth above an integer. -/
theorem keepsTenths_iff (r : Receiver) :
    (∀ t : ℕ, t < 2 ^ 31 →
      (r.SetsTunerGain (AegirSDRImpl.setGain (.finite (t / 10))) t ↔ 10 ∣ t)) ∧
      ∀ (d : AegirDevice K) (g : K), 0 ≤ g → 10 * g < 2 ^ 31 →
        (d.Keeps r g ↔ Int.fract g ≤ 0.05) := by
  refine ⟨fun t ht => ?_, fun d g => keeps_iff⟩
  rw [setsTunerGain_setGain_iff ht, Int.natCast_inj]
  omega

end

/-- A reference and a signal device. -/
def onePair : Receiver where
  refdev := ⟨0, 0, 0, false, true⟩
  devices := [⟨0, 0, 0, false, true⟩]
  refnoise := false
  biasTee := []
  logReadable := true

theorem keepsTenths_iff_onePair :
    onePair.SetsTunerGain (AegirSDRImpl.setGain (.finite ((490 : ℕ) / 10))) (490 : ℕ) ∧
      AegirDevice.Keeps (⟨0⟩ : AegirDevice ℚ) onePair 49 :=
  ⟨((keepsTenths_iff (K := ℚ) onePair).1 490 (by norm_num)).mpr (by norm_num),
    ((keepsTenths_iff onePair).2 ⟨0⟩ 49 (by norm_num) (by norm_num)).mpr (by norm_num)⟩

/-- Of 49.6 dB, 49 are set by either client. -/
theorem not_keepsTenths :
    (¬ ∀ (r : Receiver) (t : ℕ), t < 2 ^ 31 →
      r.SetsTunerGain (AegirSDRImpl.setGain (.finite (t / 10))) t) ∧
      ¬ ∀ (r : Receiver) (d : AegirDevice ℝ) (g : ℝ), 0 ≤ g → 10 * g < 2 ^ 31 → d.Keeps r g := by
  constructor
  · intro h
    have hset := (setsTunerGain_setGain_iff (by norm_num)).mp (h onePair 496 (by norm_num))
    norm_num at hset
  · intro h
    have hkeeps := (keeps_iff (by norm_num) (by norm_num)).mp
      (h onePair ⟨0⟩ 49.6 (by norm_num) (by norm_num))
    have hfloor : ⌊(49.6 : ℝ)⌋ = 49 := by norm_num [Int.floor_eq_iff]
    rw [Int.fract, hfloor] at hkeeps
    norm_num at hkeeps

end Aegir
