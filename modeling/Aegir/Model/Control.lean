import Aegir.Model.Lag
import Aegir.Std.Strtof

/-!
# The control loop

What `ccontrol::threadf` computes from a lag and from the samplerate of its device: the rate at which
the device is run and for how long, or that the device is synchronized. The rate that the RTL2832
makes of a samplerate (`realfs`) is a `double`; everything else is a `float`, and the operations on
these are members of `FloatArith`. An operation has no result where the code divides by zero,
converts to an integer type that does not have the number, or gets a number too large for a `float`.
-/

namespace Aegir

/-- `TWO_POW`. -/
def twoPow (n : ℕ) : ℕ := 1 <<< n

/-- `rtl_xtal`. -/
def rtlXtal : UInt32 := 28800000

/-- The nearest `double` to a number. -/
def binary64 (x : ℚ) : ℚ := roundTo 53 (-1074) x

/-- The ratio of `realfs` as the registers of the RTL2832 have it: `real_fsratio`. -/
def realFsratio (fsratio : UInt32) : UInt32 :=
  let fsratio := fsratio &&& 0x0ffffffc
  fsratio ||| ((fsratio &&& 0x08000000) <<< 1)

/-- `realfs`. -/
def realfs (requestedfs : UInt32) : Option ℚ := do
  let ratio ← divide (rtlXtal.toNat * twoPow 22 : ℚ) requestedfs.toNat
  let fsratio ← (FloatValue.finite (binary64 ratio)).toUint32
  return binary64 (← divide (rtlXtal.toNat * twoPow 22 : ℚ) (realFsratio fsratio).toNat)

/-- The `float` operations: the rounding of a number, which numbers are not too large, and `tanh`. -/
structure FloatArith (K : Type) where
  round : K → K
  isFinite : K → Bool
  tanh : K → K

/-- The `float`s of the machine: 24 binary digits with a sign, and no number from `2 ^ 128` on. -/
def ieeeFloat {K : Type} [Field K] [LinearOrder K] [IsStrictOrderedRing K] [FloorRing K]
    (tanh : K → K) : FloatArith K where
  round x := if x < 0 then -roundTo 24 (-149) |x| else roundTo 24 (-149) |x|
  isFinite x := |x| < ((2 ^ 128 : ℕ) : K)
  tanh

section
variable {K : Type} [Field K] [LinearOrder K] (ar : FloatArith K)

/-- A number as a `float`. -/
def FloatArith.toFloat (x : K) : Option K :=
  if ar.isFinite (ar.round x) then some (ar.round x) else none

/-- `maxppm`. -/
def maxppm : K := (twoPow 13 : K) / (twoPow 24 : K)

omit [LinearOrder K] in
theorem maxppm_eq [CharZero K] : (maxppm : K) = 2 ^ (-11 : ℤ) := by
  norm_num [maxppm, twoPow, Nat.shiftLeft_eq]

/-- `scale`. -/
def scale : K := ((100 : ℕ) : K)

/-- `frac_t`. -/
def fracT : K := ar.round 0.90

/-- `sync_threshold`. -/
def syncThreshold : K := ar.round 0.01

/-- `descent`. -/
def descent (lag : K) : Option K := do
  ar.toFloat (maxppm * ar.tanh (← ar.toFloat (lag / scale)))

/-- The time to spend at the altered samplerate. -/
def correctionTime (lag p fs : K) : Option K := do
  let lagPerSecond ← ar.toFloat (p * fs)
  let t ← ar.toFloat (← divide lag lagPerSecond)
  ar.toFloat (fracT ar * |t|)

/-- What the controller does with a lag: it sets the correction `p` for the time `t`, or calls
`set_synchronized(true)`. -/
inductive Control (K : Type)
  | correct (p t : K)
  | synchronize
  deriving DecidableEq, Repr

/-- The body of the loop of `ccontrol::threadf` from the lag and the rate on. -/
def control (lag fs : K) : Option (Control K) :=
  if syncThreshold ar < |lag| then do
    let p ← descent ar lag
    return .correct p (← correctionTime ar lag p fs)
  else some .synchronize

/-- `realfs(ctx->dev->get_samplerate())` as a `float`: `get_samplerate` returns a `float`, and
`realfs` takes a `uint32_t`. -/
def controlRate (samplerate : UInt32) : Option K := do
  let requestedfs ← (FloatValue.finite (binary32 samplerate.toNat)).toUint32
  ar.toFloat (← realfs requestedfs)

/-- The body of the loop of `ccontrol::threadf` behind `requestfftblocking`. -/
def controlStep (samplerate : UInt32) (lag : K) : Option (Control K) := do
  control ar lag (← controlRate ar samplerate)

end

/-! ## How long the correction lasts -/

/-- A `timespec`. -/
structure Timespec where
  tv_sec : ℤ
  tv_nsec : ℤ
  deriving DecidableEq, Repr

section
variable {K : Type*} [Field K] [LinearOrder K] [FloorRing K]

/-- `fillts`; the times are not negative, and the conversions to `long int` cut off. The time of the
controller is a `float` in a `double`: its 24 binary digits and the 21 of `5 ^ 9` make at most 45 of the
53 that a `double` has, so that the product with `1e9 = 2 ^ 9 * 5 ^ 9` is exact, and `floor` and the
difference are as well. -/
def fillts (ts : K) : Timespec :=
  if 1 < ts then ⟨⌊ts⌋, ⌊(ts - ⌊ts⌋) * (10 ^ 9 : ℕ)⌋⟩ else ⟨0, ⌊ts * (10 ^ 9 : ℕ)⌋⟩

/-- The time that `nanosleep` waits. -/
def Timespec.seconds (t : Timespec) : K := t.tv_sec + t.tv_nsec / (10 ^ 9 : ℕ)

/-- The correction lasts for its time, whole nanoseconds of it. -/
theorem seconds_fillts [IsStrictOrderedRing K] {ts : K} :
    (fillts ts).seconds ≤ ts ∧ ts < (fillts ts).seconds + 1 / (10 ^ 9 : ℕ) := by
  have hpos : (0 : K) < (10 ^ 9 : ℕ) := Nat.cast_pos.mpr (by norm_num)
  have hfloor : ∀ x : K, (⌊x * (10 ^ 9 : ℕ)⌋ : K) / (10 ^ 9 : ℕ) ≤ x ∧
      x < ⌊x * (10 ^ 9 : ℕ)⌋ / (10 ^ 9 : ℕ) + 1 / (10 ^ 9 : ℕ) := fun x => by
    rw [← add_div, div_le_iff₀ hpos, lt_div_iff₀ hpos]
    exact ⟨Int.floor_le _, Int.lt_floor_add_one _⟩
  unfold fillts Timespec.seconds
  split
  next =>
    obtain ⟨hlo, hhi⟩ := hfloor (ts - ⌊ts⌋)
    constructor <;> linarith
  next =>
    obtain ⟨hlo, hhi⟩ := hfloor ts
    rw [Int.cast_zero, zero_add]
    exact ⟨hlo, hhi⟩

end

end Aegir
