import Aegir.Model.Console

/-!
# Commands for the gain

The gain in decibels that the clients print, `AegirSDR_impl` with one decimal and `AegirDevice` as an
integer, and the tenths of a decibel that the console makes of it. The console is given the function
that reads numbers: `stof`, or `stofExact`, which does not round to a `float`.
-/

namespace Aegir

/-! ## What is sent -/

/-- What `%.1f` prints. -/
def FloatValue.fixed1 : FloatValue → List Char
  | nan => chars "nan"
  | infinity neg => chars (if neg then "-inf" else "inf")
  | finite x =>
    let tenths := (roundEven (10 * |x|)).toNat
    (if x < 0 then ['-'] else []) ++ Nat.toDigits 10 (tenths / 10) ++
      '.' :: Nat.toDigits 10 (tenths % 10)

/-- The message of `AegirSDR_impl::set_gain`. -/
def AegirSDRImpl.setGain (gain : FloatValue) : List Char :=
  ControlClient.aegirSDRImpl.send (snprintf 64 (chars "tunergain " ++ gain.fixed1))

/-- `std::to_string` of an `int`. -/
def intToString (n : ℤ) : List Char :=
  (if n < 0 then ['-'] else []) ++ Nat.toDigits 10 n.natAbs

section
variable {K : Type*} [Field K] [LinearOrder K] [FloorRing K]

/-- The conversion of a number to `int`, as `FloatValue.toInt`. -/
def castInt (x : K) : Option ℤ :=
  let n := if x < 0 then ⌈x⌉ else ⌊x⌋
  if -2 ^ 31 ≤ n ∧ n < 2 ^ 31 then some n else none

theorem castInt_eq_toInt (x : ℚ) : castInt x = (FloatValue.finite x).toInt := rfl

/-- The field of an `AegirDevice` that keeps the gain. -/
structure AegirDevice (K : Type*) where
  gain_ : K

/-- `AegirDevice::setGain`: the device afterwards, and the message. -/
def AegirDevice.setGain (d : AegirDevice K) (gain : K) : Option (AegirDevice K × List Char) :=
  (castInt gain).map fun n =>
    ({ d with gain_ := gain }, ControlClient.aegirDevice.send (chars "tunergain " ++ intToString n))

/-- `AegirDevice::getGain`. -/
def AegirDevice.getGain (d : AegirDevice K) : K := d.gain_

end

/-! ## What is executed -/

/-- `std::stof`, were every number a `float`. -/
def stofExact (str : List Char) : Except StofError FloatValue :=
  match subject (cstring str) with
  | none => .error .invalid_argument
  | some .nan => .ok .nan
  | some (.infinity neg) => .ok (.infinity neg)
  | some (.number neg x) => .ok (.finite (if neg then -x else x))

variable (stof : List Char → Except StofError FloatValue) (r : Receiver)

/-- What `consolethreadf` does with a line that has the command. -/
def dispatchTunergain (inputln : List Char) : Option (Except Fault Receiver) :=
  if parsecmd inputln = .tunergain then some (cmdtunergainWith stof r r.setTunerGain (getoptionstr inputln))
  else none

theorem dispatchTunergain_stof {erange : ℚ → Bool} {inputln : List Char} {res}
    (h : dispatchTunergain (Aegir.stof erange) r inputln = some res) :
    dispatch erange r inputln = res := by
  unfold dispatchTunergain at h
  split at h
  next hcmd =>
    rw [dispatch, hcmd]
    exact Option.some.inj h
  next => cases h

end Aegir
