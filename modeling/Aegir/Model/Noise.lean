import Mathlib

/-!
# The control of the noise source

`crefnoise`, which switches the noise source through a serial device or through a GPIO of the
reference receiver. Neither the constructor for the reference receiver nor the one for a device that
cannot be opened initializes `enabled`: what the member contains then is an argument of the model. A
stream that is not open drops what is written to it.
-/

namespace Aegir

/-- What is sent to the noise source: a character, or the value of the GPIO. -/
inductive NoiseCommand
  | char (c : Char)
  | gpio (value : ℕ)
  deriving DecidableEq, Repr

/-- The command switches the noise on: the character is `x`, any other one switches it off. -/
def NoiseCommand.enables : NoiseCommand → Bool
  | char c => c = 'x'
  | gpio value => value ≠ 0

/-- A `crefnoise` object. -/
structure Crefnoise where
  /-- `ref_dev != NULL`. -/
  hasRefDev : Bool
  /-- `fp.good()`. -/
  good : Bool
  enabled : Bool
  /-- History: what was sent to the noise source. -/
  issued : List NoiseCommand
  deriving DecidableEq, Repr

namespace Crefnoise

variable (r : Crefnoise)

/-- A command leaves the program. -/
def issue (c : NoiseCommand) : Crefnoise := { r with issued := r.issued ++ [c] }

/-- `fp << c` and `fp.flush()`. -/
def put (c : Char) : Crefnoise := if r.good then r.issue (.char c) else r

/-- `crefsdr::set_reference_noise_state`. -/
def setReferenceNoiseState (state : Bool) : Crefnoise := r.issue (.gpio (if state then 1 else 0))

/-- `crefnoise::set_state`. -/
def setState (s : Bool) : Crefnoise :=
  let r := { r with enabled := s }
  if r.hasRefDev then r.setReferenceNoiseState s else r.put (if s then 'x' else 'o')

/-- `crefnoise::isenabled`. -/
def isenabled : Bool := r.enabled

/-- `crefnoise(std::string dev)`: `good` tells whether `dev` could be opened. -/
def ofDevice (good uninitialized : Bool) : Crefnoise :=
  let r : Crefnoise := ⟨false, good, uninitialized, []⟩
  if good then { r with enabled := true }.put 'x' else r

/-- `crefnoise(crefsdr *d)`. -/
def ofRefDev (uninitialized : Bool) : Crefnoise := ⟨true, false, uninitialized, []⟩

end Crefnoise

/-- The ways to construct a `crefnoise` object. -/
inductive NoiseControl
  | device (good : Bool)
  | refDev
  deriving DecidableEq, Repr

/-- The constructors. -/
def NoiseControl.construct (uninitialized : Bool) : NoiseControl → Crefnoise
  | device good => .ofDevice good uninitialized
  | refDev => .ofRefDev uninitialized

end Aegir
