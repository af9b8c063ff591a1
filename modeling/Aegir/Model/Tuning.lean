import Aegir.Model.Console

/-!
# The tuners and their drivers

The setters of the frequency and the sample rate of `crtlsdr` and `chackrf`, with the call of the
driver that each of them makes and the code that the driver returns (`0` is success), and the two
console commands that call them. The setters store the field first, and the commands do not look at
the codes. For a driver, only the values that it last accepted are kept.
-/

namespace Aegir

/-- The values that the driver of a device last accepted. -/
structure DriverState where
  fcenter : UInt32
  samplerate : UInt32
  deriving DecidableEq, Repr

/-- A device with its driver. -/
structure TunedDevice extends Tuner where
  driver : DriverState
  deriving DecidableEq, Repr

namespace TunedDevice

variable (d : TunedDevice)

/-- `set_fcenter`; `code` is what the driver returns. -/
def setFcenter (f : UInt32) (code : Int32) : TunedDevice :=
  { d with
    fcenter := f
    driver := if code = 0 then { d.driver with fcenter := f } else d.driver }

/-- `set_samplerate`. -/
def setSamplerate (fs : UInt32) (code : Int32) : TunedDevice :=
  { d with
    samplerate := fs
    driver := if code = 0 then { d.driver with samplerate := fs } else d.driver }

/-- `set_synchronized`. -/
def setSynchronized (state : Bool) : TunedDevice := { d with synced := state }

/-- The part of `open` that tunes the device: it fails when a setter does. -/
def openTuner (codeSamplerate codeFcenter : Int32) : Option TunedDevice :=
  let d := d.setSamplerate d.samplerate codeSamplerate
  if codeSamplerate ≠ 0 then none
  else
    let d := d.setFcenter d.fcenter codeFcenter
    if codeFcenter ≠ 0 then none else some d

end TunedDevice

/-- `refdev` and `devices`. -/
structure TunedReceiver where
  refdev : TunedDevice
  devices : List TunedDevice
  deriving DecidableEq, Repr

namespace TunedReceiver

variable (r : TunedReceiver)

/-- What the handlers of `Receiver` see. -/
def fields (refnoise : Bool) (biasTee : List Bool) (logReadable : Bool) : Receiver where
  refdev := r.refdev.toTuner
  devices := r.devices.map (·.toTuner)
  refnoise
  biasTee
  logReadable

/-- The calls of `cmdfs`. The driver of the reference returns `codes 0`, that of the device at the
position `i` of the vector `codes (i + 1)`. -/
def setSamplerate (fs : UInt32) (codes : Nat → Int32) : TunedReceiver where
  refdev := r.refdev.setSamplerate fs (codes 0)
  devices := r.devices.mapIdx fun i d =>
    (d.setSamplerate fs (codes (i + 1))).setSynchronized false

/-- The calls of `cmdretune`. -/
def setFcenter (fc : UInt32) (codes : Nat → Int32) : TunedReceiver where
  refdev := r.refdev.setFcenter fc (codes 0)
  devices := r.devices.mapIdx fun i d => d.setFcenter fc (codes (i + 1))

variable (erange : ℚ → Bool) (codes : Nat → Int32)

/-- `cconsole::cmdfs`. -/
def cmdfs (opt : List Char) : Except Fault TunedReceiver :=
  cmdfsWith (stof erange) r (r.setSamplerate · codes) opt

/-- `cconsole::cmdretune`. -/
def cmdretune (opt : List Char) : Except Fault TunedReceiver :=
  cmdretuneWith (stof erange) r (r.setFcenter · codes) opt

end TunedReceiver

/-- The console commands that tune. -/
inductive TuningCommand
  | samplerate (opt : List Char)
  | tuningfrequency (opt : List Char)

/-- A command, executed to its end. -/
def TunedReceiver.step (erange : ℚ → Bool) (r : TunedReceiver) :
    TuningCommand × (Nat → Int32) → Option TunedReceiver
  | (.samplerate opt, codes) => (r.cmdfs erange codes opt).toOption
  | (.tuningfrequency opt, codes) => (r.cmdretune erange codes opt).toOption

end Aegir
