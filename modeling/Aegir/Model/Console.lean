import Aegir.Std.Strtof

/-!
# The console: command lines

How `consolethreadf` takes a command line apart and what the handlers set, which lines the clients
send, and how `remotec` gets a line from a message. A line is a list of characters;
`std::string::find` gives `npos` for a line without a space, so that `substr(0, npos)` is the line and
`substr(npos + 1)`, too, because the sum wraps around to 0. What the handlers print is left out.
-/

namespace Aegir

/-- `command_code`. -/
inductive CommandCode
  | help | samplerate | status | lists | nop | logs | quit | tuningfrequency | request | phase
  | tunergain
  deriving DecidableEq, Repr

/-- `command_codes`. -/
def commandCodes : List (List Char × CommandCode) :=
  [(chars "help", .help), (chars "samplerate", .samplerate), (chars "status", .status),
    (chars "lists", .lists), (chars "nop", .nop), (chars "log", .logs), (chars "quit", .quit),
    (chars "tuningfrequency", .tuningfrequency), (chars "request", .request),
    (chars "phase", .phase), (chars "tunergain", .tunergain)]

/-- `cconsole::parsecmd`. -/
def parsecmd (inputln : List Char) : CommandCode :=
  match inputln.findIdx? (· = ' ') with
  | some wspace => (commandCodes.lookup (inputln.take wspace)).getD .nop
  | none => (commandCodes.lookup inputln).getD .nop

/-- `cconsole::getoptionstr`. -/
def getoptionstr (inputln : List Char) : List Char :=
  match inputln.findIdx? (· = ' ') with
  | some wspace => inputln.drop (wspace + 1)
  | none => inputln

/-! ## Handlers -/

/-- The settings of a `csdrdevice`, and what `requestfftblocking` finds: `answers` tells whether the
coherent thread calls `set_lag` after the console has cleared `lagready`. -/
structure Tuner where
  fcenter : UInt32
  samplerate : UInt32
  rfgain : ℤ
  synced : Bool
  answers : Bool
  deriving DecidableEq, Repr

/-- What the handlers set: `refdev`, `devices`, `refnoise`, and the bias tees of the five channels of
`refdev`. `logReadable` tells whether `read` of `stderr_pipe[0]` returns: with `-q` this is a pipe that
does not block, without `-q` it is the standard input. -/
structure Receiver where
  refdev : Tuner
  devices : List Tuner
  refnoise : Bool
  biasTee : List Bool
  logReadable : Bool
  deriving DecidableEq, Repr

/-- What keeps a handler from its end: an exception that it does not catch, a conversion of a `float`
whose integer part the integer type does not have, or a wait that nothing ends. -/
inductive Fault
  | uncaught (e : StofError)
  | conversion
  | waits
  deriving DecidableEq, Repr

/-! The three handlers that read a number, for the function `stof` that reads it and for what the calls
of the setters make of the state `r`. -/

section
variable {ρ : Type*} (stof : List Char → Except StofError FloatValue) (r : ρ)

/-- `cconsole::cmdfs`: whatever `stof` throws is a `std::exception`. -/
def cmdfsWith (setSamplerate : UInt32 → ρ) (opt : List Char) : Except Fault ρ :=
  if opt = chars "samplerate" then .ok r
  else match stof opt with
    | .error _ => .ok r
    | .ok fs_ => match fs_.toUint32 with
      | none => .error .conversion
      | some fs => .ok (setSamplerate fs)

/-- `cconsole::cmdretune`, which catches `std::invalid_argument` only. -/
def cmdretuneWith (setFcenter : UInt32 → ρ) (opt : List Char) : Except Fault ρ :=
  if opt = chars "fcenter" then .ok r
  else match stof opt with
    | .error .invalid_argument => .ok r
    | .error .out_of_range => .error (.uncaught .out_of_range)
    | .ok fcenter => match fcenter.toUint32 with
      | none => .error .conversion
      | some fc => .ok (if 1000000 ≤ fc ∧ fc < 1800000000 then setFcenter fc else r)

/-- `cconsole::cmdtunergain`, which catches `std::invalid_argument` only; the product of two `int`s
wraps around. -/
def cmdtunergainWith (setTunerGain : ℤ → ρ) (opt : List Char) : Except Fault ρ :=
  match stof opt with
  | .error .invalid_argument => .ok r
  | .error .out_of_range => .error (.uncaught .out_of_range)
  | .ok gain => match gain.toInt with
    | none => .error .conversion
    | some n => .ok (setTunerGain ((n * 10).bmod (2 ^ 32)))

end

variable (erange : ℚ → Bool) (r : Receiver)

def Receiver.setSamplerate (fs : UInt32) : Receiver :=
  { r with
    refdev := { r.refdev with samplerate := fs }
    devices := r.devices.map fun d => { d with samplerate := fs, synced := false } }

/-- `cconsole::cmdfs`. -/
def cmdfs (opt : List Char) : Except Fault Receiver := cmdfsWith (stof erange) r r.setSamplerate opt

def Receiver.setFcenter (fc : UInt32) : Receiver :=
  { r with
    refdev := { r.refdev with fcenter := fc }
    devices := r.devices.map fun d => { d with fcenter := fc } }

/-- `cconsole::cmdretune`. -/
def cmdretune (opt : List Char) : Except Fault Receiver := cmdretuneWith (stof erange) r r.setFcenter opt

def Receiver.setTunerGain (gain : ℤ) : Receiver :=
  { r with
    devices := r.devices.map fun d => { d with rfgain := gain }
    refdev := { r.refdev with rfgain := gain } }

/-- `cconsole::cmdtunergain`. -/
def cmdtunergain (opt : List Char) : Except Fault Receiver :=
  cmdtunergainWith (stof erange) r r.setTunerGain opt

/-- The calls of `requestfftblocking`, which waits for its answer without a time-out and sets nothing
else. -/
def Receiver.requestLags : Except Fault Receiver :=
  if r.devices.all (·.answers) then .ok r else .error .waits

/-- `cconsole::cmdrequest`. -/
def cmdrequest (opt : List Char) : Except Fault Receiver :=
  if opt = chars "re" then .ok { r with refnoise := true }
  else if opt = chars "rd" then .ok { r with refnoise := false }
  else if opt = chars "lag" then r.requestLags
  else if opt = chars "sync" then
    .ok { r with devices := r.devices.map fun d => { d with synced := false } }
  else if opt = chars "biasteeon" then .ok { r with biasTee := .replicate 5 true }
  else if opt = chars "biasteeoff" then .ok { r with biasTee := .replicate 5 false }
  else .ok r

/-- The command `log`: `read` of `stderr_pipe[0]`. -/
def Receiver.readLog : Except Fault Receiver := if r.logReadable then .ok r else .error .waits

/-- The `switch` of `consolethreadf`. The commands for which it is `r` print something, or (`quit`)
ask the threads to exit. -/
def execute (cmd : CommandCode) (options : List Char) : Except Fault Receiver :=
  match cmd with
  | .samplerate => cmdfs erange r options
  | .tuningfrequency => cmdretune erange r options
  | .request => cmdrequest r options
  | .tunergain => cmdtunergain erange r options
  | .logs => r.readLog
  | .help | .status | .lists | .nop | .quit | .phase => .ok r

/-- What `consolethreadf` does with a line that it has popped. -/
def dispatch (inputln : List Char) : Except Fault Receiver :=
  execute erange r (parsecmd inputln) (getoptionstr inputln)

/-! ## Messages -/

/-- `zmq_send`: the message is the first `len` characters of the memory that it is handed. -/
def zmqSend (mem : List Char) (len : Nat) : List Char := mem.take len

/-- The programs that send commands to the control socket. -/
inductive ControlClient
  | aegirSDRImpl
  | aegirDevice
  /-- `zmqsdr.c`; `old` is what `commandbuf` contains behind the string that `sprintf` writes. -/
  | mexFunction (old : List Char)

/-- The message that a client sends for a command: `send_command`, `sendCommand` and the calls of
`zmq_send` in `mexFunction`. -/
def ControlClient.send (cmd : List Char) : ControlClient → List Char
  | aegirSDRImpl => zmqSend (cmd ++ ['\x00']) cmd.length
  | aegirDevice => zmqSend cmd cmd.length
  | mexFunction old => zmqSend (cmd ++ ['\x00'] ++ old) cmd.length

/-- `std::to_string`, and what `%u` prints. -/
def toString (n : UInt32) : List Char := Nat.toDigits 10 n.toNat

/-- `std::snprintf`: what fits before the NUL. -/
def snprintf (size : ℕ) (s : List Char) : List Char := s.take (size - 1)

/-- The clients with a setter for the frequency and one for the sample rate. -/
inductive TuningClient
  | aegirSDRImpl
  | aegirDevice

/-- The message of `AegirSDR_impl::set_frequency` and of `AegirDevice::setFrequency`, which turn a
`double` into a `uint32_t`. -/
def TuningClient.setFrequency (freq : FloatValue) : TuningClient → Option (List Char)
  | aegirSDRImpl => freq.toUint32.map fun f =>
    ControlClient.aegirSDRImpl.send (snprintf 64 (chars "tuningfrequency " ++ toString f))
  | aegirDevice => freq.toUint32.map fun fc_ =>
    ControlClient.aegirDevice.send (chars "tuningfrequency " ++ toString fc_)

/-- The message of `AegirSDR_impl::set_samplerate` and of `AegirDevice::setSampleRate`. -/
def TuningClient.setSampleRate (rate : FloatValue) : TuningClient → Option (List Char)
  | aegirSDRImpl => rate.toUint32.map fun fs =>
    ControlClient.aegirSDRImpl.send (snprintf 64 (chars "samplerate " ++ toString fs))
  | aegirDevice => rate.toUint32.map fun fs_ =>
    ControlClient.aegirDevice.send (chars "samplerate " ++ toString fs_)

/-- `std::string(msg)` for a pointer to the first character of `mem`, the rest of the memory that can
be read; without a NUL there is no such string. -/
def stringAt (mem : List Char) : Option (List Char) :=
  if '\x00' ∈ mem then some (cstring mem) else none

/-- What `remotec` pushes on the command queue for a frame of a message: the length of the frame is
computed but not used, and `adjacent` is what lies behind its data. The socket is a ROUTER, which puts
a frame with the routing id of the client before the one that the client has sent; `remotec` pushes it
as a string of its own, which is not the command that is meant here. -/
def remotecPush (message adjacent : List Char) : Option (List Char) := stringAt (message ++ adjacent)

end Aegir
