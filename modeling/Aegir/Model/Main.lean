import Aegir.Std.Getopt
import Aegir.Model.Config
import Aegir.Model.Startup

/-!
# `main`: the command line

`main` from its arguments to the start of the coherent loop. It parses the command line, reads the
configuration file, which may be named by an option, and parses the command line again because
`readyaml` overwrites what the options have set. The first parse has moved the arguments. What
`usage` and the others print is left out; `none` is `exit(1)`.
-/

namespace Aegir

/-- `cl_ops`, without `asyncbufn`, which nothing sets. -/
structure CommandOps extends ClOps where
  agc : Bool
  ndev : Int32
  gain : UInt32
  refgain : UInt32
  no_header : Bool
  config_fname : List Char
  use_cfg : Bool
  quiet : Bool
  rowmajor : Bool
  use32bitfloat : Bool
  krakensdr : Bool
  krakenbiastee : Bool
  HackRF : Bool
  daemon : Bool
  deriving DecidableEq, Repr

/-- What `main` finds: the devices, the files as the events that libyaml makes of them, and the answers
of the drivers. -/
structure Host where
  hackrfCount : UInt32
  rtlsdrCount : UInt32
  files : List Char → Option (List YamlEvent)
  drivers : Drivers

/-- What `main` has left in `ops`, and what it starts. -/
structure Launched where
  ops : CommandOps
  started : Started

namespace CommandOps

variable {D : Type*} (num : NumberReader D)

/-- `ops` at the begin of `main`. -/
def init : CommandOps where
  refname := chars "1000"
  agc := false
  fs := 2000000
  fc := 95000000
  blocksize := 16384
  ndev := 4
  gain := 100
  refgain := 100
  no_header := false
  config_fname := []
  use_cfg := false
  quiet := false
  rowmajor := false
  use32bitfloat := false
  krakensdr := false
  krakenbiastee := false
  HackRF := false
  daemon := false

/-- The options of `parsecommandline`. -/
def optstring : List Char := chars "s:b:f:h:n:g:r:I:C:w:mARqKBDH"

/-- One round of the loop of `parsecommandline`; `none` is a call of `usage`. -/
def option (ops : CommandOps) : Getopt → Option CommandOps
  | .option 's' optarg => some { ops with fs := num.toUint32 (num.atof optarg) }
  | .option 'b' optarg => some { ops with blocksize := (num.atoi optarg).toUInt32 }
  | .option 'f' optarg => some { ops with fc := num.toUint32 (num.atof optarg) }
  | .option 'h' _ => none
  | .option 'n' optarg =>
    some { ops with
      ndev :=
        if (num.atoi optarg).toUInt32 ≤ ops.ndev.toUInt32 then num.atoi optarg else ops.ndev }
  | .option 'g' optarg => some { ops with gain := (num.atoi optarg).toUInt32 * 10 }
  | .option 'r' optarg => some { ops with refgain := (num.atoi optarg).toUInt32 * 10 }
  | .option 'I' optarg => some { ops with refname := optarg }
  | .option 'C' optarg => some { ops with config_fname := optarg, use_cfg := true }
  | .option 'A' _ => some { ops with agc := true }
  | .option 'R' _ => some { ops with no_header := true }
  | .option 'q' _ => some { ops with quiet := true }
  | .option 'm' _ => some { ops with rowmajor := true }
  | .option 'w' optarg =>
    some { ops with
      use32bitfloat :=
        if num.atoi optarg = 8 then false
        else if num.atoi optarg = 32 then true
        else ops.use32bitfloat }
  | .option 'K' _ => some { ops with krakensdr := true }
  | .option 'H' _ => some { ops with HackRF := true }
  | .option 'B' _ => some { ops with krakenbiastee := true }
  | .option 'D' _ => some { ops with daemon := true }
  | _ => none

/-- `parsecommandline`, and the arguments as `getopt` leaves them. -/
def parsecommandline (ops : CommandOps) (args : List (List Char)) :
    Option (CommandOps × List (List Char)) :=
  ((Getopt.scan optstring none args).foldlM (option num) ops).map
    (·, Getopt.permute optstring none [] args)

/-- The name of the file that `main` reads. -/
def configFile (ops : CommandOps) : List Char :=
  if ops.use_cfg then ops.config_fname
  else if ops.HackRF then chars "confighackrf.yml"
  else chars "config.yml"

/-- The fields that the start uses. -/
def startOps (ops : CommandOps) : StartOps where
  refname := ops.refname
  fs := ops.fs
  fc := ops.fc
  blocksize := ops.blocksize
  no_header := ops.no_header
  rowmajor := ops.rowmajor
  use32bitfloat := ops.use32bitfloat
  HackRF := ops.HackRF

variable (host : Host)

/-- Between the first parse and the file: the number of devices, and the name that KrakenSDR implies. -/
def detect (ops : CommandOps) : CommandOps :=
  let ndev := if ops.HackRF then host.hackrfCount else host.rtlsdrCount
  { ops with
    ndev := ndev.toInt32
    refname := if ops.krakensdr then chars "1000" else ops.refname }

/-- The call of `readyaml`, and the signal devices. -/
def readConfig (ops : CommandOps) : CommandOps × List (List Char) :=
  let r := readyaml num ops.toClOps (host.files ops.configFile)
  ({ ops with toClOps := r.1 }, r.2)

/-- The HackRF path begins with a block size of its own. -/
def setBlocksize (ops : CommandOps) : CommandOps :=
  { ops with blocksize := if ops.HackRF then 262144 else ops.blocksize }

end CommandOps

open CommandOps in
/-- `main` for the arguments behind the name of the program. -/
def main {D : Type*} (num : NumberReader D) (host : Host) (args : List (List Char)) :
    Option Launched := do
  let (ops, args) ← parsecommandline num init args
  let (ops, signaldevices) := (ops.detect host).readConfig num host
  let (ops, _) ← parsecommandline num ops args
  let started ← ops.setBlocksize.startOps.start host.drivers signaldevices
  some ⟨ops.setBlocksize, started⟩

end Aegir
