import Aegir.Model.Coherent
import Aegir.Model.Transport

/-!
# The start of the receiver

The two paths of `main` from the names that `readyaml` returns to the device vector of the coherent
loop: which names are opened, how many channels the transport gets, and which devices are left in the
vector. What the command line and the configuration leave in `ops` is arbitrary, and so are the
answers of the drivers, which may depend on the sample rate and the frequency that `open` sets. A
device in the vector is its name.
-/

namespace Aegir

/-- The fields of `cl_ops` that the start uses. -/
structure StartOps where
  refname : List Char
  fs : UInt32
  fc : UInt32
  blocksize : UInt32
  no_header : Bool
  rowmajor : Bool
  use32bitfloat : Bool
  HackRF : Bool

/-- What the drivers answer. The `k`-th call of `open` for a signal device is for the name that it is
given; `0` is success. `open` sets the sample rate and the frequency of the constructor, and returns
the code of the first call that fails. -/
structure Drivers where
  getIndexBySerial : List Char → Int32
  openRef (name : List Char) (fs fc : UInt32) : Int32
  openDevice (k : Nat) (name : List Char) (fs fc : UInt32) : Int32

/-- `sdrdefs`. -/
structure Sdrdefs where
  devindex : UInt32
  serial : List Char

/-- `v_devices` and the number of calls of `open` so far. -/
structure Opened where
  v_devices : List (List Char)
  calls : Nat

/-- What `main` hands to the coherent loop. -/
structure Started where
  transport : TransportConfig
  v_devices : List (List Char)

namespace StartOps

variable (ops : StartOps) (drv : Drivers) (signaldevices : List (List Char))

/-- `ctransport::init`. -/
def initTransport (nchannels : Nat) (blocksize : UInt32) : TransportConfig where
  noheader := ops.no_header
  rowmajor := ops.rowmajor
  f32bit := ops.use32bitfloat
  nchannels := .ofNat nchannels
  blocksize

/-- Open a device at the end of the vector; it is removed if that fails. -/
def tryOpen (o : Opened) (dev : List Char) : Opened :=
  let v_devices := o.v_devices ++ [dev]
  { v_devices := if drv.openDevice o.calls dev ops.fs ops.fc ≠ 0 then v_devices.dropLast else v_devices
    calls := o.calls + 1 }

/-- The HackRF path. -/
def startHackRF : Option Started :=
  let transport := ops.initTransport signaldevices.length 262144
  if drv.openRef ops.refname ops.fs ops.fc ≠ 0 then none
  else
    let o := signaldevices.foldl
      (fun o dev => if ops.refname ≠ dev then ops.tryOpen drv o dev else o) ⟨[], 0⟩
    some ⟨transport, o.v_devices⟩

/-- `vdefs`: the devices whose index is not that of the reference. -/
def vdefs (refindex : Int32) : List Sdrdefs :=
  signaldevices.foldl (fun vdefs dev =>
    let index := drv.getIndexBySerial dev
    if index ≠ refindex then vdefs ++ [⟨index.toUInt32, dev⟩] else vdefs) []

/-- The RTL-SDR path. -/
def startRTLSDR : Option Started :=
  let refindex := drv.getIndexBySerial ops.refname
  if refindex < 0 then none
  else
    let vdefs := vdefs drv signaldevices refindex
    let transport := ops.initTransport (vdefs.length + 1) ops.blocksize
    if drv.openRef ops.refname ops.fs ops.fc ≠ 0 then none
    else
      let o := vdefs.foldl (fun o n => ops.tryOpen drv o n.serial) ⟨[], 0⟩
      some ⟨transport, o.v_devices⟩

/-- `main`, up to the start of the coherent loop; `none` is `exit(1)`. -/
def start : Option Started :=
  if ops.HackRF then ops.startHackRF drv signaldevices else ops.startRTLSDR drv signaldevices

/-- The signal devices that `main` opens, in their order. -/
def configured : List (List Char) :=
  if ops.HackRF then signaldevices.filter (ops.refname ≠ ·)
  else signaldevices.filter (drv.getIndexBySerial · ≠ drv.getIndexBySerial ops.refname)

end StartOps

/-- The coherent loop over the device vector; `asyncbufn` and the size of the lag queue are the ones
that `main` initializes. -/
def Started.coherent {C R : Type*} (st : Started) (order : ByteOrder) (cf : ComplexFloat C)
    (kernels : LagKernels C R) (planned : LagBuffers C R) : CoherentConfig C R where
  ndev := st.v_devices.length
  nfft := 8
  blocksize := st.transport.blocksize
  asyncbufn := 8
  order
  cf
  kernels
  planned

end Aegir
