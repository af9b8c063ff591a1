import Aegir.Std.Mem

/-!
# A device

The members of a `crtlsdr` object that the receiver threads work on. `Stream` has the members of
`crtlsdr` and `csdrdevice` that carry blocks from the driver's callback to the coherent thread,
`Csdrdevice` the ones of its base class that hold samples, phase and synchronization. Samples are
elements of a field with conjugation, computed exactly. The timestamps of `cbuffer` are left out.
-/

namespace Aegir

/-! ## `cbuffer` -/

/-- `cdsp::convtosigned` for `n` bytes, eight at a time. -/
def convtosigned (o : ByteOrder) (inp out : Mem) (n : Nat) : Mem :=
  (List.range (n >>> 3)).foldl (fun out i =>
    out.store64 o (8 * i) (inp.load64 o (8 * i) ^^^ 0x8080808080808080)) out

/-- The circular buffer of `N` blocks of `L` bytes. -/
structure Cbuffer where
  ptr : Nat → Mem
  readcnt : Nat → UInt32
  L : UInt32
  N : UInt32
  wp : UInt32
  rp : UInt32

namespace Cbuffer

/-- The constructor. -/
def init (n l : UInt32) : Cbuffer := ⟨fun _ _ => 0, fun _ => 0, l, n, 0, 0⟩

variable (b : Cbuffer)

/-- The slot that `wp` designates. -/
def wslot : Nat := (b.wp &&& (b.N - 1)).toNat

/-- The slot that `rp` designates. -/
def rslot : Nat := (b.rp &&& (b.N - 1)).toNat

/-- `cbuffer::setbufferptr`. -/
def setbufferptr (o : ByteOrder) (buffer : Mem) (rcnt : UInt32) : Cbuffer :=
  { b with
    readcnt := Function.update b.readcnt b.wslot rcnt
    ptr := Function.update b.ptr b.wslot
      (convtosigned o buffer (b.ptr b.wslot) b.L.toInt32.toNatClampNeg)
    wp := b.wp + 1 }

/-- `cbuffer::getbufferptr`. -/
def getbufferptr : Mem := b.ptr b.rslot

/-- `cbuffer::get_rcnt`. -/
def getRcnt : UInt32 := b.readcnt b.rslot

/-- `cbuffer::consume`. -/
def consume : Cbuffer := { b with rp := b.rp + 1 }

end Cbuffer

/-! ## `crtlsdr` -/

/-- The members that carry blocks. `newdata` counts data tokens in an `int`. -/
structure Stream where
  s8bit : Cbuffer
  readcnt : UInt32
  newdata : Int32
  streaming : Bool
  asyncbufn : UInt32

namespace Stream

/-- The constructor of `crtlsdr`. -/
def init (asyncbufn blocksize : UInt32) : Stream :=
  ⟨.init asyncbufn blocksize, 0, 0, false, asyncbufn⟩

variable (d : Stream)

/-- `crtlsdr::swapbuffer`, which the driver calls with each block. -/
def swapbuffer (o : ByteOrder) (b : Mem) : Stream :=
  { d with
    s8bit := d.s8bit.setbufferptr o b d.readcnt
    readcnt := d.readcnt + 1
    newdata := d.newdata + 1 }

/-- `crtlsdr::read`: waits for a data token and takes it, if the device streams. -/
def read : Option Stream :=
  if d.streaming then
    if 0 < d.newdata then some { d with newdata := d.newdata - 1 } else none
  else some d

/-- `crtlsdr::is_ready`. -/
def isReady : Bool := d.asyncbufn ≤ d.readcnt && d.streaming

/-- `crtlsdr::get_readcntbuf`. -/
def getReadcntbuf : UInt32 := d.s8bit.getRcnt

/-- `crtlsdr::consume`. -/
def consume : Stream := { d with s8bit := d.s8bit.consume }

end Stream

/-! ## `csdrdevice` -/

/-- What the receiver needs of `std::complex<float>` beyond the field operations. -/
structure ComplexFloat (C : Type*) where
  I : C
  abs : C → C

/-- `lagpoint`. -/
structure Lagpoint (R : Type*) where
  lag : R
  mag : R

/-- The members of the base class that hold samples, phase and synchronization. -/
structure Csdrdevice (C R : Type*) where
  sfloat : Nat → C
  phasecorr : C
  phasecorrprev : C
  synced : Bool
  lagrequested : Bool
  lagready : Bool
  lagp : Lagpoint R

/-- The calls that the threads make on a device. -/
inductive DeviceCall (C R : Type*)
  | convtofloat (block : Mem)
  | estPhasecorrect (ref : Nat → C)
  | phasecorrect
  | setLag (p : Lagpoint R)
  | setSynchronized (state : Bool)
  | storeLagrequested
  | clearLagready

namespace Csdrdevice

variable {C R : Type*}

/-- `csdrdevice::set_lag`. -/
def setLag (d : Csdrdevice C R) (p : Lagpoint R) : Csdrdevice C R :=
  { d with lagp := p, lagready := true, lagrequested := false }

variable [Field C]

/-- The constructor of `csdrdevice`. -/
def init [Zero R] : Csdrdevice C R := ⟨fun _ => 0, 1, 1, false, true, false, ⟨0, 0⟩⟩

/-- The sample `i` of a block: `volk_8i_s32f_convert_32f` at the scale 127. -/
def sample (cf : ComplexFloat C) (block : Mem) (i : Nat) : C :=
  (block (2 * i)).toInt8.toInt / 127.0 + cf.I * ((block (2 * i + 1)).toInt8.toInt / 127.0)

/-- `cdsp::convtofloat` of the `n` samples of a block, from the element `start` of `out` on. -/
def convtofloatAt (cf : ComplexFloat C) (out : Nat → C) (start n : Nat) (block : Mem) : Nat → C :=
  overwrite out start n (sample cf block)

variable (d : Csdrdevice C R) (cf : ComplexFloat C) (blocksize : Nat)

/-- `crtlsdr::convtofloat`: the samples go into the first half. -/
def convtofloat (block : Mem) : Csdrdevice C R :=
  { d with sfloat := convtofloatAt cf d.sfloat 0 (blocksize >>> 1) block }

/-- `crefsdr::convtofloat`: the samples go into the second half. -/
def refConvtofloat (block : Mem) : Csdrdevice C R :=
  { d with sfloat := convtofloatAt cf d.sfloat (blocksize >>> 1) (blocksize >>> 1) block }

/-- `cdsp::conj_dotproduct`. -/
def conjDotproduct [Star C] (a b : Nat → C) (n : Nat) : C :=
  ∑ i ∈ Finset.range n, a i * star (b i)

/-- `csdrdevice::est_phasecorrect`. -/
def estPhasecorrect [Star C] (ref : Nat → C) : Csdrdevice C R :=
  let alpha : C := 0.5
  let correlation := conjDotproduct d.sfloat ref (blocksize >>> 1)
  let phasecorr := star correlation * (1 / cf.abs correlation)
  let phasecorr := alpha * phasecorr + (1 - alpha) * d.phasecorrprev
  { d with phasecorr, phasecorrprev := phasecorr }

/-- `csdrdevice::phasecorrect`. -/
def phasecorrect : Csdrdevice C R :=
  { d with sfloat := overwrite d.sfloat 0 (blocksize >>> 1) fun i => d.sfloat i * d.phasecorr }

/-- A call of one of the members, by any thread. For a `crefsdr` object, `convtofloat` is its own. -/
def call [Star C] (refsdr : Bool) : DeviceCall C R → Csdrdevice C R
  | .convtofloat block =>
    if refsdr then d.refConvtofloat cf blocksize block else d.convtofloat cf blocksize block
  | .estPhasecorrect ref => d.estPhasecorrect cf blocksize ref
  | .phasecorrect => d.phasecorrect blocksize
  | .setLag p => d.setLag p
  | .setSynchronized state => { d with synced := state }
  | .storeLagrequested => { d with lagrequested := true }
  | .clearLagready => { d with lagready := false }

end Csdrdevice
end Aegir
