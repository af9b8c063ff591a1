import Aegir.Model.Transport

/-!
# The clients

The three decoders of the int8 wire format: `AegirSDR_impl::work` of the GNU Radio block,
`AegirDevice::readStream` of the SoapySDR driver and the operation `'r'` of the MATLAB client. Each
computes its offsets from the complex samples per channel, where the server counts bytes. Samples
are values of a field `K`; an output is a function from the index to what the call stores there,
`none` where it stores nothing.

Offsets are natural numbers. `AegirSDR_impl::work` computes its offsets as products of `int`s, which the
buffer, whose size is a `size_t`, does not bound: where one of them overflows the call has no result. The
offsets of `readStream` are `size_t`s. `mexFunction` keeps the offset of the first sample in an `int`; where
that cannot hold it, already the readcounts lie behind its buffer of 2^20 bytes.
-/

namespace Aegir

variable {K : Type*} [Field K]

/-- A message in the memory of a client: `size` bytes, followed by whatever lies behind them. -/
structure Message where
  size : Nat
  data : Mem

/-- The message carries the bytes `l`. -/
structure Message.Carries (msg : Message) (l : List UInt8) : Prop where
  size : msg.size = l.length
  data : ∀ i, i < l.length → l[i]? = some (msg.data i)

/-- `zmq_recv` into the buffer `buf` of `cap` bytes: what does not fit is cut off. -/
def zmqRecv (buf : Mem) (cap : Nat) (msg : Message) : Mem := buf.blit 0 (min msg.size cap) msg.data

/-- The 8-bit value at an address, scaled by `1.0f / 128.0f`. -/
def scaled (m : Mem) (a : Nat) : K := (m a).toInt8.toInt * (1 / 128.0)

/-! ## `AegirSDR_impl` -/

/-- The block, as constructed with `nchannels` and `blocksize`, the complex samples per channel. -/
structure AegirSDRImpl where
  nchannels : Int32
  blocksize : Int32

namespace AegirSDRImpl

variable (d : AegirSDRImpl)

/-- The number of iterations of `for (ch = 0; ch < d_nchannels; ch++)`. -/
def N : Nat := d.nchannels.toNatClampNeg

/-- The number of iterations of `for (i = 0; i < d_blocksize; i++)`. -/
def L : Nat := d.blocksize.toNatClampNeg

/-- No product of the two loops leaves the range of `int`: `ch * d_blocksize * 2`, and `2*i+1`. -/
def OffsetsFit : Prop := ∀ ch < d.N, ch * d.L * 2 < 2 ^ 31 ∧ ∀ i < d.L, 2 * i + 1 < 2 ^ 31

variable {d} in
theorem offsetsFit_iff :
    d.OffsetsFit ↔ d.N = 0 ∨ ((d.N - 1) * d.L * 2 < 2 ^ 31 ∧ d.L ≤ 2 ^ 30) := by
  constructor
  · intro h
    rcases Nat.eq_zero_or_pos d.N with hN | hN
    · exact .inl hN
    obtain ⟨hlast, hsample⟩ := h (d.N - 1) (by omega)
    refine .inr ⟨hlast, ?_⟩
    by_contra hL
    have := hsample (d.L - 1) (by omega)
    omega
  · intro h ch hch
    obtain ⟨hlast, hL⟩ := h.resolve_left (by omega)
    have hle : ch * d.L ≤ (d.N - 1) * d.L := Nat.mul_le_mul_right _ (by omega)
    exact ⟨by omega, fun i hi => by omega⟩

instance : Decidable d.OffsetsFit := decidable_of_iff _ offsetsFit_iff.symm

/-- `d_pkt_size`. -/
def pktSize : Nat := sizeofHdr0 + d.N * sizeofUint32 + d.N * d.L * 2

/-- What a call of `work` leaves: its return value, the output items and `d_buf`. -/
structure WorkResult (K : Type*) where
  produced : Nat
  out : Nat → Nat → Option (K × K)
  buf : Mem

/-- `AegirSDR_impl::work`; no message stands for a `zmq_recv` that fails. There is no result when the
behaviour is undefined, because an offset overflows. -/
def work (o : ByteOrder) (buf : Mem) : Option Message → Option (WorkResult K)
  | none => some ⟨0, fun _ _ => none, buf⟩
  | some msg =>
    let buf := zmqRecv buf d.pktSize msg
    if msg.size = 0 then some ⟨0, fun _ _ => none, buf⟩
    else
      let hdr := readHdr0 o buf
      if hdr.N.toInt32 ≠ d.nchannels ∨ hdr.L.toInt32 ≠ d.blocksize then
        some ⟨0, fun _ _ => none, buf⟩
      else if ¬ d.OffsetsFit then none
      else
        let data := sizeofHdr0 + d.N * sizeofUint32
        some
          { produced := d.L
            out := fun ch i =>
              let src := data + ch * d.L * 2
              if ch < d.N ∧ i < d.L then
                some (scaled buf (src + 2 * i), scaled buf (src + (2 * i + 1)))
              else none
            buf }

end AegirSDRImpl

/-! ## `AegirDevice` -/

/-- The formats that `setupStream` accepts. -/
inductive StreamFormat
  | cf32 | cs8
  deriving DecidableEq, Repr

/-- `StreamHandle`. -/
structure StreamHandle where
  format : StreamFormat
  channels : List Nat

/-- A sample in one of the formats. -/
inductive StreamSample (K : Type*)
  | cf32 (re im : K)
  | cs8 (re im : Int8)

/-- The result of `readStream`: an error code, or the number of samples, whether
`SOAPY_SDR_MORE_FRAGMENTS` was set in the flags, and the samples of each subscribed channel. -/
inductive ReadStreamResult (K : Type*)
  | timeout
  | overflow
  | ok (nSamples : Nat) (moreFragments : Bool) (out : Nat → Nat → Option (StreamSample K))

/-- `setupStream` for the channels of a daemon with `nchannels` channels. -/
def setupStream (nchannels : Nat) (format : StreamFormat) (channels : List Nat) :
    Except String StreamHandle :=
  if channels.isEmpty then .ok ⟨format, List.range nchannels⟩
  else match channels.find? (nchannels ≤ ·) with
    | some ch => .error s!"Invalid channel index: {ch}"
    | none => .ok ⟨format, channels⟩

/-- `AegirDevice::readStream`: `buffs i` tells whether the caller gives a buffer for the `i`-th
subscribed channel, no message stands for a timeout. -/
def readStream (o : ByteOrder) (h : StreamHandle) (buffs : Nat → Bool) (numElems : Nat) :
    Option Message → ReadStreamResult K
  | none => .timeout
  | some msg =>
    if msg.size < sizeofHdr0 then .overflow
    else
      let hdr := readHdr0 o msg.data
      let N := hdr.N.toNat
      let L := hdr.L.toNat
      if N = 0 ∨ L = 0 then .overflow
      else
        let nSamples := min L numElems
        let base := sizeofHdr0 + N * sizeofUint32
        let channelBytes := L * 2
        .ok nSamples (nSamples < L) fun i s =>
          match h.channels[i]? with
          | none => none
          | some ch =>
            if N ≤ ch ∨ buffs i = false then none
            else
              let src := base + ch * channelBytes
              if nSamples ≤ s then none
              else match h.format with
                | .cf32 => some (.cf32 (scaled msg.data (src + s * 2))
                    (scaled msg.data (src + (s * 2 + 1))))
                | .cs8 => some (.cs8 (msg.data (src + s * 2)).toInt8
                    (msg.data (src + (s * 2 + 1))).toInt8)

/-! ## `zmqsdr.c` -/

/-- `BUFFER_LENGTH`. -/
def bufferLength : Nat := 1 <<< 20

/-- The output arguments of the operation `'r'`: the matrix of `r` rows and `c` columns, given by
the floats that `outptr` points to, the sequence number and the readcounts. -/
structure MexFrame (K : Type*) where
  r : Nat
  c : Nat
  outptr : Nat → Option K
  gseq : UInt32
  seqptr : Nat → Option UInt32

/-- Row `i` of column `ch` of the matrix: MATLAB stores columns one after the other. -/
def MexFrame.entry (f : MexFrame K) (i ch : Nat) : Option (K × K) :=
  match f.outptr (2 * (ch * f.r + i)), f.outptr (2 * (ch * f.r + i) + 1) with
  | some re, some im => some (re, im)
  | _, _ => none

/-- The operation `'r'` of `mexFunction`: no frame when nothing was received. The second component
is the receive buffer afterwards. -/
def mexRead (o : ByteOrder) (buffer : Mem) : Option Message → Option (MexFrame K) × Mem
  | none => (none, buffer)
  | some msg =>
    let buffer := zmqRecv buffer bufferLength msg
    if msg.size = 0 then (none, buffer)
    else
      let gseq := buffer.load32 o 0
      let c := (buffer.load32 o 4).toNat
      let r := (buffer.load32 o 8).toNat
      let offset := 16 + sizeofUint32 * c
      (some
        { r, c, gseq
          outptr := fun n => if n < u32 (u32 (r * c) <<< 1) then some (scaled buffer (offset + n))
            else none
          seqptr := fun n => if n < c then some (buffer.load32 o (4 * (4 + n))) else none },
        buffer)

end Aegir
