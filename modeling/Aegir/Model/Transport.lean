import Aegir.Std.Mem

/-!
# `ctransport`: the packets

The packet buffers of `ctransport.cc` as byte memory: the header that `send` fills, the bytes that
`write` stores for one channel in each of the two wire formats, the transposition it applies when
`rowmajor` is set, and the length of the published message. `init` allocates only the pair of
buffers that `f32bit` selects and every later access branches on the same constant, so one buffer
stands for `packetbuf0` and `packetbuf_f32_0`.

Sizes are natural numbers; `u32` and `u64` stand where the C++ type of an intermediate result is
`uint32_t` or `size_t` and the result may not fit.
-/

namespace Aegir

/-- The value of unsigned 32-bit arithmetic. -/
def u32 (n : Nat) : Nat := n % 2 ^ 32

/-- The value of `size_t` arithmetic. -/
def u64 (n : Nat) : Nat := n % 2 ^ 64

theorem u32_of_lt {n : Nat} (h : n < 2 ^ 32) : u32 n = n := Nat.mod_eq_of_lt h

theorem u64_of_lt {n : Nat} (h : n < 2 ^ 64) : u64 n = n := Nat.mod_eq_of_lt h

/-- `hdr0`, the fixed part of the packet header. -/
structure Hdr0 where
  globalseqn : UInt32
  N : UInt32
  L : UInt32
  unused : UInt32
  deriving DecidableEq, Repr

/-- `sizeof(hdr0)`. -/
def sizeofHdr0 : Nat := 16

/-- `sizeof(uint32_t)`. -/
def sizeofUint32 : Nat := 4

/-- `sizeof(std::complex<float>)`. -/
def sizeofComplex : Nat := 8

/-- What the transport needs of `float`: the bytes of its object representation, and
`volk_32f_s32f_convert_8i` at the scale 127, the kernel that `cdsp::convto8bit` calls. -/
structure FloatFormat (F : Type*) where
  bytes : F → Nat → UInt8
  convert8i : F → Int8

/-- The static members of `ctransport` that `init` fixes. -/
structure TransportConfig where
  noheader : Bool
  rowmajor : Bool
  f32bit : Bool
  nchannels : UInt32
  blocksize : UInt32
  deriving DecidableEq, Repr

namespace TransportConfig

variable {F : Type*} (cfg : TransportConfig) (o : ByteOrder)

/-- The number of channels. -/
def N : Nat := cfg.nchannels.toNat

/-- The block size: `int8_t` values, so twice the complex samples, of one channel. -/
def B : Nat := cfg.blocksize.toNat

theorem N_lt : cfg.N < 2 ^ 32 := cfg.nchannels.toNat_lt

theorem B_lt : cfg.B < 2 ^ 32 := cfg.blocksize.toNat_lt

/-- `ctransport::packetlength`. -/
def packetlength (N L : Nat) : Nat :=
  if cfg.f32bit then
    if cfg.noheader then u32 (N * (L >>> 1)) * sizeofComplex
    else (sizeofHdr0 + sizeofUint32 * N) + u32 (N * (L >>> 1)) * sizeofComplex
  else
    if cfg.noheader then u32 (2 * N * L)
    else (sizeofHdr0 + sizeofUint32 * N) + u32 (2 * N * L)

/-- `packetlen`, as `init` computes it. -/
def packetlen : Nat := cfg.packetlength cfg.N cfg.B

/-- The static header that `send` stores at the start of a buffer. -/
def fillHeader (m : Mem) (globalseqn : UInt32) : Mem :=
  (((m.store32 o 0 globalseqn).store32 o 4 cfg.nchannels).store32 o 8
    (cfg.blocksize >>> 1)).store32 o 12 0

/-- One element of `size` bytes copied inside a buffer: `p[dst] = p[src]`. -/
def copyElem (size : Nat) (m : Mem) (dst src : Nat) : Mem :=
  m.blit (size * dst) size fun i => m (size * src + i)

/-- `ctransport::convert_to_rowmajor`. -/
def convertToRowmajor (m : Mem) (loc : Nat) : Mem :=
  (List.range cfg.N).foldl (fun m r =>
    (List.range (cfg.B >>> 1)).foldl (fun m c =>
      if cfg.f32bit then
        copyElem 8 m (loc + u32 (r * (cfg.B >>> 1)) + c) (u32 (u32 (c * cfg.N) + r))
      else
        copyElem 2 m (loc + u32 (r * (cfg.B >>> 1))) (u32 (u32 (c * cfg.N) + r))) m) m

/-- `cdsp::convto8bit`: `n` floats of `inp`, from the address `loc` on. -/
def convto8bit (ff : FloatFormat F) (m : Mem) (loc : Nat) (inp : Nat → F) (n : Nat) : Mem :=
  m.blit loc n fun i => (ff.convert8i (inp i)).toUInt8

/-- The bytes before the first channel: `header_bytes`. -/
def headerBytes : Nat := if cfg.noheader then 0 else sizeofHdr0 + cfg.N * sizeofUint32

/-- The readcount word of channel `channeln`, which only packets with a header have. -/
def writeReadcnt (m : Mem) (channeln : Nat) (readcnt : UInt32) : Mem :=
  if cfg.noheader then m
  else m.store32 o (sizeofUint32 * (sizeofHdr0 / sizeofUint32 + channeln)) readcnt

/-- The address of the samples of a channel, complex float format: `byte_loc`. -/
def byteLoc (channeln : Nat) : Nat :=
  u64 (cfg.headerBytes + channeln * ((cfg.B >>> 1) * sizeofComplex))

/-- The address of the samples of a channel, int8 format: `loc`. -/
def loc8 (channeln : Nat) : Nat := u32 (cfg.headerBytes + u32 (channeln * cfg.B))

/-- `ctransport::write` into the buffer `m`; `inp` are the floats of the complex samples, real and
imaginary part in turn. -/
def write (ff : FloatFormat F) (m : Mem) (channeln : Nat) (readcnt : UInt32) (inp : Nat → F) :
    Mem :=
  let m := cfg.writeReadcnt o m channeln readcnt
  if cfg.f32bit then
    let m := m.blit (cfg.byteLoc channeln) ((cfg.B >>> 1) * sizeofComplex) fun i =>
      ff.bytes (inp (i / 4)) (i % 4)
    if cfg.rowmajor then
      cfg.convertToRowmajor m (u32 (cfg.byteLoc channeln / sizeofComplex))
    else m
  else convto8bit ff m (cfg.loc8 channeln) inp cfg.B

/-- The bytes that `send` publishes of a buffer. -/
def message (m : Mem) : List UInt8 := m.read 0 cfg.packetlen

end TransportConfig

/-- The `hdr0` at the start of a buffer, read as the clients read it. -/
def readHdr0 (o : ByteOrder) (m : Mem) : Hdr0 where
  globalseqn := m.load32 o 0
  N := m.load32 o 4
  L := m.load32 o 8
  unused := m.load32 o 12

end Aegir
