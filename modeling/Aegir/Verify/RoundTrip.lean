import Aegir.Verify.Layout
import Aegir.Model.Clients

/-!
# Decoding undoes encoding

`Encodes` says what a packet in the int8 format with header contains: the header, the readcounts and
the samples of each channel. The operations of the server establish it in every order
(`encodes_of_store`), and each client computes from a message that contains it the samples divided by
128. Both directions go through `Encodes`, so that a change of one decoder leaves the rest alone.
-/

namespace Aegir

open TransportConfig

variable {K : Type*} [Field K]

/-! ## Quantization -/

section
variable [LinearOrder K] [IsStrictOrderedRing K]

/-- `volk_32f_s32f_convert_8i` at the scale 127: to a nearest integer, then into the range. -/
def FloatFormat.RoundsAndClamps (ff : FloatFormat K) : Prop :=
  ∀ x : K, ∃ n : ℤ, |127.0 * x - n| ≤ 0.5 ∧ (ff.convert8i x).toInt = max (-128) (min 127 n)

theorem FloatFormat.RoundsAndClamps.convert8i_div {ff : FloatFormat K} (h : ff.RoundsAndClamps)
    (k : Int8) : ff.convert8i (k.toInt / 127.0) = k := by
  obtain ⟨n, hn, hk⟩ := h (k.toInt / 127.0)
  rw [mul_div_cancel₀ (k.toInt : K) (by norm_num : (127.0 : K) ≠ 0)] at hn
  have habs : |k.toInt - n| < 1 := by
    have : |((k.toInt - n : ℤ) : K)| < 1 := by
      rw [Int.cast_sub]
      exact lt_of_le_of_lt hn (by norm_num)
    exact_mod_cast this
  have hkn : k.toInt = n := sub_eq_zero.mp (Int.abs_lt_one_iff.mp habs)
  have hlo := k.le_toInt
  have hhi := k.toInt_lt
  apply Int8.toInt_inj.mp
  rw [hk]
  omega

end

/-! ## What a packet contains -/

/-- The buffer is a packet: header, readcounts `r` and samples `s`. -/
structure Encodes (cfg : TransportConfig) (o : ByteOrder) (q : UInt32) (r : Nat → UInt32)
    (s : Nat → Nat → Int8) (m : Mem) : Prop where
  header : readHdr0 o m = cfg.hdr0 q
  readcnt : ∀ c < cfg.N, m.load32 o (16 + 4 * c) = r c
  sample : ∀ c < cfg.N, ∀ i < cfg.B, m (16 + 4 * cfg.N + c * cfg.B + i) = (s c i).toUInt8

/-- One operation of the server on the packet: `send` fills the header, or `write` is called for
a channel. -/
inductive PacketOp
  | header
  | write (c : Nat)
  deriving DecidableEq, Repr

/-- The operation on the buffer; the samples of channel `c` are `s c` divided by 127. -/
def PacketOp.apply (cfg : TransportConfig) (o : ByteOrder) (ff : FloatFormat K) (q : UInt32)
    (r : Nat → UInt32) (s : Nat → Nat → Int8) (m : Mem) : PacketOp → Mem
  | .header => cfg.fillHeader o m q
  | .write c => cfg.write o ff m c (r c) fun i => (s c i).toInt / 127.0

/-- The operation on the buffer, for the samples `x`. -/
def PacketOp.store {F : Type*} (cfg : TransportConfig) (o : ByteOrder) (ff : FloatFormat F)
    (q : UInt32) (r : Nat → UInt32) (x : Nat → Nat → F) (m : Mem) : PacketOp → Mem
  | .header => cfg.fillHeader o m q
  | .write c => cfg.write o ff m c (r c) (x c)

theorem PacketOp.apply_eq_store (cfg : TransportConfig) (o : ByteOrder) (ff : FloatFormat K)
    (q : UInt32) (r : Nat → UInt32) (s : Nat → Nat → Int8) :
    apply cfg o ff q r s = store cfg o ff q r fun c i => (s c i).toInt / 127.0 := by
  funext m op
  cases op <;> rfl

/-- The operations that make one packet, up to their order. -/
def PacketOp.all (cfg : TransportConfig) : List PacketOp :=
  .header :: (List.range cfg.N).map .write

variable {cfg : TransportConfig} {o : ByteOrder} {ff : FloatFormat K} {q : UInt32}
  {r : Nat → UInt32} {s : Nat → Nat → Int8} {m m' : Mem}

theorem PacketOp.mem_all {op : PacketOp} :
    op ∈ all cfg ↔ op = .header ∨ ∃ c < cfg.N, op = .write c := by
  simp [all, eq_comm]

theorem sampleLoc_add_of_int8 (h8 : cfg.f32bit = false) (hn : cfg.noheader = false) (c i : Nat) :
    cfg.sampleLoc c + i = 16 + 4 * cfg.N + c * cfg.B + i := by
  simp [sampleLoc, headerBytes_of_header hn, sampleBytes, h8]

/-- The operations of the server make the packet of the quantized samples, in every order and
whatever the buffer contained before. -/
theorem encodes_of_store {F : Type*} {ff : FloatFormat F} {x : Nat → Nat → F}
    (h8 : cfg.f32bit = false) (hn : cfg.noheader = false) (hf : cfg.Fits) {ops : List PacketOp}
    (hops : ops.Perm (PacketOp.all cfg)) :
    Encodes cfg o q r (fun c i => ff.convert8i (x c i))
      (ops.foldl (PacketOp.store cfg o ff q r x) m) := by
  have hr : cfg.f32bit = true → cfg.rowmajor = false := fun h => by rw [h8] at h; cases h
  have hmem : ∀ op, op ∈ ops ↔ op = .header ∨ ∃ c < cfg.N, op = .write c :=
    fun op => hops.mem_iff.trans PacketOp.mem_all
  have hbytes : cfg.sampleBytes = cfg.B := by simp [sampleBytes, h8]
  refine ⟨?_, fun c hc => ?_, fun c hc i hi => ?_⟩
  · refine foldl_established (P := fun m => readHdr0 o m = cfg.hdr0 q)
      ((hmem .header).mpr (.inl rfl)) (fun m => ?_) (fun op hop hne m hm => ?_) m
    · rw [PacketOp.store, readHdr0_fillHeader]
    · obtain rfl | ⟨c, hc, rfl⟩ := (hmem op).mp hop
      · exact absurd rfl hne
      · rw [PacketOp.store, ← hm]
        exact readHdr0_congr fun i hi => write_of_lt (behindHeader_of_fits hn hf hc) hi
  · refine foldl_established (P := fun m => m.load32 o (16 + 4 * c) = r c)
      ((hmem (.write c)).mpr (.inr ⟨c, hc, rfl⟩)) (fun m => ?_) (fun op hop hne m hm => ?_) m
    · rw [PacketOp.store, load32_write hf.noOverflow hc hr hn]
    · obtain rfl | ⟨d, hd, rfl⟩ := (hmem op).mp hop
      · rw [PacketOp.store, ← hm]
        exact Mem.load32_congr fun i _ => fillHeader_of_ge (by omega)
      · rw [PacketOp.store, load32_write_of_ne hf.noOverflow hd hr hn (fun h => hne (h ▸ rfl)) hc, hm]
  · rw [← sampleLoc_add_of_int8 h8 hn]
    refine foldl_established (P := fun m => m (cfg.sampleLoc c + i) = (ff.convert8i (x c i)).toUInt8)
      ((hmem (.write c)).mpr (.inr ⟨c, hc, rfl⟩)) (fun m => ?_) (fun op hop hne m hm => ?_) m
    · rw [PacketOp.store, write_sample hf.noOverflow hc hr (hbytes ▸ hi)]
      simp only [sampleByte, h8, Bool.false_eq_true, if_false]
    · obtain rfl | ⟨d, hd, rfl⟩ := (hmem op).mp hop
      · have hloc := sampleLoc_add_of_int8 h8 hn c i
        rw [PacketOp.store, fillHeader_of_ge (by omega), hm]
      · rw [PacketOp.store,
          write_sample_of_ne hf.noOverflow hd hr (fun h => hne (h ▸ rfl)) (hbytes ▸ hi), hm]

theorem Encodes.congr (h : Encodes cfg o q r s m)
    (he : ∀ i < 16 + 4 * cfg.N + cfg.N * cfg.B, m' i = m i) : Encodes cfg o q r s m' where
  header := (readHdr0_congr fun i hi => he i (by omega)).trans h.header
  readcnt c hc := (Mem.load32_congr fun i hi => he _ (by omega)).trans (h.readcnt c hc)
  sample c hc i hi := by
    have hle : (c + 1) * cfg.B ≤ cfg.N * cfg.B := Nat.mul_le_mul_right _ hc
    rw [Nat.succ_mul] at hle
    exact (he _ (by omega)).trans (h.sample c hc i hi)

theorem Encodes.load32_N (h : Encodes cfg o q r s m) : m.load32 o 4 = cfg.nchannels :=
  congrArg Hdr0.N h.header

theorem Encodes.load32_L (h : Encodes cfg o q r s m) : m.load32 o 8 = cfg.blocksize >>> 1 :=
  congrArg Hdr0.L h.header

theorem toNat_blocksize_shiftRight : (cfg.blocksize >>> 1).toNat = cfg.B / 2 := by
  rw [UInt32.toNat_shiftRight]
  exact shiftRight_one _

theorem Encodes.toNat_N (h : Encodes cfg o q r s m) : (readHdr0 o m).N.toNat = cfg.N :=
  congrArg (·.N.toNat) h.header

theorem Encodes.toNat_L (h : Encodes cfg o q r s m) : (readHdr0 o m).L.toNat = cfg.B / 2 :=
  (congrArg (·.L.toNat) h.header).trans toNat_blocksize_shiftRight

/-! ## The clients -/

/-- The sample `i` of a channel, as the clients scale it. -/
def sampleValue (s : Nat → Int8) (i : Nat) : K × K :=
  ((s (2 * i)).toInt / 128.0, (s (2 * i + 1)).toInt / 128.0)

theorem scaled_eq {a : Nat} {x : Int8} (h : m a = x.toUInt8) :
    (scaled m a : K) = x.toInt / 128.0 := by
  rw [scaled, h, Int8.toInt8_toUInt8, mul_one_div]

theorem toNatClampNeg_toInt32 {x : UInt32} (h : x.toNat < 2 ^ 31) :
    x.toInt32.toNatClampNeg = x.toNat := by
  have : x.toInt32.toInt = x.toNat := by
    rw [← Int32.toInt_toBitVec, UInt32.toBitVec_toInt32, BitVec.toInt_eq_toNat_of_lt]
    · rfl
    · show 2 * x.toNat < 2 ^ 32; omega
  rw [Int32.toNatClampNeg, this, Int.toNat_natCast]

/-- Where the samples of a channel lie when its offset is counted in complex samples. -/
theorem channel_offset (heven : 2 ∣ cfg.B) (c : Nat) : c * (cfg.B / 2) * 2 = c * cfg.B := by
  rw [Nat.mul_assoc, Nat.div_mul_cancel heven]

theorem packetlen_of_int8 (h8 : cfg.f32bit = false) (hn : cfg.noheader = false)
    (hf : cfg.Fits) : cfg.packetlen = 16 + 4 * cfg.N + 2 * cfg.N * cfg.B := by
  have hf : 16 + 4 * cfg.N + 2 * cfg.N * cfg.B < 2 ^ 32 := hf
  simp only [packetlen, packetlength, h8, hn, Bool.false_eq_true, if_false, sizeofHdr0,
    sizeofUint32]
  rw [u32_of_lt (by omega)]

theorem Message.Carries.byte {msg : Message} (h : msg.Carries (cfg.message m)) {i : Nat}
    (hi : i < cfg.packetlen) : msg.data i = m i := by
  have hd := h.data i (by simpa [message] using hi)
  simpa [message, Mem.getElem?_read hi, eq_comm] using hd

theorem Message.Carries.size_eq {msg : Message} (h : msg.Carries (cfg.message m)) :
    msg.size = cfg.packetlen := by rw [h.size, message, Mem.length_read]

/-- A buffer carries its own packet, whatever lies behind it. -/
theorem carries_message {n : Nat} (hsize : cfg.packetlen = n) (h : ∀ j < n, m' j = m j) :
    Message.Carries ⟨n, m'⟩ (cfg.message m) where
  size := by simp [message, hsize]
  data j hj := by
    rw [message, Mem.length_read] at hj
    rw [message, Mem.getElem?_read hj, Nat.zero_add]
    exact congrArg some (h j (hsize ▸ hj)).symm

/-- A message with a packet of the server contains the quantized samples. -/
theorem encodes_of_carries {F : Type*} {ff : FloatFormat F} {x : Nat → Nat → F} {msg : Message}
    (h8 : cfg.f32bit = false) (hn : cfg.noheader = false) (hf : cfg.Fits) {ops : List PacketOp}
    (hops : ops.Perm (PacketOp.all cfg))
    (hmsg : msg.Carries (cfg.message (ops.foldl (PacketOp.store cfg o ff q r x) m))) :
    Encodes cfg o q r (fun c i => ff.convert8i (x c i)) msg.data ∧
      16 + 4 * cfg.N + cfg.N * cfg.B ≤ msg.size := by
  have hlen := packetlen_of_int8 h8 hn hf
  have hle : cfg.N * cfg.B ≤ 2 * cfg.N * cfg.B := by rw [Nat.mul_assoc]; omega
  refine ⟨(encodes_of_store h8 hn hf hops).congr fun i hi => hmsg.byte (by omega), ?_⟩
  rw [hmsg.size_eq]
  omega

theorem zmqRecv_of_lt {msg : Message} {buf : Mem} {cap i : Nat} (h : i < min msg.size cap) :
    zmqRecv buf cap msg i = msg.data i := by
  have hadd : buf.blit 0 (min msg.size cap) msg.data (0 + i) = msg.data i := Mem.blit_add h
  rwa [Nat.zero_add] at hadd

/-- The sample at an address, in the format of the stream. -/
def streamSample (K : Type*) [Field K] (m : Mem) (a : Nat) : StreamFormat → StreamSample K
  | .cf32 => .cf32 (scaled m a) (scaled m (a + 1))
  | .cs8 => .cs8 (m a).toInt8 (m (a + 1)).toInt8

/-- Sample `i` of a channel, in the format of a stream. -/
def writtenSample (s : Nat → Int8) (i : Nat) : StreamFormat → StreamSample K
  | .cf32 => .cf32 (sampleValue s i).1 (sampleValue s i).2
  | .cs8 => .cs8 (s (2 * i)) (s (2 * i + 1))

/-- What `readStream` stores for a message with the sizes `N` and `L`. -/
def readSamples (K : Type*) [Field K] (h : StreamHandle) (buffs : Nat → Bool) (numElems N L : Nat)
    (m : Mem) (k s : Nat) : Option (StreamSample K) :=
  match h.channels[k]? with
  | none => none
  | some ch =>
    if N ≤ ch ∨ buffs k = false then none
    else if min L numElems ≤ s then none
    else some (streamSample K m (16 + 4 * N + ch * (2 * L) + 2 * s) h.format)

section
variable {h : StreamHandle} {buffs : Nat → Bool} {numElems N L k c i : Nat} {msg : Message}

theorem readStream_of_short (hs : msg.size < 16 ∨ (readHdr0 o msg.data).N.toNat = 0 ∨
    (readHdr0 o msg.data).L.toNat = 0) :
    readStream (K := K) o h buffs numElems (some msg) = .overflow := by
  by_cases h16 : msg.size < sizeofHdr0
  · simp only [readStream, if_pos h16]
  · simp only [readStream, if_neg h16, if_pos (hs.resolve_left h16)]

theorem readStream_of_long (h16 : ¬ msg.size < 16) (hN : (readHdr0 o msg.data).N.toNat ≠ 0)
    (hL : (readHdr0 o msg.data).L.toNat ≠ 0) :
    readStream (K := K) o h buffs numElems (some msg) =
      .ok (min (readHdr0 o msg.data).L.toNat numElems)
        (min (readHdr0 o msg.data).L.toNat numElems < (readHdr0 o msg.data).L.toNat)
        (readSamples K h buffs numElems (readHdr0 o msg.data).N.toNat
          (readHdr0 o msg.data).L.toNat msg.data) := by
  have h16 : ¬ msg.size < sizeofHdr0 := h16
  simp only [readStream, if_neg h16, if_neg (not_or.mpr ⟨hN, hL⟩)]
  congr 1
  funext k s
  have haddr : ∀ ch, sizeofHdr0 + (readHdr0 o msg.data).N.toNat * sizeofUint32 +
      ch * ((readHdr0 o msg.data).L.toNat * 2) + s * 2 = 16 + 4 * (readHdr0 o msg.data).N.toNat +
        ch * (2 * (readHdr0 o msg.data).L.toNat) + 2 * s := by
    intro ch
    simp only [sizeofHdr0, sizeofUint32, Nat.mul_comm _ 2]
    omega
  unfold readSamples
  cases h.channels[k]? with
  | none => rfl
  | some ch => cases h.format <;> simp only [← Nat.add_assoc, haddr, streamSample]

theorem readSamples_of_lt (hk : h.channels[k]? = some c) (hc : c < N) (hbuf : buffs k = true)
    (hi : i < min L numElems) (m : Mem) :
    readSamples K h buffs numElems N L m k i =
      some (streamSample K m (16 + 4 * N + c * (2 * L) + 2 * i) h.format) := by
  have hok : ¬ (N ≤ c ∨ buffs k = false) := by simp [hbuf, hc]
  simp only [readSamples, hk, if_neg hok, if_neg (Nat.not_le.mpr hi)]

end

section
variable (heven : 2 ∣ cfg.B) {msg : Message}
include heven

theorem Encodes.work {d : AegirSDRImpl} (hN : d.nchannels = cfg.nchannels.toInt32)
    (hL : d.blocksize = (cfg.blocksize >>> 1).toInt32) (hf : cfg.Fits)
    (h : Encodes cfg o q r s msg.data) (hsize : 16 + 4 * cfg.N + cfg.N * cfg.B ≤ msg.size)
    (buf : Mem) :
    ∃ w : AegirSDRImpl.WorkResult K, d.work o buf (some msg) = some w ∧ w.produced = cfg.B / 2 ∧
      ∀ c < cfg.N, ∀ i < cfg.B / 2, w.out c i = some (sampleValue (s c) i) := by
  have hB := cfg.B_lt
  have hNB : 16 + 4 * cfg.N + 2 * (cfg.N * cfg.B) < 2 ^ 32 := by rw [← Nat.mul_assoc]; exact hf
  have hdN : d.N = cfg.N := by
    rw [AegirSDRImpl.N, hN]
    exact toNatClampNeg_toInt32 (show cfg.N < 2 ^ 31 by omega)
  have hdL : d.L = cfg.B / 2 := by
    rw [AegirSDRImpl.L, hL, toNatClampNeg_toInt32 (by rw [toNat_blocksize_shiftRight]; omega),
      toNat_blocksize_shiftRight]
  have hpkt : d.pktSize = 16 + 4 * cfg.N + cfg.N * cfg.B := by
    rw [AegirSDRImpl.pktSize, hdN, hdL, channel_offset heven, sizeofHdr0, sizeofUint32]
    omega
  have hbuf : Encodes cfg o q r s (zmqRecv buf d.pktSize msg) :=
    h.congr fun i hi => zmqRecv_of_lt (by omega)
  have hsize0 : msg.size ≠ 0 := by omega
  have hmatch : ¬ ((readHdr0 o (zmqRecv buf d.pktSize msg)).N.toInt32 ≠ d.nchannels ∨
      (readHdr0 o (zmqRecv buf d.pktSize msg)).L.toInt32 ≠ d.blocksize) := by
    rw [hbuf.header, hN, hL]
    simp
  have hfit : d.OffsetsFit := by
    have hmul : (cfg.N - 1) * cfg.B ≤ cfg.N * cfg.B := Nat.mul_le_mul_right _ (by omega)
    have hone : cfg.N ≠ 0 → cfg.B ≤ cfg.N * cfg.B := fun h0 =>
      Nat.le_mul_of_pos_left _ (Nat.pos_of_ne_zero h0)
    rw [AegirSDRImpl.offsetsFit_iff, hdN, hdL, channel_offset heven]
    omega
  simp only [AegirSDRImpl.work, if_neg hsize0, if_neg hmatch, if_neg (not_not.mpr hfit), hdN, hdL]
  refine ⟨_, rfl, rfl, fun c hc i hi => ?_⟩
  have hat : ∀ k < cfg.B, (scaled (zmqRecv buf d.pktSize msg)
      (sizeofHdr0 + cfg.N * sizeofUint32 + c * (cfg.B / 2) * 2 + k) : K) = (s c k).toInt / 128.0 := by
    intro k hk
    rw [channel_offset heven, sizeofHdr0, sizeofUint32, Nat.mul_comm cfg.N 4]
    exact scaled_eq (hbuf.sample c hc k hk)
  simp only [if_pos (And.intro hc hi), hat _ (show 2 * i < cfg.B by omega),
    hat _ (show 2 * i + 1 < cfg.B by omega), sampleValue]

theorem Encodes.streamSample (he : Encodes cfg o q r s m) {c i : Nat} (hc : c < cfg.N)
    (hi : i < cfg.B / 2) (fmt : StreamFormat) :
    streamSample K m (16 + 4 * cfg.N + c * (2 * (cfg.B / 2)) + 2 * i) fmt =
      writtenSample (s c) i fmt := by
  have hre := he.sample c hc (2 * i) (by omega)
  have him := he.sample c hc (2 * i + 1) (by omega)
  rw [Nat.mul_div_cancel' heven]
  rw [← Nat.add_assoc] at him
  cases fmt with
  | cf32 => simp only [Aegir.streamSample, scaled_eq hre, scaled_eq him, writtenSample, sampleValue]
  | cs8 => simp only [Aegir.streamSample, hre, him, writtenSample, Int8.toInt8_toUInt8]

theorem Encodes.readStream {h : StreamHandle} (hfmt : h.format = .cf32) (hN : 1 ≤ cfg.N)
    (hB : 2 ≤ cfg.B) (he : Encodes cfg o q r s msg.data) (hsize : 16 ≤ msg.size) (buffs : Nat → Bool)
    {numElems : Nat} (hnum : cfg.B / 2 ≤ numElems) :
    ∃ out, readStream (K := K) o h buffs numElems (some msg) = .ok (cfg.B / 2) false out ∧
      ∀ k c, h.channels[k]? = some c → c < cfg.N → buffs k = true → ∀ i < cfg.B / 2,
        out k i = some (.cf32 (sampleValue (s c) i).1 (sampleValue (s c) i).2) := by
  have hlong : Aegir.readStream (K := K) o h buffs numElems (some msg) = _ :=
    readStream_of_long (Nat.not_lt.mpr hsize) (he.toNat_N ▸ by omega) (he.toNat_L ▸ by omega)
  simp only [he.toNat_N, he.toNat_L, Nat.min_eq_left hnum, Nat.lt_irrefl, decide_false] at hlong
  refine ⟨_, hlong, fun k c hk hc hbuf i hi => ?_⟩
  rw [readSamples_of_lt hk hc hbuf (by omega), hfmt]
  exact congrArg some (he.streamSample heven hc hi .cf32)

theorem Encodes.mexRead (hf : cfg.Fits) (h : Encodes cfg o q r s msg.data)
    (hsize : 16 + 4 * cfg.N + cfg.N * cfg.B ≤ msg.size) (hcap : msg.size ≤ bufferLength)
    (buffer : Mem) :
    ∃ f, (mexRead (K := K) o buffer (some msg)).1 = some f ∧ f.r = cfg.B / 2 ∧ f.c = cfg.N ∧
      f.gseq = q ∧
      (∀ c < cfg.N, ∀ i < cfg.B / 2, f.entry i c = some (sampleValue (s c) i)) ∧
      ∀ c < cfg.N, f.seqptr c = some (r c) := by
  have hbuf : Encodes cfg o q r s (zmqRecv buffer bufferLength msg) :=
    h.congr fun i hi => zmqRecv_of_lt (by omega)
  have hNat : cfg.nchannels.toNat = cfg.N := rfl
  have hsize0 : msg.size ≠ 0 := by omega
  have hf : 16 + 4 * cfg.N + 2 * cfg.N * cfg.B < 2 ^ 32 := hf
  have hNB : cfg.B / 2 * cfg.N * 2 = cfg.N * cfg.B := by
    rw [Nat.mul_comm (cfg.B / 2), channel_offset heven]
  have hcount : u32 (u32 (cfg.B / 2 * cfg.N) <<< 1) = cfg.N * cfg.B := by
    rw [Nat.mul_assoc] at hf
    rw [u32_of_lt (n := cfg.B / 2 * cfg.N) (by omega), Nat.shiftLeft_eq, pow_one, hNB,
      u32_of_lt (by omega)]
  simp only [Aegir.mexRead, if_neg hsize0, hbuf.load32_N, hbuf.load32_L, hNat,
    toNat_blocksize_shiftRight, hcount]
  refine ⟨_, rfl, rfl, rfl, congrArg Hdr0.globalseqn hbuf.header, fun c hc i hi => ?_,
    fun c hc => ?_⟩
  · have hc' : 2 * (c * (cfg.B / 2) + i) = c * cfg.B + 2 * i := by
      rw [Nat.mul_add, Nat.mul_comm 2 (c * (cfg.B / 2)), channel_offset heven]
    have hle : (c + 1) * cfg.B ≤ cfg.N * cfg.B := Nat.mul_le_mul_right _ hc
    rw [Nat.succ_mul] at hle
    have hat : ∀ j < cfg.B, (scaled (zmqRecv buffer bufferLength msg)
        (16 + sizeofUint32 * cfg.N + (c * cfg.B + j)) : K) = (s c j).toInt / 128.0 := by
      intro j hj
      rw [sizeofUint32, ← Nat.add_assoc]
      exact scaled_eq (hbuf.sample c hc j hj)
    simp only [MexFrame.entry, hc']
    rw [if_pos (by omega), if_pos (by omega), Nat.add_assoc (c * cfg.B), hat _ (by omega),
      hat _ (by omega), sampleValue]
  · simp only [if_pos hc, Nat.mul_add]
    exact congrArg some (hbuf.readcnt c hc)

end

/-- The three clients decode what the server encodes, whatever the order of the calls and the
contents of the buffers before. -/
theorem decode_encode [LinearOrder K] [IsStrictOrderedRing K] (hff : ff.RoundsAndClamps)
    (h8 : cfg.f32bit = false)
    (hn : cfg.noheader = false) (hN : 1 ≤ cfg.N) (hB : 2 ≤ cfg.B) (heven : 2 ∣ cfg.B)
    (hsize : 16 + 4 * cfg.N + 2 * cfg.N * cfg.B < 2 ^ 31) {ops : List PacketOp}
    (hops : ops.Perm (PacketOp.all cfg)) {msg : Message}
    (hmsg : msg.Carries (cfg.message (ops.foldl (PacketOp.apply cfg o ff q r s) m))) :
    (∀ buf, let d : AegirSDRImpl := ⟨cfg.nchannels.toInt32, (cfg.blocksize >>> 1).toInt32⟩
        ∃ w : AegirSDRImpl.WorkResult K, d.work o buf (some msg) = some w ∧ w.produced = cfg.B / 2 ∧
          ∀ c < cfg.N, ∀ i < cfg.B / 2, w.out c i = some (sampleValue (s c) i)) ∧
    (∀ (h : StreamHandle) (buffs : Nat → Bool) (numElems : Nat), h.format = .cf32 →
        cfg.B / 2 ≤ numElems →
        ∃ out, readStream (K := K) o h buffs numElems (some msg) = .ok (cfg.B / 2) false out ∧
          ∀ k c, h.channels[k]? = some c → c < cfg.N → buffs k = true → ∀ i < cfg.B / 2,
            out k i = some (.cf32 (sampleValue (s c) i).1 (sampleValue (s c) i).2)) ∧
    (cfg.packetlen ≤ bufferLength → ∀ buffer,
        ∃ f, (mexRead (K := K) o buffer (some msg)).1 = some f ∧ f.r = cfg.B / 2 ∧ f.c = cfg.N ∧
          f.gseq = q ∧
          (∀ c < cfg.N, ∀ i < cfg.B / 2, f.entry i c = some (sampleValue (s c) i)) ∧
          ∀ c < cfg.N, f.seqptr c = some (r c)) := by
  have hf : cfg.Fits := by unfold Fits; omega
  have hmsize := hmsg.size_eq
  rw [PacketOp.apply_eq_store] at hmsg
  obtain ⟨he, hlen⟩ := encodes_of_carries h8 hn hf hops hmsg
  simp only [hff.convert8i_div] at he
  refine ⟨fun buf => he.work heven rfl rfl hf hlen buf, fun h buffs numElems hfmt hnum =>
    he.readStream heven hfmt hN hB (by omega) buffs hnum, fun hcap buffer =>
    he.mexRead heven hf hlen (by omega) buffer⟩

/-! ### A packet of two channels -/

/-- Rounding half up over the rationals. -/
def ratFormat : FloatFormat ℚ where
  bytes _ _ := 0
  convert8i x := .ofInt (max (-128) (min 127 (round (127 * x))))

theorem ratFormat_roundsAndClamps : ratFormat.RoundsAndClamps := by
  intro x
  have habs := abs_sub_round (127 * x)
  refine ⟨round (127 * x), by norm_num at habs ⊢; exact habs, ?_⟩
  rw [ratFormat, Int8.toInt_ofInt_of_le (by omega) (by omega)]

def twoChannels : TransportConfig := ⟨false, false, false, 2, 2⟩

/-- One complex sample a channel, written in the order 1, 0, the header in between. -/
def twoChannelBuffer : Mem :=
  [.write 1, .header, .write 0].foldl
    (PacketOp.apply twoChannels .little ratFormat 7 (fun c => .ofNat (40 + c))
      fun c i => .ofNat (10 * c + i)) fun _ => 255

theorem decode_encode_twoChannels :
    let msg : Message := ⟨twoChannels.packetlen, twoChannelBuffer⟩
    let d : AegirSDRImpl := ⟨twoChannels.nchannels.toInt32, (twoChannels.blocksize >>> 1).toInt32⟩
    (∃ w : AegirSDRImpl.WorkResult ℚ, d.work .little (fun _ => 0) (some msg) = some w ∧
      w.out 1 0 = some (10 / 128, 11 / 128)) ∧
      ∃ f, (mexRead (K := ℚ) .little (fun _ => 0) (some msg)).1 = some f ∧
        f.seqptr 1 = some 41 := by
  have hcarries : Message.Carries ⟨twoChannels.packetlen, twoChannelBuffer⟩
      (twoChannels.message twoChannelBuffer) := carries_message rfl fun _ _ => rfl
  obtain ⟨hwork, -, hmex⟩ := decode_encode ratFormat_roundsAndClamps rfl rfl (by decide)
    (by decide) (by decide) (by decide) (by decide) hcarries
  obtain ⟨f, hf, -, -, -, -, hseq⟩ := hmex (by decide) fun _ => 0
  obtain ⟨w, hw, -, hout⟩ := hwork fun _ => 0
  refine ⟨⟨w, hw, ?_⟩, f, hf, hseq 1 (by decide)⟩
  have h := hout 1 (by decide) 0 (by decide)
  norm_num [sampleValue] at h
  exact h

end Aegir
