import Aegir.Model.Transport

/-!
# Where the calls of `ctransport` store

The first bytes of a packet belong to `fillHeader`, the readcount words and the sample regions to
`write`. When the sizes do not overflow 32 bits (`Fits`), the locations are the ones the layout
says and a call for one channel changes nothing of the header or of another channel.
-/

namespace Aegir.TransportConfig

variable {F : Type*} {cfg : TransportConfig} {o : ByteOrder} {ff : FloatFormat F} {m m' : Mem}
  {c d i : Nat} {q r : UInt32} {inp : Nat → F}

/-- The sizes that `packetlength` computes do not overflow 32 bits. -/
def Fits (cfg : TransportConfig) : Prop := 16 + 4 * cfg.N + 2 * cfg.N * cfg.B < 2 ^ 32

/-- The complex elements of the matrix, and where those of each channel start in the buffer, are
counted in 32 bits. -/
structure ElementsFit (cfg : TransportConfig) : Prop where
  matrix : cfg.N * (cfg.B / 2) < 2 ^ 32
  channel : ∀ c < cfg.N, (cfg.headerBytes + c * (cfg.B / 2 * 8)) / 8 < 2 ^ 32

/-- No intermediate result of `packetlength` and `write` overflows 32 bits in the format at hand. -/
def NoOverflow (cfg : TransportConfig) : Prop :=
  if cfg.f32bit then cfg.N * (cfg.B / 2) < 2 ^ 32
  else 2 * cfg.N * cfg.B < 2 ^ 32 ∧ ∀ c < cfg.N, cfg.headerBytes + c * cfg.B < 2 ^ 32

/-! ## The header -/

theorem fillHeader_of_ge (h : 16 ≤ i) : cfg.fillHeader o m q i = m i := by
  simp only [fillHeader]
  rw [Mem.store32_of_disjoint (by omega), Mem.store32_of_disjoint (by omega),
    Mem.store32_of_disjoint (by omega), Mem.store32_of_disjoint (by omega)]

/-- The header with the sequence number `q`. -/
def hdr0 (cfg : TransportConfig) (q : UInt32) : Hdr0 :=
  ⟨q, cfg.nchannels, cfg.blocksize >>> 1, 0⟩

@[simp] theorem hdr0_N : (cfg.hdr0 q).N = cfg.nchannels := rfl
@[simp] theorem hdr0_L : (cfg.hdr0 q).L = cfg.blocksize >>> 1 := rfl

@[simp] theorem readHdr0_fillHeader : readHdr0 o (cfg.fillHeader o m q) = cfg.hdr0 q := by
  simp only [hdr0, readHdr0, fillHeader, Mem.load32_store32]
  rw [Mem.load32_store32_of_disjoint (by omega), Mem.load32_store32_of_disjoint (by omega),
    Mem.load32_store32_of_disjoint (by omega), Mem.load32_store32, Mem.load32_store32_of_disjoint
    (by omega), Mem.load32_store32_of_disjoint (by omega), Mem.load32_store32,
    Mem.load32_store32_of_disjoint (by omega), Mem.load32_store32]

theorem readHdr0_congr (h : ∀ i < 16, m i = m' i) : readHdr0 o m = readHdr0 o m' := by
  simp only [readHdr0, Hdr0.mk.injEq]
  refine ⟨?_, ?_, ?_, ?_⟩ <;> exact Mem.load32_congr fun i hi => h _ (by omega)

/-! ## The locations -/

theorem Fits.channel (hf : cfg.Fits) (hc : c < cfg.N) :
    16 + 4 * cfg.N + 2 * (c * cfg.B) + 2 * cfg.B < 2 ^ 32 := by
  have hmul : (c + 1) * cfg.B ≤ cfg.N * cfg.B := Nat.mul_le_mul_right _ hc
  have hf : 16 + 4 * cfg.N + 2 * cfg.N * cfg.B < 2 ^ 32 := hf
  rw [Nat.mul_assoc] at hf
  linarith [Nat.succ_mul c cfg.B]

theorem headerBytes_le : cfg.headerBytes ≤ 16 + 4 * cfg.N := by
  simp only [headerBytes, sizeofHdr0, sizeofUint32]
  split <;> omega

theorem headerBytes_of_header (h : cfg.noheader = false) : cfg.headerBytes = 16 + 4 * cfg.N := by
  simp only [headerBytes, h, sizeofHdr0, sizeofUint32, Bool.false_eq_true, if_false]
  omega

theorem loc8_eq (h : cfg.headerBytes + c * cfg.B < 2 ^ 32) :
    cfg.loc8 c = cfg.headerBytes + c * cfg.B := by
  rw [loc8, u32_of_lt (n := c * cfg.B) (by omega), u32_of_lt h]

theorem shiftRight_one (n : Nat) : n >>> 1 = n / 2 := Nat.shiftRight_eq_div_pow n 1

theorem mul_channelBytes (c n : Nat) : c * (n * 8) = 8 * (c * n) := by ring

theorem Fits.elements (hf : cfg.Fits) : cfg.ElementsFit where
  matrix := by
    have hf : 16 + 4 * cfg.N + 2 * cfg.N * cfg.B < 2 ^ 32 := hf
    have hle : cfg.N * (cfg.B / 2) ≤ cfg.N * cfg.B := Nat.mul_le_mul_left _ (by omega)
    rw [Nat.mul_assoc] at hf
    omega
  channel c hc := by
    have hch := hf.channel hc
    have hh : cfg.headerBytes ≤ 16 + 4 * cfg.N := headerBytes_le
    have hle : c * (cfg.B / 2) ≤ c * cfg.B := Nat.mul_le_mul_left _ (by omega)
    rw [mul_channelBytes]
    omega

/-- No byte location overflows when the elements of the matrix are counted in 32 bits. -/
theorem byteLoc_eq (hm : cfg.N * (cfg.B / 2) < 2 ^ 32) (hc : c < cfg.N) :
    cfg.byteLoc c = cfg.headerBytes + c * (cfg.B / 2 * 8) := by
  have hN := cfg.N_lt
  have hh : cfg.headerBytes ≤ 16 + 4 * cfg.N := headerBytes_le
  have hle : c * (cfg.B / 2) ≤ cfg.N * (cfg.B / 2) := Nat.mul_le_mul_right _ hc.le
  rw [byteLoc, shiftRight_one, sizeofComplex, mul_channelBytes, u64_of_lt (by omega)]

theorem Fits.noOverflow (hf : cfg.Fits) : cfg.NoOverflow := by
  unfold NoOverflow
  split
  · exact hf.elements.matrix
  · refine ⟨?_, fun c hc => ?_⟩
    · unfold Fits at hf
      omega
    · have hch := hf.channel hc
      have hh : cfg.headerBytes ≤ 16 + 4 * cfg.N := headerBytes_le
      omega

theorem byteLoc_div_lt (hf : cfg.ElementsFit) (hc : c < cfg.N) : cfg.byteLoc c / 8 < 2 ^ 32 := by
  rw [byteLoc_eq hf.matrix hc]
  exact hf.channel c hc

/-! ## What `write` stores -/

theorem writeReadcnt_of_disjoint (h : i < 16 + 4 * c ∨ 16 + 4 * c + 4 ≤ i) :
    cfg.writeReadcnt o m c r i = m i := by
  simp only [writeReadcnt, sizeofHdr0, sizeofUint32]
  split
  · rfl
  · exact Mem.store32_of_disjoint (by omega)

/-- The bytes of the samples of one channel. -/
def sampleBytes (cfg : TransportConfig) : Nat :=
  if cfg.f32bit then cfg.B / 2 * 8 else cfg.B

/-- Where the samples of channel `c` start. -/
def sampleLoc (cfg : TransportConfig) (c : Nat) : Nat := cfg.headerBytes + c * cfg.sampleBytes

/-- The bytes of the samples `inp` on the wire. -/
def sampleByte (cfg : TransportConfig) (ff : FloatFormat F) (inp : Nat → F) : Nat → UInt8 :=
  if cfg.f32bit then fun i => ff.bytes (inp (i / 4)) (i % 4)
  else fun i => (ff.convert8i (inp i)).toUInt8

/-- Without the transposition, a call of `write` stores the readcount word and the sample bytes of
its channel. -/
theorem write_eq (hf : cfg.NoOverflow) (hc : c < cfg.N)
    (hr : cfg.f32bit = true → cfg.rowmajor = false) :
    cfg.write o ff m c r inp =
      (cfg.writeReadcnt o m c r).blit (cfg.sampleLoc c) cfg.sampleBytes
        (cfg.sampleByte ff inp) := by
  unfold NoOverflow at hf
  cases h32 : cfg.f32bit with
  | true =>
    rw [if_pos h32] at hf
    simp only [write, h32, hr h32, if_true, Bool.false_eq_true, if_false, byteLoc_eq hf hc,
      sampleLoc, sampleBytes, sampleByte, sizeofComplex, shiftRight_one]
  | false =>
    rw [if_neg (Bool.eq_false_iff.mp h32)] at hf
    simp only [write, h32, Bool.false_eq_true, if_false, convto8bit, loc8_eq (hf.2 c hc), sampleLoc,
      sampleBytes, sampleByte]

theorem sampleLoc_add_le (hcd : c < d) :
    cfg.sampleLoc c + cfg.sampleBytes ≤ cfg.sampleLoc d := by
  have hmul : (c + 1) * cfg.sampleBytes ≤ d * cfg.sampleBytes := Nat.mul_le_mul_right _ hcd
  simp only [sampleLoc]
  linarith [Nat.succ_mul c cfg.sampleBytes]

section
variable (hf : cfg.NoOverflow) (hc : c < cfg.N) (hr : cfg.f32bit = true → cfg.rowmajor = false)
include hf hc hr

theorem write_sample (hi : i < cfg.sampleBytes) :
    cfg.write o ff m c r inp (cfg.sampleLoc c + i) = cfg.sampleByte ff inp i := by
  rw [write_eq hf hc hr, Mem.blit_add hi]

theorem write_sample_of_ne (hcd : c ≠ d) (hi : i < cfg.sampleBytes) :
    cfg.write o ff m c r inp (cfg.sampleLoc d + i) = m (cfg.sampleLoc d + i) := by
  rw [write_eq hf hc hr, Mem.blit_of_disjoint]
  · simp only [writeReadcnt, sizeofHdr0, sizeofUint32]
    split
    · rfl
    · rename_i hn
      have hloc := headerBytes_of_header (Bool.eq_false_iff.mpr hn)
      exact Mem.store32_of_disjoint (by simp only [sampleLoc]; omega)
  · rcases Nat.lt_or_gt_of_ne hcd with h | h
    · have : cfg.sampleLoc c + cfg.sampleBytes ≤ cfg.sampleLoc d := sampleLoc_add_le h
      omega
    · have : cfg.sampleLoc d + cfg.sampleBytes ≤ cfg.sampleLoc c := sampleLoc_add_le h
      omega

/-- The samples of a call lie behind the readcount words. -/
theorem load32_write_eq (hn : cfg.noheader = false) (hd : d < cfg.N) :
    (cfg.write o ff m c r inp).load32 o (16 + 4 * d) =
      (cfg.writeReadcnt o m c r).load32 o (16 + 4 * d) := by
  have hloc := headerBytes_of_header hn
  rw [write_eq hf hc hr]
  exact Mem.load32_congr fun i hi => Mem.blit_of_lt (by simp only [sampleLoc]; omega)

theorem load32_write (hn : cfg.noheader = false) :
    (cfg.write o ff m c r inp).load32 o (16 + 4 * c) = r := by
  rw [load32_write_eq hf hc hr hn hc]
  simp only [writeReadcnt, hn, Bool.false_eq_true, if_false, sizeofHdr0, sizeofUint32,
    show 4 * (16 / 4 + c) = 16 + 4 * c by omega, Mem.load32_store32]

theorem load32_write_of_ne (hn : cfg.noheader = false) (hcd : c ≠ d) (hd : d < cfg.N) :
    (cfg.write o ff m c r inp).load32 o (16 + 4 * d) = m.load32 o (16 + 4 * d) := by
  rw [load32_write_eq hf hc hr hn hd]
  exact Mem.load32_congr fun i hi => writeReadcnt_of_disjoint (by omega)

end

/-! ## The length -/

theorem packetlen_of_float (h32 : cfg.f32bit = true) (hm : cfg.N * (cfg.B / 2) < 2 ^ 32) :
    cfg.packetlen = cfg.headerBytes + cfg.N * cfg.sampleBytes := by
  have hs : cfg.sampleBytes = cfg.B / 2 * 8 := by simp [sampleBytes, h32]
  simp only [packetlen, packetlength, h32, if_true, hs, headerBytes, shiftRight_one, sizeofComplex,
    u32_of_lt hm, sizeofHdr0, sizeofUint32, Nat.mul_comm 4, ← Nat.mul_assoc]
  split <;> simp

theorem packetlen_of_int8_lt (h8 : cfg.f32bit = false) (hm : 2 * cfg.N * cfg.B < 2 ^ 32) :
    cfg.packetlen = cfg.headerBytes + 2 * (cfg.N * cfg.sampleBytes) := by
  have hs : cfg.sampleBytes = cfg.B := by simp [sampleBytes, h8]
  simp only [packetlen, packetlength, h8, Bool.false_eq_true, if_false, hs, headerBytes, sizeofHdr0,
    sizeofUint32, u32_of_lt hm]
  rw [Nat.mul_assoc 2, Nat.mul_comm 4]
  split <;> omega

/-! ## The header is not touched -/

/-- The element copies of the transposition in the float format, as destination and source. -/
def copies (cfg : TransportConfig) (loc : Nat) : List (Nat × Nat) :=
  (List.range cfg.N).flatMap fun r => (List.range (cfg.B >>> 1)).map fun c =>
    (loc + u32 (r * (cfg.B >>> 1)) + c, u32 (u32 (c * cfg.N) + r))

theorem convertToRowmajor_eq (h32 : cfg.f32bit = true) (m : Mem) (loc : Nat) :
    cfg.convertToRowmajor m loc =
      (cfg.copies loc).foldl (fun m p => copyElem 8 m p.1 p.2) m := by
  simp only [convertToRowmajor, copies, h32, if_true, List.foldl_flatMap, List.foldl_map]

theorem foldl_copyElem_of_lt {ps : List (Nat × Nat)} {loc : Nat} (hps : ∀ p ∈ ps, loc ≤ p.1)
    (hi : i < 8 * loc) : ps.foldl (fun m p => copyElem 8 m p.1 p.2) m i = m i := by
  induction ps generalizing m with
  | nil => rfl
  | cons p ps ih =>
    rw [List.foldl_cons, ih fun q hq => hps q (List.mem_cons_of_mem _ hq)]
    have := hps p List.mem_cons_self
    exact Mem.blit_of_lt (by omega)

theorem le_of_mem_copies {loc : Nat} {p : Nat × Nat} (h : p ∈ cfg.copies loc) : loc ≤ p.1 := by
  simp only [copies, List.mem_flatMap, List.mem_map] at h
  obtain ⟨r, -, c, -, rfl⟩ := h
  show loc ≤ loc + u32 (r * (cfg.B >>> 1)) + c
  omega

theorem convertToRowmajor_of_lt {loc : Nat} (h32 : cfg.f32bit = true) (h : i < 8 * loc) :
    cfg.convertToRowmajor m loc i = m i := by
  rw [convertToRowmajor_eq h32]
  exact foldl_copyElem_of_lt (fun p hp => le_of_mem_copies hp) h

/-- The location that `write` computes for the samples of channel `c`, and the one that it passes
on to the transposition, lie behind the header. -/
def BehindHeader (cfg : TransportConfig) (c : Nat) : Prop :=
  if cfg.f32bit then
    16 ≤ cfg.byteLoc c ∧ (cfg.rowmajor = true → 2 ≤ u32 (cfg.byteLoc c / sizeofComplex))
  else 16 ≤ cfg.loc8 c

instance : Decidable (cfg.BehindHeader c) := by
  unfold BehindHeader; split <;> infer_instance

theorem behindHeader_of_fits (hh : cfg.noheader = false) (hf : cfg.Fits) (hc : c < cfg.N) :
    cfg.BehindHeader c := by
  have hloc := headerBytes_of_header hh
  have hbl := byteLoc_eq hf.elements.matrix hc
  have hl : cfg.loc8 c = cfg.headerBytes + c * cfg.B := loc8_eq (by
    have hch := hf.channel hc
    have hh : cfg.headerBytes ≤ 16 + 4 * cfg.N := headerBytes_le
    omega)
  simp only [BehindHeader, sizeofComplex, u32_of_lt (byteLoc_div_lt hf.elements hc)]
  split <;> omega

/-- The header belongs to `send` alone: a call of `write` that stores behind it does not change
it. -/
theorem write_of_lt (hb : cfg.BehindHeader c) (hi : i < 16) :
    cfg.write o ff m c r inp i = m i := by
  have hrc : ∀ m : Mem, cfg.writeReadcnt o m c r i = m i :=
    fun m => writeReadcnt_of_disjoint (by omega)
  simp only [write]
  simp only [BehindHeader] at hb
  split
  · rename_i h32
    rw [if_pos h32] at hb
    have hblit : ∀ (m : Mem) src n, m.blit (cfg.byteLoc c) n src i = m i :=
      fun m src n => Mem.blit_of_lt (by omega)
    split
    · rename_i hr
      have hloc := hb.2 hr
      rw [convertToRowmajor_of_lt h32 (by omega), hblit, hrc]
    · rw [hblit, hrc]
  · rename_i h32
    rw [if_neg h32] at hb
    rw [convto8bit, Mem.blit_of_lt (by omega), hrc]

end Aegir.TransportConfig
