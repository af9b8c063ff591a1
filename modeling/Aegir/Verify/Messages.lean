import Aegir.Verify.RowMajor

/-!
# A message is the frame

`packetlength` and `write` compute sizes independently. In the complex float format they agree; in
the int8 format `packetlength` counts two bytes for each of the `blocksize` bytes that `write` stores
for a channel, so that the second half of what is published is filler (`packetlen_iff`). A receiver
in raw mode, which has no header to tell it where the data ends, gets the concatenation of the sample
blocks in the float format only, as long as the row-major option does not move them
(`messages_iff`).
-/

namespace Aegir

namespace TransportConfig

variable {F : Type*} {cfg : TransportConfig} {o : ByteOrder} {ff : FloatFormat F} {m : Mem}
  {r : Nat → UInt32} {x : Nat → Nat → F}

/-! ## The length -/

theorem packetlen_of_int8_fits (h8 : cfg.f32bit = false) (hf : cfg.Fits) :
    cfg.packetlen = cfg.headerBytes + 2 * (cfg.N * cfg.sampleBytes) :=
  packetlen_of_int8_lt h8 (by unfold Fits at hf; omega)

theorem sampleBytes_eq_zero (heven : 2 ∣ cfg.B) : cfg.sampleBytes = 0 ↔ cfg.B = 0 := by
  unfold sampleBytes
  split <;> omega

/-- The published length is that of the frame in the float format, and in the int8 format only when
there are no samples. -/
theorem packetlen_iff (hf : cfg.Fits) (heven : 2 ∣ cfg.B) :
    cfg.packetlen = cfg.headerBytes + cfg.N * cfg.sampleBytes ↔
      cfg.f32bit = true ∨ cfg.N * cfg.B = 0 := by
  cases h32 : cfg.f32bit with
  | true => simp [packetlen_of_float h32 hf.elements.matrix]
  | false =>
    rw [packetlen_of_int8_fits h32 hf]
    have hz : cfg.N * cfg.sampleBytes = 0 ↔ cfg.N * cfg.B = 0 := by
      rw [Nat.mul_eq_zero, Nat.mul_eq_zero, sampleBytes_eq_zero heven]
    simp only [Bool.false_eq_true, false_or, ← hz]
    omega

/-! ## The stream of a raw-mode receiver -/

/-- One frame, and the contents of the buffer into which it is written. -/
structure Frame (F : Type*) where
  buffer : Mem
  readcnt : Nat → UInt32
  samples : Nat → Nat → F

/-- The bytes published of a frame. -/
def frameMessage (cfg : TransportConfig) (o : ByteOrder) (ff : FloatFormat F) (f : Frame F) :
    List UInt8 :=
  cfg.message (cfg.writeFrame o ff f.buffer f.readcnt f.samples)

/-- The sample blocks of the channels, one after the other. -/
def sampleBlocks (cfg : TransportConfig) (ff : FloatFormat F) (f : Frame F) : List UInt8 :=
  (List.range cfg.N).flatMap fun c =>
    (List.range cfg.sampleBytes).map (cfg.sampleByte ff (f.samples c))

/-- Without the transposition, a frame contains the samples of every channel. -/
theorem writeFrame_sample (hf : cfg.Fits) (hr : cfg.f32bit = true → cfg.rowmajor = false)
    {c i : Nat} (hc : c < cfg.N) (hi : i < cfg.sampleBytes) :
    cfg.writeFrame o ff m r x (cfg.sampleLoc c + i) = cfg.sampleByte ff (x c) i := by
  refine foldl_established (f := fun m c => cfg.write o ff m c (r c) (x c))
    (P := fun m => m (cfg.sampleLoc c + i) = cfg.sampleByte ff (x c) i) (List.mem_range.mpr hc)
    (fun m => write_sample hf.noOverflow hc hr hi) (fun d hd hne m hm => ?_) m
  rw [write_sample_of_ne hf.noOverflow (List.mem_range.mp hd) hr hne hi, hm]

/-- With one channel the transposition does not move the samples. -/
theorem writeFrame_sample_of_one (h32 : cfg.f32bit = true) (hr : cfg.rowmajor = true)
    (hn : cfg.noheader = true) (hN : cfg.N = 1) {c i : Nat} (hc : c < cfg.N)
    (hi : i < cfg.sampleBytes) :
    cfg.writeFrame o ff m r x (cfg.sampleLoc c + i) = cfg.sampleByte ff (x c) i := by
  obtain rfl : c = 0 := by omega
  have hh : cfg.headerBytes = 0 := by simp [headerBytes, hn]
  have hs : cfg.sampleBytes = cfg.B / 2 * 8 := by simp [sampleBytes, h32]
  have hrow : RowMajor cfg o ff r x (cfg.writeFrame o ff m r x) := rowMajor_of_raw_one h32 hr hn hN
  have hel := hrow.element 0 hc (i / 8) (by omega) (i % 8) (Nat.mod_lt _ (by decide))
  have hloc : cfg.headerBytes + 8 * (i / 8 * cfg.N + 0) + i % 8 = cfg.sampleLoc 0 + i := by
    simp only [sampleLoc, hN]
    omega
  rw [hloc] at hel
  simp only [hel, sampleByte, h32, if_true]
  congr 1
  · congr 1; omega
  · omega

/-- In raw mode, a message of the right length that contains the samples is the sample blocks. -/
theorem frameMessage_eq (hn : cfg.noheader = true)
    (hlen : cfg.packetlen = cfg.headerBytes + cfg.N * cfg.sampleBytes) {f : Frame F}
    (hs : ∀ c < cfg.N, ∀ i < cfg.sampleBytes,
      cfg.writeFrame o ff f.buffer f.readcnt f.samples (cfg.sampleLoc c + i) =
        cfg.sampleByte ff (f.samples c) i) :
    cfg.frameMessage o ff f = cfg.sampleBlocks ff f := by
  have hh : cfg.headerBytes = 0 := by simp [headerBytes, hn]
  rw [frameMessage, message, hlen, hh, Nat.zero_add, Mem.read_mul, sampleBlocks,
    List.flatMap, List.flatMap]
  congr 1
  refine List.map_congr_left fun c hc => Mem.read_eq_map fun i hi => ?_
  have h := hs c (List.mem_range.mp hc) i hi
  rwa [sampleLoc, hh] at h

@[simp] theorem length_frameMessage (f : Frame F) :
    (cfg.frameMessage o ff f).length = cfg.packetlen := by simp [frameMessage, message]

@[simp] theorem length_sampleBlocks (f : Frame F) :
    (cfg.sampleBlocks ff f).length = cfg.N * cfg.sampleBytes := by
  simp [sampleBlocks, List.length_flatMap]

theorem sampleBlocks_eq_read (hS : 0 < cfg.sampleBytes) (f : Frame F) :
    cfg.sampleBlocks ff f = Mem.read
      (fun p => cfg.sampleByte ff (f.samples (p / cfg.sampleBytes)) (p % cfg.sampleBytes)) 0
      (cfg.N * cfg.sampleBytes) := by
  rw [Mem.read_mul, sampleBlocks, List.flatMap, List.flatMap]
  congr 1
  refine List.map_congr_left fun c _ => (Mem.read_eq_map fun i hi => ?_).symm
  simp only [Nat.zero_add, Nat.mul_comm c, Nat.mul_add_div hS, Nat.mul_add_mod,
    Nat.div_eq_of_lt hi, Nat.mod_eq_of_lt hi, Nat.add_zero]

/-- In raw mode, the second complex element of a transposed frame of several channels does not depend
on the sample whose place it has in the sample blocks. -/
theorem writeFrame_second (h32 : cfg.f32bit = true) (hr : cfg.rowmajor = true)
    (hn : cfg.noheader = true) (hf : cfg.ElementsFit) (hN : 2 ≤ cfg.N) (hB : 4 ≤ cfg.B)
    {x' : Nat → Nat → F} (hx : ∀ i, i ≠ 2 → x 0 i = x' 0 i) :
    cfg.writeFrame o ff m r x 8 = cfg.writeFrame o ff m r x' 8 := by
  have hh : cfg.headerBytes = 0 := by simp [headerBytes, hn]
  have hu : u32 cfg.N = cfg.N := u32_of_lt cfg.N_lt
  -- the first call copies the element with the number `N` there
  have hfirst : ∀ x : Nat → Nat → F, cfg.writeFrame o ff m r x 8 =
      m.blit 0 (cfg.B / 2 * 8) (fun i => ff.bytes (x 0 (i / 4)) (i % 4)) (8 * cfg.N) := by
    intro x
    rw [writeFrame_of_lt_element h32 hr hf (d := 1) (by omega) (by omega) (by omega)]
    simp only [List.range_one, List.foldl_cons, List.foldl_nil, write_of_rowmajor h32 hr hf
      (show 0 < cfg.N by omega), hh, Nat.zero_mul, Nat.add_zero, Nat.zero_div, writeReadcnt, hn,
      if_true]
    rw [convertToRowmajor_first h32 hf (by omega) (n := 2) (by omega) (by omega)]
    have hcopy : ∀ m : Mem, copyElem 8 m 1 cfg.N (8 * 1 + 0) = m (8 * cfg.N + 0) :=
      fun m => copyElem_add (by decide)
    simpa [List.range_succ, copyElem_self, hu, u32_of_lt (show 0 < 2 ^ 32 by decide)] using hcopy _
  rw [hfirst, hfirst]
  by_cases hlt : 8 * cfg.N < cfg.B / 2 * 8
  · have hadd : ∀ x : Nat → Nat → F, m.blit 0 (cfg.B / 2 * 8)
        (fun i => ff.bytes (x 0 (i / 4)) (i % 4)) (0 + 8 * cfg.N) =
          ff.bytes (x 0 (8 * cfg.N / 4)) (8 * cfg.N % 4) := fun x => Mem.blit_add hlt
    rw [← Nat.zero_add (8 * cfg.N), hadd, hadd, hx _ (by omega)]
  · rw [Mem.blit_of_ge (by omega), Mem.blit_of_ge (by omega)]

/-- The transposition moves the samples of several channels. -/
theorem exists_frameMessage_ne {conv : UInt32 → Int8} (h32 : cfg.f32bit = true)
    (hr : cfg.rowmajor = true) (hn : cfg.noheader = true) (hf : cfg.Fits) (hN : 2 ≤ cfg.N)
    (hB : 2 ≤ cfg.B) :
    ∃ f, cfg.frameMessage o (bitFormat o conv) f ≠ cfg.sampleBlocks (bitFormat o conv) f := by
  by_contra hall
  push Not at hall
  have hh : cfg.headerBytes = 0 := by simp [headerBytes, hn]
  have hs : cfg.sampleBytes = cfg.B / 2 * 8 := by simp [sampleBytes, h32]
  have hlen := packetlen_of_float h32 hf.elements.matrix
  have hmul : 2 * cfg.sampleBytes ≤ cfg.N * cfg.sampleBytes := Nat.mul_le_mul_right _ hN
  have hlt : 8 < cfg.N * cfg.sampleBytes := by omega
  -- the byte at the beginning of the second element, in the message and in the sample blocks
  have hbyte : ∀ x : Nat → Nat → UInt32,
      cfg.writeFrame o (bitFormat o conv) (fun _ => 0) (fun _ => 0) x 8 =
        cfg.sampleByte (bitFormat o conv) (x (8 / cfg.sampleBytes)) (8 % cfg.sampleBytes) := by
    intro x
    have h := congrArg (·[8]?) (hall ⟨fun _ => 0, fun _ => 0, x⟩)
    simp only [frameMessage, message, sampleBlocks_eq_read (show 0 < cfg.sampleBytes by omega),
      hlen, hh, Nat.zero_add] at h
    rw [Mem.getElem?_read hlt, Mem.getElem?_read hlt, Nat.zero_add] at h
    exact Option.some.inj h
  simp only [sampleByte, h32, if_true] at hbyte
  obtain ⟨w, hw⟩ := exists_bytes_ne (o := o) conv ((bitFormat o conv).bytes 0 0)
  by_cases hB4 : 4 ≤ cfg.B
  · -- the place of the second sample of the first channel
    have hdiv : 8 / cfg.sampleBytes = 0 := Nat.div_eq_of_lt (by omega)
    have hmod : 8 % cfg.sampleBytes = 8 := Nat.mod_eq_of_lt (by omega)
    simp only [hdiv, hmod] at hbyte
    have heq : cfg.writeFrame o (bitFormat o conv) (fun _ => 0) (fun _ => 0)
        (fun _ i => if i = 2 then w else 0) 8 =
          cfg.writeFrame o (bitFormat o conv) (fun _ => 0) (fun _ => 0) (fun _ _ => 0) 8 :=
      writeFrame_second h32 hr hn hf.elements hN hB4 fun i hi => if_neg hi
    rw [hbyte, hbyte] at heq
    exact hw heq
  · -- the place of the sample of the second channel
    have hS : cfg.sampleBytes = 8 := by omega
    simp only [hS, Nat.div_self (show 0 < 8 by decide), Nat.mod_self] at hbyte
    have hlost : Lost cfg o (bitFormat o conv) (fun _ => 0) 1 0 :=
      lost_raw h32 hr hf.elements hN hB hn
    have heq := hlost (fun _ => 0) (fun c _ => if c = 1 then w else 0) (fun _ _ => 0)
      fun d hd => funext fun _ => if_neg hd
    rw [hh, show 0 + 8 * (0 * cfg.N + 1) = 8 by omega, hbyte, hbyte] at heq
    exact hw heq

theorem frameMessage_eq_of_float (h32 : cfg.f32bit = true) (hn : cfg.noheader = true)
    (hf : cfg.Fits) (hr : cfg.rowmajor = true → cfg.N = 1) (f : Frame F) :
    cfg.frameMessage o ff f = cfg.sampleBlocks ff f := by
  refine frameMessage_eq hn (packetlen_of_float h32 hf.elements.matrix) fun c hc i hi => ?_
  cases hrow : cfg.rowmajor with
  | true => exact writeFrame_sample_of_one h32 hrow hn (hr hrow) hc hi
  | false => exact writeFrame_sample hf (fun _ => hrow) hc hi

/-- The length is that of the frame in the float format, and in the int8 format only when there are no
samples. In raw mode, what is published is the sample blocks if and only if the length is right and
the transposition does not move them. -/
theorem messages_iff {conv : UInt32 → Int8} (hf : cfg.Fits) (heven : 2 ∣ cfg.B) :
    (cfg.packetlen = cfg.headerBytes + cfg.N * cfg.sampleBytes ↔
      cfg.f32bit = true ∨ cfg.N * cfg.B = 0) ∧
    (cfg.noheader = true →
      ((∀ frames : List (Frame UInt32), frames.flatMap (cfg.frameMessage o (bitFormat o conv)) =
          frames.flatMap (cfg.sampleBlocks (bitFormat o conv))) ↔
        cfg.N * cfg.B = 0 ∨ cfg.f32bit = true ∧ (cfg.rowmajor = true → cfg.N = 1))) := by
  refine ⟨packetlen_iff hf heven, fun hn => ⟨fun hall => ?_, fun h frames => ?_⟩⟩
  · have hone : ∀ f : Frame UInt32, cfg.frameMessage o (bitFormat o conv) f =
        cfg.sampleBlocks (bitFormat o conv) f := fun f => by simpa using hall [f]
    have hh : cfg.headerBytes = 0 := by simp [headerBytes, hn]
    have hlen : cfg.packetlen = cfg.headerBytes + cfg.N * cfg.sampleBytes := by
      have h := congrArg List.length (hone ⟨fun _ => 0, fun _ => 0, fun _ _ => 0⟩)
      rwa [length_frameMessage, length_sampleBlocks, ← Nat.zero_add (cfg.N * _), ← hh] at h
    rcases Nat.eq_zero_or_pos (cfg.N * cfg.B) with hz | hpos
    · exact .inl hz
    · have h32 := ((packetlen_iff hf heven).mp hlen).resolve_right (by omega)
      refine .inr ⟨h32, fun hr => ?_⟩
      by_contra hN
      have hN0 : 0 < cfg.N := Nat.pos_of_mul_pos_right hpos
      have hB0 : 0 < cfg.B := Nat.pos_of_mul_pos_left hpos
      obtain ⟨f, hne⟩ : ∃ f, cfg.frameMessage o (bitFormat o conv) f ≠
          cfg.sampleBlocks (bitFormat o conv) f :=
        exists_frameMessage_ne h32 hr hn hf (by omega) (by omega)
      exact hne (hone f)
  · rw [List.flatMap, List.flatMap]
    congr 1
    refine List.map_congr_left fun f _ => ?_
    rcases h with hz | ⟨h32, hr⟩
    · -- both are empty
      have hS : cfg.N * cfg.sampleBytes = 0 := by
        rw [Nat.mul_eq_zero, sampleBytes_eq_zero heven, ← Nat.mul_eq_zero]
        exact hz
      have hlen := (packetlen_iff hf heven).mpr (.inr hz)
      have hh : cfg.headerBytes = 0 := by simp [headerBytes, hn]
      rw [List.length_eq_zero_iff.mp ((length_frameMessage f).trans (by omega)),
        List.length_eq_zero_iff.mp ((length_sampleBlocks f).trans hS)]
    · exact frameMessage_eq_of_float h32 hn hf hr f

theorem messages_iff_rawFloats :
    (rawFloats 1).packetlen = 8 ∧
      ∀ frames : List (Frame UInt32),
        frames.flatMap ((rawFloats 1).frameMessage .little (bitFormat .little fun _ => 0)) =
          frames.flatMap ((rawFloats 1).sampleBlocks (bitFormat .little fun _ => 0)) := by
  have hf : (rawFloats 1).Fits := by unfold Fits; decide
  exact ⟨((@messages_iff _ .little (fun _ => 0) hf (by decide)).1.mpr (.inl rfl)).trans
    (by decide), ((messages_iff hf (by decide)).2 rfl).mpr (.inr ⟨rfl, fun _ => rfl⟩)⟩

/-- One channel of one complex sample in the int8 format, raw: two bytes of samples, four published. -/
theorem not_packetlen_eq :
    ¬ ∀ cfg : TransportConfig, cfg.Fits → 2 ∣ cfg.B →
      cfg.packetlen = cfg.headerBytes + cfg.N * cfg.sampleBytes := by
  intro h
  exact absurd (h ⟨true, false, false, 1, 2⟩ (by unfold Fits; decide) (by decide)) (by decide)

end TransportConfig
end Aegir
