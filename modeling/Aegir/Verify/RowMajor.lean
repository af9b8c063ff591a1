import Aegir.Verify.Layout

/-!
# The row-major option

`write` transposes in place, once for each channel, from the start of the buffer to the element that
its own byte location is divided down to. `RowMajor` is the matrix that the option promises. A frame
has it in one configuration only, raw mode with one channel, where the transposition copies every
element to itself (`rowMajor_iff`). In every other one some sample is `Lost`. With a header the
first transposition puts header words where the first sample belongs; in raw mode with several
channels the element of the second channel is overwritten by one that does not depend on it. In the
largest packets the element of the last channel wraps around to the header, and the last
transposition does not reach the samples that were stored just before it.
-/

namespace Aegir

namespace TransportConfig

/-- Floats given by their bit patterns. The kernel of the int8 format plays no part here. -/
def bitFormat (o : ByteOrder) (conv : UInt32 → Int8) : FloatFormat UInt32 where
  bytes w i := byteOf w.toNat (o.place 4 i)
  convert8i := conv

/-- One frame: `write` for each channel in turn. -/
def writeFrame {F : Type*} (cfg : TransportConfig) (o : ByteOrder) (ff : FloatFormat F) (m : Mem)
    (r : Nat → UInt32) (x : Nat → Nat → F) : Mem :=
  (List.range cfg.N).foldl (fun m c => cfg.write o ff m c (r c) (x c)) m

/-- Behind the header the packet has the whole matrix, its complex element `i * N + c` is the sample
`i` of channel `c`; the readcounts are `r`. -/
structure RowMajor {F : Type*} (cfg : TransportConfig) (o : ByteOrder) (ff : FloatFormat F)
    (r : Nat → UInt32) (x : Nat → Nat → F) (m : Mem) : Prop where
  payload : cfg.headerBytes + 8 * (cfg.N * (cfg.B / 2)) ≤ cfg.packetlen
  element : ∀ c < cfg.N, ∀ i < cfg.B / 2, ∀ j < 8,
    m (cfg.headerBytes + 8 * (i * cfg.N + c) + j) = ff.bytes (x c (2 * i + j / 4)) (j % 4)
  readcnt : cfg.noheader = false → ∀ c < cfg.N, m.load32 o (16 + 4 * c) = r c

/-- A frame made in `m` does not show the sample `i` of channel `c`: the first byte of its element
does not depend on the samples of the channel. -/
def Lost {F : Type*} (cfg : TransportConfig) (o : ByteOrder) (ff : FloatFormat F) (m : Mem)
    (c i : Nat) : Prop :=
  ∀ (r : Nat → UInt32) (x x' : Nat → Nat → F), (∀ d, d ≠ c → x d = x' d) →
    cfg.writeFrame o ff m r x (cfg.headerBytes + 8 * (i * cfg.N + c)) =
      cfg.writeFrame o ff m r x' (cfg.headerBytes + 8 * (i * cfg.N + c))

variable {F : Type*} {cfg : TransportConfig} {o : ByteOrder} {ff : FloatFormat F} {m : Mem}
  {c i : Nat} {r : Nat → UInt32} {x x' : Nat → Nat → F}

/-! ## The transposition -/

theorem copyElem_self (size : Nat) (m : Mem) (n : Nat) : copyElem size m n n = m := by
  funext i
  simp only [copyElem, Mem.blit, overwrite]
  split
  · congr 1; omega
  · rfl

theorem copyElem_add {size dst src : Nat} (h : i < size) :
    copyElem size m dst src (size * dst + i) = m (size * src + i) := Mem.blit_add h

/-- Copies whose sources lie below an address give below it what they give in any other buffer that
is the same below it. -/
theorem foldl_copyElem_congr {ps : List (Nat × Nat)} {a : Nat} {m m' : Mem}
    (hps : ∀ p ∈ ps, 8 * p.2 + 8 ≤ a) (h : ∀ i < a, m i = m' i) :
    ∀ i < a, ps.foldl (fun m p => copyElem 8 m p.1 p.2) m i =
      ps.foldl (fun m p => copyElem 8 m p.1 p.2) m' i := by
  induction ps generalizing m m' with
  | nil => exact h
  | cons p ps ih =>
    refine ih (fun q hq => hps q (List.mem_cons_of_mem _ hq)) fun i hi => ?_
    have hp := hps p List.mem_cons_self
    simp only [copyElem, Mem.blit, overwrite]
    split
    · exact h _ (by omega)
    · exact h i hi

/-- Two copies from the start of the buffer over a block that lies behind it hide the block. -/
theorem copyElem_copyElem_blit {h a : Nat} {src : Nat → UInt8} (hh : 2 ≤ h) (hle : 8 * h ≤ a)
    (hge : a ≤ 8 * h + 8) :
    copyElem 8 (copyElem 8 (m.blit a 8 src) h 0) (h + 1) 1 =
      copyElem 8 (copyElem 8 m h 0) (h + 1) 1 := by
  have hlt : ∀ i < a, m.blit a 8 src i = m i := fun i hi => Mem.blit_of_lt hi
  funext i
  simp only [copyElem]
  by_cases h1 : i < 8 * (h + 1) ∨ 8 * (h + 1) + 8 ≤ i
  · rw [Mem.blit_of_disjoint h1, Mem.blit_of_disjoint h1]
    by_cases h0 : i < 8 * h ∨ 8 * h + 8 ≤ i
    · rw [Mem.blit_of_disjoint h0, Mem.blit_of_disjoint h0, Mem.blit_of_disjoint (by omega)]
    · obtain ⟨k, rfl⟩ : ∃ k, i = 8 * h + k := ⟨i - 8 * h, by omega⟩
      rw [Mem.blit_add (by omega), Mem.blit_add (by omega), hlt _ (by omega)]
  · obtain ⟨k, rfl⟩ : ∃ k, i = 8 * (h + 1) + k := ⟨i - 8 * (h + 1), by omega⟩
    rw [Mem.blit_add (by omega), Mem.blit_add (by omega), Mem.blit_of_lt (by omega),
      hlt _ (by omega), Mem.blit_of_lt (by omega)]

/-- The transposition begins with the first elements of the first row; the rest of it leaves these
alone. -/
theorem copies_eq_append (hf : cfg.ElementsFit) (hN : 1 ≤ cfg.N) {n : Nat} (hn : n ≤ cfg.B / 2)
    (loc : Nat) :
    ∃ ps, cfg.copies loc = (List.range n).map (fun k => (loc + k, u32 (k * cfg.N))) ++ ps ∧
      ∀ p ∈ ps, loc + n ≤ p.1 := by
  obtain ⟨N', hN'⟩ : ∃ N', cfg.N = N' + 1 := ⟨cfg.N - 1, by omega⟩
  obtain ⟨d, hd⟩ : ∃ d, cfg.B / 2 = n + d := ⟨cfg.B / 2 - n, by omega⟩
  have hu : ∀ k, u32 (u32 k) = u32 k := fun k => by simp [u32]
  have hrow : ∀ r < cfg.N, u32 (r * (cfg.B / 2)) = r * (cfg.B / 2) := by
    intro r hr
    exact u32_of_lt ((Nat.mul_le_mul_right _ hr.le).trans_lt hf.matrix)
  refine ⟨(List.range d).map (fun k => (loc + (n + k), u32 ((n + k) * cfg.N))) ++
    ((List.range N').map Nat.succ).flatMap fun r => (List.range (cfg.B / 2)).map fun k =>
      (loc + u32 (r * (cfg.B / 2)) + k, u32 (u32 (k * cfg.N) + r)), ?_, ?_⟩
  · have hzero : u32 (0 * (cfg.B / 2)) = 0 := by simp [u32]
    rw [copies, shiftRight_one, hN', List.range_succ_eq_map, List.flatMap_cons, ← hN',
      ← List.append_assoc]
    congr 1
    rw [hd, List.range_add, List.map_append, List.map_map]
    simp only [← hd, hzero, Nat.add_zero, hu, Function.comp_def]
  · intro p hp
    rcases List.mem_append.mp hp with hp | hp
    · obtain ⟨k, -, rfl⟩ := List.mem_map.mp hp
      show loc + n ≤ loc + (n + k)
      omega
    · simp only [List.mem_flatMap, List.mem_map, List.mem_range] at hp
      obtain ⟨_, ⟨r, hr, rfl⟩, k, -, rfl⟩ := hp
      show loc + n ≤ loc + u32 ((r + 1) * (cfg.B / 2)) + k
      rw [hrow (r + 1) (by omega), Nat.succ_mul]
      omega

theorem convertToRowmajor_first (h32 : cfg.f32bit = true) (hf : cfg.ElementsFit) (hN : 1 ≤ cfg.N)
    {n : Nat} (hn : n ≤ cfg.B / 2) {loc : Nat} (hi : i < 8 * (loc + n)) :
    cfg.convertToRowmajor m loc i =
      (List.range n).foldl (fun m k => copyElem 8 m (loc + k) (u32 (k * cfg.N))) m i := by
  obtain ⟨ps, hps, hge⟩ := copies_eq_append hf hN hn loc
  rw [convertToRowmajor_eq h32, hps, List.foldl_append, foldl_copyElem_of_lt hge hi,
    List.foldl_map]

theorem convertToRowmajor_head (h32 : cfg.f32bit = true) (hf : cfg.ElementsFit) (hN : 1 ≤ cfg.N)
    (hB : 2 ≤ cfg.B) (loc : Nat) (hi : i < 8) : cfg.convertToRowmajor m loc (8 * loc + i) = m i := by
  rw [convertToRowmajor_first h32 hf hN (n := 1) (by omega) (by omega)]
  have h : copyElem 8 m loc 0 (8 * loc + i) = m (8 * 0 + i) := copyElem_add hi
  simpa [u32] using h

/-- With one channel the transposition from the start of the buffer changes nothing. -/
theorem convertToRowmajor_of_one (h32 : cfg.f32bit = true) (hN : cfg.N = 1) :
    cfg.convertToRowmajor m 0 = m := by
  have hB := cfg.B_lt
  have hself : ∀ p ∈ cfg.copies 0, p.1 = p.2 := by
    intro p hp
    simp only [copies, hN, shiftRight_one, List.mem_flatMap, List.mem_map, List.mem_range] at hp
    obtain ⟨r, hr, k, hk, rfl⟩ := hp
    obtain rfl : r = 0 := by omega
    simp only [u32]
    omega
  rw [convertToRowmajor_eq h32]
  generalize cfg.copies 0 = ps at hself
  induction ps with
  | nil => rfl
  | cons p ps ih =>
    rw [List.foldl_cons, hself p List.mem_cons_self, copyElem_self]
    exact ih fun q hq => hself q (List.mem_cons_of_mem _ hq)

/-! ## One call of `write` -/

theorem foldl_write_congr {cs : List Nat} (h : ∀ c ∈ cs, x c = x' c) :
    cs.foldl (fun m c => cfg.write o ff m c (r c) (x c)) m =
      cs.foldl (fun m c => cfg.write o ff m c (r c) (x' c)) m :=
  List.foldl_ext _ _ _ fun _ c hc => by rw [h c hc]

section
variable (h32 : cfg.f32bit = true) (hr : cfg.rowmajor = true)
include h32 hr

theorem write_eq_convertToRowmajor (hm : cfg.N * (cfg.B / 2) < 2 ^ 32) (hc : c < cfg.N) (q : UInt32)
    (inp : Nat → F) :
    cfg.write o ff m c q inp =
      cfg.convertToRowmajor
        ((cfg.writeReadcnt o m c q).blit (cfg.headerBytes + c * (cfg.B / 2 * 8)) (cfg.B / 2 * 8)
          fun i => ff.bytes (inp (i / 4)) (i % 4))
        (u32 ((cfg.headerBytes + c * (cfg.B / 2 * 8)) / 8)) := by
  simp only [write, h32, hr, if_true, sizeofComplex, byteLoc_eq hm hc, shiftRight_one]

theorem write_of_rowmajor (hf : cfg.ElementsFit) (hc : c < cfg.N) (q : UInt32) (inp : Nat → F) :
    cfg.write o ff m c q inp =
      cfg.convertToRowmajor
        ((cfg.writeReadcnt o m c q).blit (cfg.headerBytes + c * (cfg.B / 2 * 8)) (cfg.B / 2 * 8)
          fun i => ff.bytes (inp (i / 4)) (i % 4))
        ((cfg.headerBytes + c * (cfg.B / 2 * 8)) / 8) := by
  rw [write_eq_convertToRowmajor h32 hr hf.matrix hc, u32_of_lt (hf.channel c hc)]

/-- A call leaves the payload before its own element alone. -/
theorem write_of_lt_element (hf : cfg.ElementsFit) (hc : c < cfg.N) (hi : cfg.headerBytes ≤ i)
    (hlt : i < 8 * ((cfg.headerBytes + c * (cfg.B / 2 * 8)) / 8)) (q : UInt32) (inp : Nat → F) :
    cfg.write o ff m c q inp i = m i := by
  rw [write_of_rowmajor h32 hr hf hc, convertToRowmajor_of_lt h32 hlt, Mem.blit_of_lt (by omega)]
  simp only [writeReadcnt, sizeofHdr0, sizeofUint32]
  split
  · rfl
  · rename_i hn
    rw [headerBytes_of_header (Bool.eq_false_iff.mpr hn)] at hi
    exact Mem.store32_of_disjoint (by omega)

/-- The calls for the channels from `d` on leave the payload before the element of `d` alone. -/
theorem foldl_write_of_lt_element (hf : cfg.ElementsFit) {d : Nat} {cs : List Nat}
    (hcs : ∀ c ∈ cs, d ≤ c ∧ c < cfg.N) (hi : cfg.headerBytes ≤ i)
    (hlt : i < 8 * ((cfg.headerBytes + d * (cfg.B / 2 * 8)) / 8)) :
    cs.foldl (fun m c => cfg.write o ff m c (r c) (x c)) m i = m i := by
  induction cs generalizing m with
  | nil => rfl
  | cons c cs ih =>
    obtain ⟨hd, hc⟩ := hcs c List.mem_cons_self
    have hmul : d * (cfg.B / 2 * 8) ≤ c * (cfg.B / 2 * 8) := Nat.mul_le_mul_right _ hd
    rw [List.foldl_cons, ih fun b hb => hcs b (List.mem_cons_of_mem _ hb),
      write_of_lt_element h32 hr hf hc hi (by omega)]

/-- The frame, seen before the element of channel `d`: only the calls before `d` count. -/
theorem writeFrame_of_lt_element (hf : cfg.ElementsFit) {d : Nat} (hd : d ≤ cfg.N)
    (hi : cfg.headerBytes ≤ i)
    (hlt : i < 8 * ((cfg.headerBytes + d * (cfg.B / 2 * 8)) / 8)) :
    cfg.writeFrame o ff m r x i =
      (List.range d).foldl (fun m c => cfg.write o ff m c (r c) (x c)) m i := by
  obtain ⟨n, hn⟩ : ∃ n, cfg.N = d + n := ⟨cfg.N - d, by omega⟩
  rw [writeFrame, hn, List.range_add, List.foldl_append]
  refine foldl_write_of_lt_element h32 hr hf (fun c hc => ?_) hi hlt
  obtain ⟨k, hk, rfl⟩ := List.mem_map.mp hc
  have := List.mem_range.mp hk
  omega

/-- With a header, the first byte of the payload is a byte of the header. -/
theorem writeFrame_header (hf : cfg.ElementsFit) (hN : 1 ≤ cfg.N) (hB : 2 ≤ cfg.B)
    (hn : cfg.noheader = false) :
    cfg.writeFrame o ff m r x cfg.headerBytes = m (cfg.headerBytes % 8) := by
  have hh := headerBytes_of_header hn
  have hL : 1 ≤ cfg.B / 2 := by omega
  rw [writeFrame_of_lt_element h32 hr hf hN le_rfl (by omega)]
  have hconv : ∀ m : Mem, cfg.convertToRowmajor m (cfg.headerBytes / 8) cfg.headerBytes =
      m (cfg.headerBytes % 8) := by
    intro m
    have h := convertToRowmajor_head (m := m) h32 hf hN hB (cfg.headerBytes / 8)
      (Nat.mod_lt cfg.headerBytes (by decide : 0 < 8))
    rwa [Nat.div_add_mod] at h
  simp only [List.range_one, List.foldl_cons, List.foldl_nil, write_of_rowmajor h32 hr hf hN,
    Nat.zero_mul, Nat.add_zero]
  rw [hconv, Mem.blit_of_lt (by omega), writeReadcnt_of_disjoint (by omega)]

/-! ## The lost samples -/

theorem lost_header (hf : cfg.ElementsFit) (hN : 1 ≤ cfg.N) (hB : 2 ≤ cfg.B)
    (hn : cfg.noheader = false) : Lost cfg o ff m 0 0 := by
  intro r x x' _
  simp only [Nat.zero_mul, Nat.mul_zero, Nat.add_zero, writeFrame_header h32 hr hf hN hB hn]

/-- In raw mode with several channels, the element of the second channel does not depend on its
samples. -/
theorem lost_raw (hf : cfg.ElementsFit) (hN : 2 ≤ cfg.N) (hB : 2 ≤ cfg.B)
    (hn : cfg.noheader = true) : Lost cfg o ff m 1 0 := by
  intro r x x' hx
  have hh : cfg.headerBytes = 0 := by simp [headerBytes, hn]
  have hrc : ∀ (m : Mem) c q, cfg.writeReadcnt o m c q = m := by simp [writeReadcnt, hn]
  have hwrite : ∀ (m : Mem) q, cfg.write o ff m 0 q (x 0) = cfg.write o ff m 0 q (x' 0) :=
    fun m q => by rw [hx 0 (by decide)]
  have hL : 1 ≤ cfg.B / 2 := by omega
  rw [show cfg.headerBytes + 8 * (0 * cfg.N + 1) = 8 by omega]
  by_cases hB4 : 4 ≤ cfg.B
  · -- element 1 lies in the first row already
    rw [writeFrame_of_lt_element h32 hr hf (d := 1) (by omega) (by omega) (by omega),
      writeFrame_of_lt_element h32 hr hf (d := 1) (by omega) (by omega) (by omega)]
    simp only [List.range_one, List.foldl_cons, List.foldl_nil, hwrite]
  · -- one sample a channel: the second call copies element 0 to element 1
    have hone : cfg.B / 2 = 1 := by omega
    rw [writeFrame_of_lt_element h32 hr hf (d := 2) (by omega) (by omega) (by omega),
      writeFrame_of_lt_element h32 hr hf (d := 2) (by omega) (by omega) (by omega)]
    have hsecond : ∀ (m : Mem) q inp, cfg.write o ff m 1 q inp 8 = m 0 := by
      intro m q inp
      rw [write_of_rowmajor h32 hr hf hN, hh, hone, hrc]
      exact (convertToRowmajor_head h32 hf (by omega) hB 1 (by decide : 0 < 8)).trans
        (Mem.blit_of_lt (by omega))
    simp only [List.range_succ, List.range_zero, List.nil_append, List.cons_append,
      List.foldl_cons, List.foldl_nil, hsecond, hwrite]

/-- With one sample a channel and a header, the first transposition overwrites the sample of the
first channel with header words. -/
theorem lost_first (hN : 2 ≤ cfg.N) (hL : cfg.B / 2 = 1) (hn : cfg.noheader = false) :
    Lost cfg o ff m 0 0 := by
  intro r x x' hx
  have hh := headerBytes_of_header hn
  have hlt := cfg.N_lt
  obtain ⟨n, hN'⟩ : ∃ n, cfg.N = n + 2 := ⟨cfg.N - 2, by omega⟩
  obtain ⟨ps, hps⟩ : ∃ ps, cfg.copies (cfg.headerBytes / 8) =
      (cfg.headerBytes / 8, 0) :: (cfg.headerBytes / 8 + 1, 1) :: ps := by
    simp [copies, shiftRight_one, hL, hN', List.range_succ_eq_map, u32]
  have hfirst : ∀ inp, cfg.write o ff m 0 (r 0) inp = ps.foldl (fun m p => copyElem 8 m p.1 p.2)
      (copyElem 8 (copyElem 8 (cfg.writeReadcnt o m 0 (r 0)) (cfg.headerBytes / 8) 0)
        (cfg.headerBytes / 8 + 1) 1) := by
    intro inp
    rw [write_eq_convertToRowmajor h32 hr (by rw [hL]; omega) (by omega), Nat.zero_mul,
      Nat.add_zero, u32_of_lt (by omega), convertToRowmajor_eq h32, hps, List.foldl_cons,
      List.foldl_cons, hL, Nat.one_mul, copyElem_copyElem_blit (by omega) (by omega) (by omega)]
  rw [writeFrame, writeFrame, hN', List.range_succ_eq_map, List.foldl_cons, List.foldl_cons,
    hfirst, hfirst, foldl_write_congr fun c hc => ?_]
  obtain ⟨d, -, rfl⟩ := List.mem_map.mp hc
  exact hx _ (Nat.succ_ne_zero d)

/-- Where the last channel lies past the elements that 32 bits count, the last transposition goes to
the header and reads none of the samples that the call has stored. -/
theorem lost_last (hm : cfg.N * (cfg.B / 2) < 2 ^ 32) (hN : 2 ≤ cfg.N) (hL : 2 ≤ cfg.B / 2)
    (hge : 2 ^ 32 ≤ (cfg.headerBytes + (cfg.N - 1) * (cfg.B / 2 * 8)) / 8) :
    Lost cfg o ff m (cfg.N - 1) 0 := by
  intro r x x' hx
  obtain ⟨n, hN'⟩ : ∃ n, cfg.N = n + 1 := ⟨cfg.N - 1, by omega⟩
  have hn : cfg.N - 1 = n := by omega
  rw [hn] at hx hge ⊢
  have hlt : cfg.headerBytes + 8 * (0 * cfg.N + n) < cfg.headerBytes + n * (cfg.B / 2 * 8) := by
    have hmul : n * 2 ≤ n * (cfg.B / 2) := Nat.mul_le_mul_left _ hL
    rw [mul_channelBytes]
    omega
  have hbefore : ∀ d ∈ List.range n, x d = x' d := fun d hd =>
    hx d (Nat.ne_of_lt (List.mem_range.mp hd))
  rw [writeFrame, writeFrame, hN', List.range_succ, List.foldl_append, List.foldl_append, ← hN',
    foldl_write_congr hbefore]
  simp only [List.foldl_cons, List.foldl_nil]
  rw [write_eq_convertToRowmajor h32 hr hm (by omega), write_eq_convertToRowmajor h32 hr hm
    (by omega), convertToRowmajor_eq h32, convertToRowmajor_eq h32]
  refine foldl_copyElem_congr (fun p hp => ?_) (fun i hi => ?_) _ hlt
  · simp only [copies, List.mem_flatMap, List.mem_map] at hp
    obtain ⟨k, -, l, -, rfl⟩ := hp
    have hu : u32 (u32 (l * cfg.N) + k) < 2 ^ 32 := Nat.mod_lt _ (by decide)
    show 8 * u32 (u32 (l * cfg.N) + k) + 8 ≤ _
    omega
  · rw [Mem.blit_of_lt hi, Mem.blit_of_lt hi]

/-- In every configuration but one, some sample is lost. -/
theorem exists_lost (hN : 1 ≤ cfg.N) (hB : 2 ≤ cfg.B) (hm : cfg.N * (cfg.B / 2) < 2 ^ 32)
    (h : ¬ (cfg.noheader = true ∧ cfg.N = 1)) :
    ∃ c < cfg.N, ∃ i < cfg.B / 2, Lost cfg o ff m c i := by
  have hL : 1 ≤ cfg.B / 2 := by omega
  have hlast : ∀ c < cfg.N, c * (cfg.B / 2 * 8) ≤ (cfg.N - 1) * (cfg.B / 2 * 8) :=
    fun c hc => Nat.mul_le_mul_right _ (by omega)
  cases hn : cfg.noheader with
  | true =>
    have hN2 : 2 ≤ cfg.N := by
      have h1 : cfg.N ≠ 1 := fun h1 => h ⟨hn, h1⟩
      omega
    have hf : cfg.ElementsFit := by
      refine ⟨hm, fun c hc => ?_⟩
      have hle : c * (cfg.B / 2) ≤ cfg.N * (cfg.B / 2) := Nat.mul_le_mul_right _ hc.le
      have hh : cfg.headerBytes = 0 := by simp [headerBytes, hn]
      rw [hh, mul_channelBytes]
      omega
    exact ⟨1, hN2, 0, hL, lost_raw h32 hr hf hN2 hB hn⟩
  | false =>
    by_cases hfit : (cfg.headerBytes + (cfg.N - 1) * (cfg.B / 2 * 8)) / 8 < 2 ^ 32
    · have hf : cfg.ElementsFit := ⟨hm, fun c hc => by have := hlast c hc; omega⟩
      exact ⟨0, hN, 0, hL, lost_header h32 hr hf hN hB hn⟩
    · have hh := headerBytes_of_header hn
      have hN2 : 2 ≤ cfg.N := by
        by_contra hN2
        have h1 : cfg.N = 1 := by omega
        rw [hh, h1] at hfit
        omega
      by_cases hL1 : cfg.B / 2 = 1
      · exact ⟨0, hN, 0, hL, lost_first h32 hr hN2 hL1 hn⟩
      · exact ⟨cfg.N - 1, by omega, 0, hL, lost_last h32 hr hm hN2 (by omega) (by omega)⟩

/-- In raw mode with one channel, the frame is the samples. -/
theorem rowMajor_of_raw_one (hn : cfg.noheader = true) (hN : cfg.N = 1) :
    RowMajor cfg o ff r x (cfg.writeFrame o ff m r x) where
  payload := by
    have hB := cfg.B_lt
    simp only [headerBytes, packetlen, packetlength, hn, h32, hN, if_true, Nat.one_mul,
      shiftRight_one, sizeofComplex, u32]
    omega
  element c hc i hi j hj := by
    obtain rfl : c = 0 := by omega
    have hh : cfg.headerBytes = 0 := by simp [headerBytes, hn]
    have hloc : cfg.byteLoc 0 = 0 := by simp [byteLoc, hh, u64]
    have hu : u32 (0 / 8) = 0 := by simp [u32]
    simp only [writeFrame, hN, List.range_one, List.foldl_cons, List.foldl_nil, write, h32, hr,
      if_true, writeReadcnt, hn, hloc, sizeofComplex, hu, convertToRowmajor_of_one h32 hN,
      shiftRight_one, hh]
    have hb : ∀ k < cfg.B / 2 * 8, m.blit 0 (cfg.B / 2 * 8) (fun k => ff.bytes (x 0 (k / 4)) (k % 4))
        (0 + k) = ff.bytes (x 0 (k / 4)) (k % 4) := fun k hk => Mem.blit_add hk
    rw [Nat.add_assoc, hb _ (by omega)]
    congr 1
    · congr 1; omega
    · omega
  readcnt h := by rw [hn] at h; cases h

end

theorem exists_bytes_ne (conv : UInt32 → Int8) (b : UInt8) :
    ∃ w, (bitFormat o conv).bytes w 0 ≠ b := by
  by_cases hb : b = 0
  · refine ⟨0x01010101, ?_⟩
    subst hb
    show byteOf (0x01010101 : UInt32).toNat (o.place 4 0) ≠ 0
    cases o <;> decide
  · refine ⟨0, fun h => hb (h.symm.trans ?_)⟩
    show byteOf (0 : UInt32).toNat (o.place 4 0) = 0
    cases o <;> decide

/-- A lost sample has a value with which the frame is wrong. -/
theorem Lost.not_rowMajor {conv : UInt32 → Int8} (h : Lost cfg o (bitFormat o conv) m c i)
    (hc : c < cfg.N) (hi : i < cfg.B / 2) :
    ¬ ∀ r x, RowMajor cfg o (bitFormat o conv) r x (cfg.writeFrame o (bitFormat o conv) m r x) := by
  intro hall
  -- all samples zero, and other samples of the channel `c`
  let x (w : UInt32) : Nat → Nat → UInt32 := fun d _ => if d = c then w else 0
  obtain ⟨w, hw⟩ := exists_bytes_ne (o := o) conv ((bitFormat o conv).bytes 0 0)
  have hel : ∀ w, cfg.writeFrame o (bitFormat o conv) m (fun _ => 0) (x w)
      (cfg.headerBytes + 8 * (i * cfg.N + c)) = (bitFormat o conv).bytes w 0 := by
    intro w
    have hx := (hall (fun _ => 0) (x w)).element c hc i hi 0 (by decide)
    simpa [x] using hx
  have hx : ∀ d, d ≠ c → x w d = x 0 d := by
    intro d hd
    simp [x, hd]
  exact hw ((hel w).symm.trans ((h _ _ _ hx).trans (hel 0)))

/-- The option interleaves the channels of every frame in raw mode with one channel, and in no other
configuration, whatever the buffer contained. -/
theorem rowMajor_iff {conv : UInt32 → Int8} (h32 : cfg.f32bit = true) (hr : cfg.rowmajor = true)
    (hN : 1 ≤ cfg.N) (hB : 2 ≤ cfg.B) :
    (∀ r x, RowMajor cfg o (bitFormat o conv) r x (cfg.writeFrame o (bitFormat o conv) m r x)) ↔
      cfg.noheader = true ∧ cfg.N = 1 := by
  refine ⟨fun h => ?_, fun ⟨hn, h1⟩ r x => rowMajor_of_raw_one h32 hr hn h1⟩
  by_contra hone
  -- a packet that has the whole matrix counts its elements in 32 bits
  have hm : cfg.N * (cfg.B / 2) < 2 ^ 32 := by
    have hp := (h (fun _ => 0) fun _ _ => 0).payload
    have hu : u32 (cfg.N * (cfg.B / 2)) < 2 ^ 32 := Nat.mod_lt _ (by decide)
    simp only [headerBytes, packetlen, packetlength, h32, if_true, shiftRight_one, sizeofComplex,
      sizeofUint32] at hp
    split at hp <;> omega
  obtain ⟨c, hc, i, hi, hlost⟩ : ∃ c < cfg.N, ∃ i < cfg.B / 2, Lost cfg o (bitFormat o conv) m c i :=
    exists_lost h32 hr hN hB hm hone
  exact hlost.not_rowMajor hc hi h

/-- Raw float packets of one complex sample a channel. -/
def rawFloats (nchannels : UInt32) : TransportConfig := ⟨true, true, true, nchannels, 2⟩

theorem rowMajor_rawFloats :
    (∀ r x, RowMajor (rawFloats 1) .little (bitFormat .little fun _ => 0) r x
      ((rawFloats 1).writeFrame .little (bitFormat .little fun _ => 0) (fun _ => 255) r x)) ∧
    ¬ ∀ r x, RowMajor (rawFloats 3) .little (bitFormat .little fun _ => 0) r x
      ((rawFloats 3).writeFrame .little (bitFormat .little fun _ => 0) (fun _ => 255) r x) :=
  ⟨(rowMajor_iff rfl rfl (by decide) (by decide)).2 ⟨rfl, rfl⟩, fun h =>
    absurd ((rowMajor_iff rfl rfl (by decide) (by decide)).1 h).2 (by decide)⟩

/-- Two channels with the samples 1 and 2: both elements of the payload are 1. -/
theorem not_rowMajor :
    ¬ ∀ (cfg : TransportConfig) (m : Mem) (r : Nat → UInt32) (x : Nat → Nat → UInt32),
      cfg.f32bit = true → cfg.rowmajor = true → 1 ≤ cfg.N → 2 ≤ cfg.B → 2 ∣ cfg.B →
      RowMajor cfg .little (bitFormat .little fun _ => 0) r x
        (cfg.writeFrame .little (bitFormat .little fun _ => 0) m r x) := by
  intro h
  have hel := (h (rawFloats 2) (fun _ => 0) (fun _ => 0) (fun c _ => .ofNat (c + 1)) rfl rfl
    (by decide) (by decide) (by decide)).element 1 (by decide) 0 (by decide) 0 (by decide)
  exact absurd hel (by decide)

end TransportConfig
end Aegir
