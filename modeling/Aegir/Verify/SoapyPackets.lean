import Aegir.Model.TransportSoapy
import Aegir.Verify.RowMajor

/-!
# The packets of the two transports

The two transports differ in where `write` stores the samples. `ctransport` counts bytes;
`ctransportsoapy` counts elements, also those of the header, although the header is counted in bytes. So
in the complex float format with header the samples are elsewhere, and the packets are the same if and
only if the samples of no channel are seen (`samePackets_iff`): without overflow this is so only when
there are none.
-/

namespace Aegir

/-- The buffers agree as far as a packet reaches. -/
def AgreeBelow (n : Nat) (m m' : Mem) : Prop := ∀ i < n, m i = m' i

namespace AgreeBelow

variable {n a b k : Nat} {m m' : Mem} {src : Nat → UInt8}

theorem blit (h : AgreeBelow n m m') : AgreeBelow n (m.blit a k src) (m'.blit a k src) :=
  fun i hi => Mem.blit_congr (h i hi)

/-- What is stored behind the packet is not seen. -/
theorem blit_of_ge (h : AgreeBelow n m m') (ha : n ≤ a) (hb : n ≤ b) :
    AgreeBelow n (m.blit a k src) (m'.blit b k src) := fun i hi => by
  rw [Mem.blit_of_lt (by omega), Mem.blit_of_lt (by omega)]
  exact h i hi

end AgreeBelow

namespace TransportConfig

variable {F : Type*} {cfg : TransportConfig} {o : ByteOrder} {ff : FloatFormat F} {m m' : Mem}
  {n c : Nat} {q r : UInt32} {inp : Nat → F}

theorem agree_fillHeader (h : AgreeBelow n m m') :
    AgreeBelow n (cfg.fillHeader o m q) (cfg.fillHeader o m' q) := by
  unfold fillHeader Mem.store32
  exact h.blit.blit.blit.blit

theorem agree_writeReadcnt (h : AgreeBelow n m m') :
    AgreeBelow n (cfg.writeReadcnt o m c r) (cfg.writeReadcnt o m' c r) := by
  unfold writeReadcnt
  split
  · exact h
  · exact h.blit

/-! ## The locations -/

/-- In the int8 format the locations are the same. -/
theorem soapyWrite_of_int8 (h8 : cfg.f32bit = false) :
    cfg.soapyWrite o ff m c r inp = cfg.write o ff m c r inp := by
  have hloc : cfg.soapyLoc c = cfg.loc8 c := by
    cases hn : cfg.noheader with
    | true =>
      have hlt : u32 (c * cfg.B) < 2 ^ 32 := Nat.mod_lt _ (by norm_num)
      simp [soapyLoc, loc8, headerBytes, hn, h8, u32_of_lt hlt]
    | false => simp [soapyLoc, loc8, headerBytes, hn, h8]
  simp only [soapyWrite, write, h8, Bool.false_eq_true, if_false, hloc]

theorem byteLoc_eq_mod (c : Nat) :
    cfg.byteLoc c = (cfg.headerBytes + 8 * (c * (cfg.B / 2))) % 2 ^ 64 := by
  rw [byteLoc, shiftRight_one, sizeofComplex, mul_channelBytes, u64]

section
variable (h32 : cfg.f32bit = true)
include h32

theorem soapyLoc_eq_mod (c : Nat) :
    cfg.soapyLoc c = (cfg.headerBytes + c * (cfg.B / 2)) % 2 ^ 32 := by
  cases hn : cfg.noheader with
  | true => simp only [soapyLoc, headerBytes, hn, h32, if_true, shiftRight_one, u32, Nat.zero_add]
  | false =>
    simp only [soapyLoc, headerBytes, hn, h32, if_true, Bool.false_eq_true, if_false, shiftRight_one,
      u32, Nat.add_mod_mod]

theorem packetlen_eq_mod :
    cfg.packetlen = cfg.headerBytes + 8 * (cfg.N * (cfg.B / 2) % 2 ^ 32) := by
  cases hn : cfg.noheader with
  | true =>
    simp only [packetlen, packetlength, headerBytes, hn, h32, if_true, shiftRight_one, u32, sizeofComplex]
    omega
  | false =>
    simp only [packetlen, packetlength, headerBytes, hn, h32, if_true, Bool.false_eq_true, if_false,
      shiftRight_one, u32, sizeofComplex, Nat.mul_comm sizeofUint32]
    omega

variable (hr : cfg.rowmajor = false)
include hr

theorem write_of_float : cfg.write o ff m c r inp =
    (cfg.writeReadcnt o m c r).blit (cfg.byteLoc c) (cfg.B / 2 * 8) fun i =>
      ff.bytes (inp (i / 4)) (i % 4) := by
  simp only [write, h32, hr, if_true, Bool.false_eq_true, if_false, shiftRight_one, sizeofComplex]

theorem soapyWrite_of_float : cfg.soapyWrite o ff m c r inp =
    (cfg.writeReadcnt o m c r).blit (8 * cfg.soapyLoc c) (cfg.B / 2 * 8) fun i =>
      ff.bytes (inp (i / 4)) (i % 4) := by
  simp only [soapyWrite, h32, hr, if_true, Bool.false_eq_true, if_false, shiftRight_one, sizeofComplex]

end

/-- In the complex float format, the samples of each channel are at one place, or behind the packet in
both transports. -/
def SameLocations (cfg : TransportConfig) : Prop :=
  cfg.f32bit = true → 2 ≤ cfg.B → ∀ c < cfg.N,
    let ctransport := (cfg.headerBytes + 8 * (c * (cfg.B / 2))) % 2 ^ 64
    let ctransportsoapy := 8 * ((cfg.headerBytes + c * (cfg.B / 2)) % 2 ^ 32)
    let packetlen := cfg.headerBytes + 8 * (cfg.N * (cfg.B / 2) % 2 ^ 32)
    ctransport = ctransportsoapy ∨ packetlen ≤ ctransport ∧ packetlen ≤ ctransportsoapy

/-- Then the samples of a call are seen in neither packet, or in both. -/
theorem SameLocations.agree_write (h : cfg.SameLocations) (hr : cfg.rowmajor = false) (hc : c < cfg.N)
    (hm : AgreeBelow cfg.packetlen m m') :
    AgreeBelow cfg.packetlen (cfg.write o ff m c r inp) (cfg.soapyWrite o ff m' c r inp) := by
  have hword : AgreeBelow cfg.packetlen (cfg.writeReadcnt o m c r) (cfg.writeReadcnt o m' c r) :=
    agree_writeReadcnt hm
  cases h32 : cfg.f32bit with
  | false =>
    rw [soapyWrite_of_int8 h32]
    simp only [write, h32, Bool.false_eq_true, if_false, convto8bit]
    exact hword.blit
  | true =>
    rw [write_of_float h32 hr, soapyWrite_of_float h32 hr]
    rcases Nat.lt_or_ge cfg.B 2 with hB | hB
    · have hzero : cfg.B / 2 * 8 = 0 := by omega
      intro i hi
      rw [hzero, Mem.blit_of_disjoint (by omega), Mem.blit_of_disjoint (by omega)]
      exact hword i hi
    · have hloc := h h32 hB c hc
      simp only [← byteLoc_eq_mod, ← soapyLoc_eq_mod h32, ← packetlen_eq_mod h32] at hloc
      rcases hloc with heq | ⟨hle, hle'⟩
      · rw [heq]
        exact hword.blit
      · exact hword.blit_of_ge hle hle'

end TransportConfig

/-! ## Sequences of operations -/

namespace PacketBuffers

open TransportConfig

variable {F : Type*} {cfg : TransportConfig} {o : ByteOrder} {ff : FloatFormat F}
  {s t : PacketBuffers}

/-- Both buffers agree as far as the packets reach. -/
structure Agree (cfg : TransportConfig) (s t : PacketBuffers) : Prop where
  packetbuf0 : AgreeBelow cfg.packetlen s.packetbuf0 t.packetbuf0
  packetbuf1 : AgreeBelow cfg.packetlen s.packetbuf1 t.packetbuf1
  globalseqn : s.globalseqn = t.globalseqn

theorem Agree.refl (s : PacketBuffers) : Agree cfg s s := ⟨fun _ _ => rfl, fun _ _ => rfl, rfl⟩

/-- The channel of a call exists. -/
def InChannels (cfg : TransportConfig) : TransportOp F → Prop
  | .write channeln _ _ => channeln < cfg.N
  | .header | .notifysend => True

theorem Agree.apply (hcfg : cfg.SameLocations) (hr : cfg.rowmajor = false) (h : Agree cfg s t)
    {op : TransportOp F} (hop : InChannels cfg op) :
    Agree cfg (s.applyCtransport cfg o ff op) (t.applyCtransportsoapy cfg o ff op) := by
  cases op with
  | write c r x => exact ⟨hcfg.agree_write hr hop h.packetbuf0, h.packetbuf1, h.globalseqn⟩
  | header =>
    cases hn : cfg.noheader with
    | true => simpa only [applyCtransport, applyCtransportsoapy, PacketBuffers.apply, hn, if_true] using h
    | false =>
      simp only [applyCtransport, applyCtransportsoapy, PacketBuffers.apply, hn, Bool.false_eq_true,
        if_false, h.globalseqn]
      exact ⟨agree_fillHeader h.packetbuf0, h.packetbuf1, rfl⟩
  | notifysend => exact ⟨h.packetbuf1, h.packetbuf0, h.globalseqn⟩

theorem Agree.foldl (hcfg : cfg.SameLocations) (hr : cfg.rowmajor = false) (h : Agree cfg s t)
    {ops : List (TransportOp F)} (hops : ∀ op ∈ ops, InChannels cfg op) :
    Agree cfg (ops.foldl (applyCtransport cfg o ff) s) (ops.foldl (applyCtransportsoapy cfg o ff) t) := by
  induction ops generalizing s t with
  | nil => exact h
  | cons op ops ih =>
    rw [List.forall_mem_cons] at hops
    exact ih (h.apply hcfg hr hops.1) hops.2

/-- The two transports, with the same contents of the buffers, have the same packet after each call of
`notifysend`. -/
def SamePackets (cfg : TransportConfig) (o : ByteOrder) (ff : FloatFormat F) : Prop :=
  ∀ (s : PacketBuffers) (ops : List (TransportOp F)), (∀ op ∈ ops, InChannels cfg op) →
    cfg.message ((ops ++ [TransportOp.notifysend]).foldl (applyCtransport cfg o ff) s).packetbuf1 =
      cfg.message ((ops ++ [TransportOp.notifysend]).foldl (applyCtransportsoapy cfg o ff) s).packetbuf1

theorem samePackets_of_sameLocations (hcfg : cfg.SameLocations) (hr : cfg.rowmajor = false) :
    SamePackets cfg o ff := by
  intro s ops hops
  have hall : ∀ op ∈ ops ++ [TransportOp.notifysend], InChannels cfg op := by
    intro op hop
    rcases List.mem_append.mp hop with hop | hop
    · exact hops op hop
    · rw [List.mem_singleton.mp hop]
      trivial
  exact List.map_congr_left fun i hi =>
    ((Agree.refl s).foldl hcfg hr hall).packetbuf1 (0 + i) (by simpa using hi)

/-! ## Packets that differ -/

/-- Two buffers of ones. -/
def ones : PacketBuffers := ⟨fun _ => 255, fun _ => 255, 0⟩

/-- A call that stores ones as the readcount and zeros as samples. -/
def zeroCall (c : Nat) : TransportOp UInt32 := .write c 0xffffffff fun _ => 0

theorem byteOf_ones {i : Nat} (h : i < 4) : byteOf (0xffffffff : UInt32).toNat i = 255 := by
  interval_cases i <;> decide

theorem writeReadcnt_ones (c i : Nat) :
    cfg.writeReadcnt o (fun _ => 255) c 0xffffffff i = 255 := by
  unfold writeReadcnt
  split
  · rfl
  · generalize sizeofUint32 * (sizeofHdr0 / sizeofUint32 + c) = a
    by_cases hi : i < a ∨ a + 4 ≤ i
    · exact Mem.store32_of_disjoint hi
    · obtain ⟨j, rfl⟩ := Nat.exists_eq_add_of_le (show a ≤ i by omega)
      have hj : j < 4 := by omega
      exact (Mem.blit_add hj).trans (byteOf_ones (o.place_lt hj))

/-- Zeros stored at two addresses, of which the first is in the packet. -/
theorem not_agreeBelow_zeros {m : Mem} {a b n k : Nat} (hm : ∀ i, m i = 255) (hk : 0 < k) (ha : a < n)
    (hab : a < b) : ¬AgreeBelow n (m.blit a k fun _ => 0) (m.blit b k fun _ => 0) := by
  intro h
  have hzero : m.blit a k (fun _ => 0) (a + 0) = 0 := Mem.blit_add hk
  have hones : m.blit b k (fun _ => 0) a = 255 := (Mem.blit_of_lt hab).trans (hm a)
  have hat := h a ha
  rw [Nat.add_zero] at hzero
  rw [hzero, hones] at hat
  cases hat

theorem agreeBelow_of_read {m m' : Mem} {n : Nat} (h : m.read 0 n = m'.read 0 n) :
    AgreeBelow n m m' := by
  intro i hi
  have hat := congrArg (·[i]?) h
  simp only [Mem.getElem?_read hi, Nat.zero_add, Option.some.injEq] at hat
  exact hat

theorem sameLocations_of_samePackets {conv : UInt32 → Int8} (hr : cfg.rowmajor = false)
    (h : SamePackets cfg o (bitFormat o conv)) : cfg.SameLocations := by
  intro h32 hB c hc
  have hpacket := h ones [zeroCall c] (by simpa [zeroCall, InChannels] using hc)
  have hagree : AgreeBelow cfg.packetlen
      (cfg.write o (bitFormat o conv) (fun _ => 255) c 0xffffffff fun _ => 0)
      (cfg.soapyWrite o (bitFormat o conv) (fun _ => 255) c 0xffffffff fun _ => 0) :=
    agreeBelow_of_read hpacket
  have hzero : ∀ j, (bitFormat o conv).bytes 0 j = 0 := fun j => by simp [bitFormat, byteOf]
  simp only [write_of_float h32 hr, soapyWrite_of_float h32 hr, hzero] at hagree
  have hm : ∀ i, cfg.writeReadcnt o (fun _ => 255) c 0xffffffff i = 255 := writeReadcnt_ones c
  have hk : 0 < cfg.B / 2 * 8 := by omega
  simp only [← byteLoc_eq_mod, ← soapyLoc_eq_mod h32, ← packetlen_eq_mod h32]
  by_contra hloc
  obtain ⟨hne, hseen⟩ := not_or.mp hloc
  -- the address that comes first is in the packet
  rcases Nat.lt_or_gt_of_ne hne with hlt | hlt
  · exact not_agreeBelow_zeros hm hk (by omega) hlt hagree
  · exact not_agreeBelow_zeros hm hk (by omega) hlt fun i hi => (hagree i hi).symm

/-- The condition, where the number of samples does not overflow. -/
theorem sameLocations_iff (hm : cfg.N * (cfg.B / 2) < 2 ^ 32) : cfg.SameLocations ↔
    (cfg.f32bit = true → cfg.noheader = true ∨ cfg.N = 0 ∨ cfg.B < 2) := by
  constructor
  · intro h h32
    by_contra hnot
    obtain ⟨hn, hnot⟩ := not_or.mp hnot
    obtain ⟨hN, hB⟩ := not_or.mp hnot
    have hh := headerBytes_of_header (Bool.eq_false_iff.mpr hn)
    have hlt := cfg.N_lt
    have hsamples : 0 < cfg.N * (cfg.B / 2) := Nat.mul_pos (by omega) (by omega)
    -- the first channel: the header is not eight times as long
    have hfirst := h h32 (by omega) 0 (by omega)
    simp only [Nat.zero_mul] at hfirst
    omega
  · intro h h32 hB c hc
    have hn : cfg.noheader = true := (h h32).resolve_right (by omega)
    have hh : cfg.headerBytes = 0 := by simp [headerBytes, hn]
    have hle : c * (cfg.B / 2) ≤ cfg.N * (cfg.B / 2) := Nat.mul_le_mul_right _ hc.le
    simp only [hh]
    left
    omega

/-- For every configuration without the row-major option: the two transports have the same packets if and
only if the samples of each channel are at one place or not seen. Where the number of samples does not
overflow, the complex float format with header is the only one in which the packets are different. -/
theorem samePackets_iff (hr : cfg.rowmajor = false) (o : ByteOrder) (conv : UInt32 → Int8) :
    (SamePackets cfg o (bitFormat o conv) ↔ cfg.SameLocations) ∧
      (cfg.N * (cfg.B / 2) < 2 ^ 32 → (SamePackets cfg o (bitFormat o conv) ↔
        (cfg.f32bit = true → cfg.noheader = true ∨ cfg.N = 0 ∨ cfg.B < 2))) := by
  have hiff : SamePackets cfg o (bitFormat o conv) ↔ cfg.SameLocations :=
    ⟨sameLocations_of_samePackets hr, fun h => samePackets_of_sameLocations h hr⟩
  exact ⟨hiff, fun hm => hiff.trans (sameLocations_iff hm)⟩

/-- One channel of one complex sample. -/
theorem samePackets_iff_raw :
    SamePackets ⟨true, false, true, 1, 2⟩ .little (bitFormat .little fun _ => 0) :=
  ((samePackets_iff rfl .little fun _ => 0).2 (by decide)).mpr fun _ => .inl rfl

/-- The same with a header. -/
def floatsWithHeader : TransportConfig := ⟨false, false, true, 1, 2⟩

theorem not_samePackets :
    ¬ ∀ (cfg : TransportConfig) (o : ByteOrder) (conv : UInt32 → Int8), cfg.rowmajor = false →
      2 ∣ cfg.B → SamePackets cfg o (bitFormat o conv) := by
  intro h
  have hlocations : floatsWithHeader.SameLocations :=
    sameLocations_of_samePackets rfl (h floatsWithHeader .little (fun _ => 0) rfl (by decide))
  have hor := (sameLocations_iff (by decide)).mp hlocations rfl
  revert hor
  decide

end PacketBuffers
end Aegir
