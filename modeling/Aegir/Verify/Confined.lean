import Aegir.Std.Confined
import Aegir.Verify.RowMajor
import Aegir.Model.Publish

/-!
# The transport stays in its buffers

`init` allocates `packetlen` elements for each buffer, bytes in the int8 format and complex numbers in
the float format. Whatever the format, with and without the header and the transposition, `write` and the
header of `send` are confined to this allocation as long as the sizes do not overflow (`confined_write`,
`confined_fillHeader`), although the transposition stores behind the packet. So in every interleaving of
the writer and the sender the memory behind the buffers stays as it is, and what is published does not
depend on it (`confined_of_run`).
-/

namespace Aegir

open Mem

variable {F : Type*} {cfg : TransportConfig} {o : ByteOrder} {ff : FloatFormat F}

namespace TransportConfig

variable {c : Nat}

/-- The bytes that `init` allocates for a buffer. -/
def allocated (cfg : TransportConfig) : Nat :=
  if cfg.f32bit then cfg.packetlen * sizeofComplex else cfg.packetlen

theorem packetlen_le_allocated : cfg.packetlen ≤ cfg.allocated := by
  unfold allocated sizeofComplex
  split <;> omega

theorem headerBytes_le_packetlen : cfg.headerBytes ≤ cfg.packetlen := by
  simp only [headerBytes, packetlen, packetlength, sizeofHdr0, sizeofUint32]
  split <;> split <;> omega

theorem confined_fillHeader {seqn : UInt32} (hn : cfg.noheader = false) :
    Confined cfg.allocated fun m => cfg.fillHeader o m seqn := by
  have hle : 16 ≤ cfg.allocated := by
    have hh := headerBytes_of_header hn
    have hp : cfg.headerBytes ≤ cfg.packetlen := headerBytes_le_packetlen
    have ha : cfg.packetlen ≤ cfg.allocated := packetlen_le_allocated
    omega
  have hword : ∀ a w, a + 4 ≤ 16 → Confined cfg.allocated fun m => m.store32 o a w :=
    fun a w h => .store32 (h.trans hle) w
  exact (hword 12 _ (by omega)).comp ((hword 8 _ (by omega)).comp
    ((hword 4 _ (by omega)).comp (hword 0 _ (by omega))))

theorem confined_writeReadcnt {readcnt : UInt32} (hc : c < cfg.N) :
    Confined cfg.allocated fun m => cfg.writeReadcnt o m c readcnt := by
  refine .ite (fun _ => .id) fun hn => .store32 ?_ readcnt
  have hh := headerBytes_of_header (Bool.eq_false_iff.mpr hn)
  have hp : cfg.headerBytes ≤ cfg.packetlen := headerBytes_le_packetlen
  have ha : cfg.packetlen ≤ cfg.allocated := packetlen_le_allocated
  simp only [sizeofHdr0, sizeofUint32]
  omega

/-- The transposition stores at most a packet behind the place where it begins. -/
theorem confined_convertToRowmajor {loc : Nat} (h32 : cfg.f32bit = true)
    (hm : cfg.N * (cfg.B / 2) < 2 ^ 32) (hloc : 8 * loc ≤ cfg.packetlen) :
    Confined cfg.allocated fun m => cfg.convertToRowmajor m loc := by
  have hlen := packetlen_of_float h32 hm
  have hs : cfg.sampleBytes = cfg.B / 2 * 8 := by simp [sampleBytes, h32]
  have hsize : cfg.N * cfg.sampleBytes = 8 * (cfg.N * (cfg.B / 2)) := by rw [hs]; ring
  have halloc : cfg.allocated = cfg.packetlen * 8 := by simp [allocated, h32, sizeofComplex]
  simp only [convertToRowmajor_eq h32]
  refine .foldl fun p hp => ?_
  simp only [copies, List.mem_flatMap, List.mem_map, List.mem_range, shiftRight_one] at hp
  obtain ⟨r, hr, c, hc, rfl⟩ := hp
  have hrow : (r + 1) * (cfg.B / 2) ≤ cfg.N * (cfg.B / 2) := Nat.mul_le_mul_right _ hr
  have hcol : (c + 1) * cfg.N ≤ cfg.B / 2 * cfg.N := Nat.mul_le_mul_right _ hc
  rw [Nat.succ_mul] at hrow hcol
  rw [Nat.mul_comm (cfg.B / 2)] at hcol
  have hle : ∀ n, u32 n ≤ n := fun n => Nat.mod_le n _
  have hdst := hle (r * (cfg.B / 2))
  have hsrc := (hle (u32 (c * cfg.N) + r)).trans (Nat.add_le_add_right (hle (c * cfg.N)) r)
  exact .copy (by omega) (by omega)

/-- In every format, `write` is confined to the allocation. -/
theorem confined_write (hf : cfg.NoOverflow) (hc : c < cfg.N) (readcnt : UInt32) (inp : Nat → F) :
    Confined cfg.allocated fun m => cfg.write o ff m c readcnt inp := by
  have hmul : (c + 1) * cfg.sampleBytes ≤ cfg.N * cfg.sampleBytes := Nat.mul_le_mul_right _ hc
  rw [Nat.succ_mul] at hmul
  have halloc : cfg.packetlen ≤ cfg.allocated := packetlen_le_allocated
  have hword : Confined cfg.allocated fun m => cfg.writeReadcnt o m c readcnt := confined_writeReadcnt hc
  unfold NoOverflow at hf
  cases h32 : cfg.f32bit with
  | true =>
    rw [if_pos h32] at hf
    have hlen := packetlen_of_float h32 hf
    have hs : cfg.sampleBytes = cfg.B / 2 * 8 := by simp [sampleBytes, h32]
    have hloc := byteLoc_eq hf hc
    have hstored : Confined cfg.allocated fun m =>
        (cfg.writeReadcnt o m c readcnt).blit (cfg.byteLoc c) (cfg.B / 2 * 8) fun i =>
          ff.bytes (inp (i / 4)) (i % 4) :=
      (Confined.blit (by rw [hloc, ← hs]; omega) _).comp hword
    simp only [write, h32, if_true, sizeofComplex, shiftRight_one]
    refine .ite (fun _ => ?_) fun _ => hstored
    have hdiv : u32 (cfg.byteLoc c / 8) ≤ cfg.byteLoc c / 8 := Nat.mod_le _ _
    rw [← hs] at hloc
    exact (confined_convertToRowmajor h32 hf (by omega)).comp hstored
  | false =>
    rw [if_neg (Bool.eq_false_iff.mp h32)] at hf
    have hlen := packetlen_of_int8_lt h32 hf.1
    have hs : cfg.sampleBytes = cfg.B := by simp [sampleBytes, h32]
    have hloc := loc8_eq (hf.2 c hc)
    simp only [write, h32, Bool.false_eq_true, if_false, convto8bit]
    exact (Confined.blit (by rw [hloc, ← hs]; omega) _).comp hword

end TransportConfig

namespace PublishState

variable {s s' t : PublishState} {a : PublishAction F}

/-- `write` is called for the channels that `init` was told of. -/
def ChannelExists (cfg : TransportConfig) (_ : PublishState) : PublishAction F → Prop
  | .write channeln _ _ => channeln < cfg.N
  | _ => True

instance (s : PublishState) (a : PublishAction F) : Decidable (s.ChannelExists cfg a) :=
  match a with
  | .write channeln _ _ => inferInstanceAs (Decidable (channeln < cfg.N))
  | .notifysend | .hdrPtr | .fillHeader | .wait | .load | .copy | .sent => .isTrue trivial

/-- Another memory in the place of the buffers. -/
def withMem (s : PublishState) (m : Buf → Mem) : PublishState := { s with mem := m }

/-- Two memories with the same bytes in the allocated part of the buffers. -/
def SameInside (cfg : TransportConfig) (m m' : Buf → Mem) : Prop :=
  ∀ b, ∀ i < cfg.allocated, m b i = m' b i

/-- A confined operation on one of the buffers. -/
theorem SameInside.update {m m' : Buf → Mem} {f : Mem → Mem} (h : SameInside cfg m m')
    (hf : Confined cfg.allocated f) (b : Buf) :
    SameInside cfg (Function.update m b (f (m b))) (Function.update m' b (f (m' b))) := by
  intro b' i hi
  by_cases hb : b' = b
  · subst hb
    rw [Function.update_self, Function.update_self]
    exact hf.inside _ _ (h b') i hi
  · rw [Function.update_of_ne hb, Function.update_of_ne hb]
    exact h b' i hi

/-- What a buffer is published as lies inside it. -/
theorem SameInside.message {m m' : Buf → Mem} (h : SameInside cfg m m') (b : Buf) :
    cfg.message (m b) = cfg.message (m' b) := by
  refine Confined.read_congr (h b) ?_
  have hle : cfg.packetlen ≤ cfg.allocated := TransportConfig.packetlen_le_allocated
  omega

/-! ## Behind the buffers -/

/-- The memory behind the buffers is still that of `mem`. Only packets with a header have their header
stored. -/
structure Kept (cfg : TransportConfig) (mem : Buf → Mem) (s : PublishState) : Prop where
  outside : ∀ b i, cfg.allocated ≤ i → s.mem b i = mem b i
  header : ∀ hdr, s.pc = .header hdr → cfg.noheader = false

variable {mem mem' : Buf → Mem}

theorem Kept.init : Kept cfg mem (init.withMem mem) where
  outside _ _ _ := rfl
  header hdr h := by cases h

theorem Kept.setMem {f : Mem → Mem} (hi : Kept cfg mem s) (hf : Confined cfg.allocated f) (b : Buf) :
    Kept cfg mem (s.setMem b (f (s.mem b))) where
  outside b' i hle := by
    by_cases hb : b' = b
    · subst hb
      rw [setMem_mem_self, hf.outside _ _ hle, hi.outside _ _ hle]
    · rw [setMem_mem_of_ne _ _ _ hb, hi.outside _ _ hle]
  header := hi.header

theorem Kept.step (hf : cfg.NoOverflow) (hi : Kept cfg mem s) (hok : s.ChannelExists cfg a)
    (h : s.step cfg o ff a = some s') : Kept cfg mem s' := by
  cases a with
  | write c readcnt inp =>
    cases h
    exact hi.setMem (TransportConfig.confined_write hf hok readcnt inp) _
  | notifysend => cases h; exact ⟨hi.outside, hi.header⟩
  | hdrPtr =>
    obtain ⟨-, ⟨-, rfl⟩ | ⟨hn, rfl⟩⟩ := step_hdrPtr h
    · exact ⟨hi.outside, fun hdr h => by cases h⟩
    · exact ⟨hi.outside, fun _ _ => hn⟩
  | fillHeader =>
    obtain ⟨hdr, hpc, rfl⟩ := step_fillHeader h
    have hfill : Confined cfg.allocated fun m => cfg.fillHeader o m s.globalseqn :=
      TransportConfig.confined_fillHeader (hi.header hdr hpc)
    exact ⟨(hi.setMem hfill hdr).outside, fun hdr h => by cases h⟩
  | wait =>
    obtain ⟨hdr, -, -, rfl⟩ := step_wait h
    exact ⟨hi.outside, fun hdr h => by cases h⟩
  | load =>
    obtain ⟨hdr, -, rfl⟩ := step_load h
    exact ⟨hi.outside, fun hdr h => by cases h⟩
  | copy =>
    obtain ⟨src, frame, copied, -, -, rfl⟩ := step_copy h
    exact ⟨hi.outside, fun hdr h => by cases h⟩
  | sent =>
    obtain ⟨src, frame, copied, -, -, rfl⟩ := step_sent h
    exact ⟨hi.outside, fun hdr h => by cases h⟩

/-! ## Two memories -/

/-- Two states that differ behind the buffers only. -/
structure Agree (cfg : TransportConfig) (s t : PublishState) : Prop where
  eq : t = s.withMem t.mem
  inside : SameInside cfg s.mem t.mem

theorem Agree.of_inside {m : Buf → Mem} (hm : SameInside cfg s.mem m) : Agree cfg s (s.withMem m) :=
  ⟨rfl, hm⟩

/-- A step does the same whatever lies behind the buffers. -/
theorem Agree.step (hf : cfg.NoOverflow) (ht : Agree cfg s t) (hi : Kept cfg mem s)
    (hok : s.ChannelExists cfg a) (h : s.step cfg o ff a = some s') :
    ∃ t', t.step cfg o ff a = some t' ∧ Agree cfg s' t' := by
  obtain ⟨heq, hin⟩ := ht
  generalize t.mem = m at heq hin
  subst heq
  have hle : cfg.packetlen ≤ cfg.allocated := TransportConfig.packetlen_le_allocated
  cases a with
  | write c readcnt inp =>
    cases h
    exact ⟨_, rfl, .of_inside (hin.update (TransportConfig.confined_write hf hok readcnt inp) _)⟩
  | notifysend =>
    cases h
    refine ⟨_, rfl, ?_, hin⟩
    simp only [PublishState.notifysend, withMem, hin.message]
  | hdrPtr =>
    obtain ⟨hpc, ⟨hn, rfl⟩ | ⟨hn, rfl⟩⟩ := step_hdrPtr h
    · exact ⟨{ s.withMem m with pc := .waiting none }, by simp [PublishState.step, withMem, hpc, hn],
        .of_inside hin⟩
    · exact ⟨{ s.withMem m with pc := .header s.packetbuf0 },
        by simp [PublishState.step, withMem, hpc, hn], .of_inside hin⟩
  | fillHeader =>
    obtain ⟨hdr, hpc, rfl⟩ := step_fillHeader h
    exact ⟨_, by simp only [PublishState.step, withMem, hpc]; rfl,
      .of_inside (hin.update (TransportConfig.confined_fillHeader (hi.header hdr hpc)) hdr)⟩
  | wait =>
    obtain ⟨hdr, hpc, hfull, rfl⟩ := step_wait h
    exact ⟨{ s.withMem m with bufferfilled := false, pc := .publishing hdr },
      by simp [PublishState.step, withMem, hpc, hfull], .of_inside hin⟩
  | load =>
    obtain ⟨hdr, hpc, rfl⟩ := step_load h
    exact ⟨{ s.withMem m with pc := .copying s.packetbuf1 (s.frames.length - 1) [] },
      by simp [PublishState.step, withMem, hpc], .of_inside hin⟩
  | copy =>
    obtain ⟨src, frame, copied, hpc, hlt, rfl⟩ := step_copy h
    have hbyte : s.mem src copied.length = m src copied.length := hin src _ (hlt.trans_le hle)
    exact ⟨{ s.withMem m with pc := .copying src frame (copied ++ [s.mem src copied.length]) },
      by simp [PublishState.step, withMem, hpc, hlt, hbyte], .of_inside hin⟩
  | sent =>
    obtain ⟨src, frame, copied, hpc, hlen, rfl⟩ := step_sent h
    exact ⟨{ s.withMem m with pc := .top, published := s.published ++ [⟨frame, copied⟩] },
      by simp [PublishState.step, withMem, hpc, Nat.not_lt.mpr hlen], .of_inside hin⟩

/-- In every interleaving of the writer and the sender the memory behind the buffers stays as it is, and
the same messages are published whatever it holds. -/
theorem confined_of_run {tr : List (PublishAction F)} (hf : cfg.NoOverflow)
    (h : Run (step cfg o ff) (ChannelExists cfg) (init.withMem mem) tr s) :
    (∀ b i, cfg.allocated ≤ i → s.mem b i = mem b i) ∧
    ∀ mem', SameInside cfg mem mem' →
      ∃ t, Run (step cfg o ff) (ChannelExists cfg) (init.withMem mem') tr t ∧
        t.published = s.published ∧ SameInside cfg s.mem t.mem := by
  have hkept : Kept cfg mem s := h.invariant .init fun _ _ _ hi hok hs => hi.step hf hok hs
  refine ⟨hkept.outside, fun mem' hsame => ?_⟩
  have hstep : ∀ s t a s', Kept cfg mem s ∧ Agree cfg s t → s.ChannelExists cfg a →
      s.step cfg o ff a = some s' → ∃ t', t.ChannelExists cfg a ∧ t.step cfg o ff a = some t' ∧
        Kept cfg mem s' ∧ Agree cfg s' t' := by
    intro s t a s' ⟨hi, ht⟩ hok hs
    obtain ⟨t', hs', ht'⟩ := ht.step hf hi hok hs
    have hok' : t.ChannelExists cfg a := by cases a <;> exact hok
    exact ⟨t', hok', hs', hi.step hf hok hs, ht'⟩
  obtain ⟨t, ht, -, heq, hin⟩ := h.simulate ⟨.init, .of_inside hsame⟩ hstep
  refine ⟨t, ht, ?_, hin⟩
  rw [heq]
  rfl

/-- Two channels of two complex floats, with the header and the transposition. -/
def interleaved : TransportConfig := ⟨false, true, true, 2, 4⟩

/-- A frame, and its message. -/
def interleavedTrace : List (PublishAction UInt32) :=
  [.hdrPtr, .fillHeader, .write 0 7 .ofNat, .write 1 7 .ofNat, .notifysend, .wait, .load] ++
    List.replicate 56 .copy ++ [.sent]

/-- Behind the 448 bytes that are allocated, zeros in one memory and ones in the other. -/
theorem confined_of_run_interleavedTrace :
    let step := PublishState.step interleaved .little
      (TransportConfig.bitFormat .little fun _ => 0)
    ∃ s, Run step (ChannelExists interleaved) (init.withMem fun _ _ => 0) interleavedTrace s ∧
      s.published.length = 1 ∧ (∀ b i, 448 ≤ i → s.mem b i = 0) ∧
      ∃ t, Run step (ChannelExists interleaved) (init.withMem fun _ i => if i < 448 then 0 else 255)
          interleavedTrace t ∧ t.published = s.published := by
  obtain ⟨s, hrun, hs⟩ := Run.exists_of_exec
    (PublishState.step interleaved .little (TransportConfig.bitFormat .little fun _ => 0))
    (ChannelExists interleaved)
    (init.withMem fun _ _ => 0) interleavedTrace (fun s => s.published.length == 1) (by decide +kernel)
  obtain ⟨hout, hrest⟩ := confined_of_run (by unfold TransportConfig.NoOverflow; decide) hrun
  have hsame : SameInside interleaved (fun _ _ => 0) fun _ i => if i < 448 then 0 else 255 := by
    intro b i hi
    have hlt : i < 448 := hi.trans_eq (by decide)
    simp only [if_pos hlt]
  obtain ⟨t, ht, hpub, -⟩ := hrest _ hsame
  have hall : interleaved.allocated = 448 := by decide
  exact ⟨s, hrun, by simpa using hs, fun b i hi => hout b i (hall ▸ hi), t, ht, hpub⟩

end PublishState

end Aegir
