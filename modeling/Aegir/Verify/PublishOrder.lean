import Aegir.Verify.Layout
import Aegir.Model.Publish

/-!
# Frames are published once, in order and intact

`Delivered` says of a state that every message published so far carries the channel data and
readcounts of one frame, as they stood at that frame's `notifysend`, and that the frame numbers
increase. The mutex protects the swap and the flag but not the publication, so the property needs
that the writer stays out of two windows (`SenderUndisturbed`): `notifysend` between the wait and
the read of `packetbuf1` makes a later wait return for a frame that is already out, and a `write`
into the buffer that is being copied tears the message.
-/

namespace Aegir

variable {F : Type*} {cfg : TransportConfig} {o : ByteOrder} {ff : FloatFormat F}

/-- Where the readcounts and the channel data start. -/
def TransportConfig.payloadStart (cfg : TransportConfig) : Nat := if cfg.noheader then 0 else 16

/-- The readcounts and the channel data of a message. -/
def TransportConfig.payload (cfg : TransportConfig) (msg : List UInt8) : List UInt8 :=
  msg.drop cfg.payloadStart

namespace PublishState

/-- Every published message is one frame as it stood at its `notifysend`, no frame is published
twice, and the frames appear in the order of their `notifysend` calls. -/
structure Delivered (cfg : TransportConfig) (s : PublishState) : Prop where
  intact : ∀ p ∈ s.published, ∃ f, s.frames[p.frame]? = some f ∧ cfg.payload p.msg = cfg.payload f
  inOrder : s.published.Pairwise (·.frame < ·.frame)

/-- No `notifysend` falls between the sender's wait and its read of `packetbuf1`, and no `write`
goes to the buffer that the sender is copying. -/
def SenderUndisturbed (s : PublishState) : PublishAction F → Prop
  | .notifysend => match s.pc with
    | .publishing _ => False
    | _ => True
  | .write .. => match s.pc with
    | .copying src _ _ => src ≠ s.packetbuf0
    | _ => True
  | _ => True

instance (s : PublishState) (a : PublishAction F) : Decidable (s.SenderUndisturbed a) := by
  unfold SenderUndisturbed; split <;> (try split) <;> infer_instance

/-! ## A buffer holds a frame -/

/-- Outside the header, the buffer `m` has the bytes of the message `f`. -/
structure Holds (cfg : TransportConfig) (m : Mem) (f : List UInt8) : Prop where
  byte : ∀ i, cfg.payloadStart ≤ i → i < cfg.packetlen → f[i]? = some (m i)
  length : f.length = cfg.packetlen

theorem holds_message (m : Mem) : Holds cfg m (cfg.message m) where
  byte i _ h := by simpa [TransportConfig.message] using Mem.getElem?_read (m := m) (a := 0) h
  length := Mem.length_read

theorem Holds.fillHeader {m : Mem} {f : List UInt8} {q : UInt32} (h : Holds cfg m f)
    (hh : cfg.noheader = false) : Holds cfg (cfg.fillHeader o m q) f where
  byte i h₁ h₂ := by
    have hi : 16 ≤ i := by simpa [TransportConfig.payloadStart, hh] using h₁
    rw [TransportConfig.fillHeader_of_ge hi]
    exact h.byte i h₁ h₂
  length := h.length

theorem payload_congr {a b : List UInt8} (h : ∀ i, cfg.payloadStart ≤ i → a[i]? = b[i]?) :
    cfg.payload a = cfg.payload b := by
  refine List.ext_getElem? fun i => ?_
  simp only [TransportConfig.payload, List.getElem?_drop]
  exact h _ (Nat.le_add_right _ _)

/-! ## The invariant -/

/-- The frame that `send` is copying: it is newer than the published ones, the buffer still holds
it, and the bytes copied so far are its bytes. -/
structure Copying (cfg : TransportConfig) (s : PublishState) (src : Buf) (frame : Nat)
    (copied : List UInt8) : Prop where
  newer : ∀ p ∈ s.published, p.frame < frame
  source : ∃ f, s.frames[frame]? = some f ∧ Holds cfg (s.mem src) f
  length_le : copied.length ≤ cfg.packetlen
  bytes : ∀ i, cfg.payloadStart ≤ i → i < copied.length → copied[i]? = some (s.mem src i)

/-- What holds in every state of a run in which the sender is undisturbed. -/
structure OrderInv (cfg : TransportConfig) (s : PublishState) : Prop where
  delivered : Delivered cfg s
  bufs : s.packetbuf0 ≠ s.packetbuf1
  latest : ∀ f, s.frames.getLast? = some f → Holds cfg (s.mem s.packetbuf1) f
  header : ∀ hdr, s.pc = .header hdr → cfg.noheader = false
  quiet : ∀ hdr, s.pc = .publishing hdr → s.bufferfilled = false
  /-- While the newest frame waits to be taken, or has been taken and not yet read, it is newer
  than everything published. -/
  fresh : s.bufferfilled = true ∨ (∃ hdr, s.pc = .publishing hdr) →
    s.frames ≠ [] ∧ ∀ p ∈ s.published, p.frame + 1 < s.frames.length
  /-- A frame that waits to be taken while `send` copies is not the one being copied. -/
  copyingFresh : ∀ src frame copied, s.pc = .copying src frame copied → s.bufferfilled = true →
    frame + 1 < s.frames.length
  copying : ∀ src frame copied, s.pc = .copying src frame copied →
    Copying cfg s src frame copied

theorem OrderInv.init : OrderInv cfg init where
  delivered := ⟨by simp [PublishState.init], by simp [PublishState.init]⟩
  bufs := by simp [PublishState.init]
  latest := by simp [PublishState.init]
  header := by simp [PublishState.init]
  quiet := by simp [PublishState.init]
  fresh := by simp [PublishState.init]
  copyingFresh := by simp [PublishState.init]
  copying := by simp [PublishState.init]

variable {s s' : PublishState}

theorem Delivered.frame_lt (h : Delivered cfg s) {p : Published} (hp : p ∈ s.published) :
    p.frame < s.frames.length := by
  obtain ⟨f, hf, _⟩ := h.intact p hp
  exact (List.getElem?_eq_some_iff.mp hf).1

/-! ### The steps of the writer -/

theorem OrderInv.write {c : Nat} {r : UInt32} {inp : Nat → F} (hi : OrderInv cfg s)
    (hok : s.SenderUndisturbed (.write c r inp)) :
    OrderInv cfg (s.setMem s.packetbuf0 (cfg.write o ff (s.mem s.packetbuf0) c r inp)) where
  delivered := ⟨hi.delivered.intact, hi.delivered.inOrder⟩
  bufs := hi.bufs
  latest f hf := by
    rw [setMem_packetbuf1, setMem_mem_of_ne _ _ _ hi.bufs.symm]
    exact hi.latest f hf
  header := hi.header
  quiet := hi.quiet
  fresh := hi.fresh
  copyingFresh := hi.copyingFresh
  copying src frame copied hpc := by
    have hne : src ≠ s.packetbuf0 := by
      have hpc : s.pc = .copying src frame copied := hpc
      simpa [SenderUndisturbed, hpc] using hok
    obtain ⟨h₁, h₂, h₃, h₄⟩ := hi.copying src frame copied hpc
    constructor <;> simpa only [setMem_mem_of_ne _ _ _ hne]

theorem OrderInv.notifysend (hi : OrderInv cfg s)
    (hok : s.SenderUndisturbed (F := F) .notifysend) : OrderInv cfg (s.notifysend cfg) where
  delivered := by
    refine ⟨fun p hp => ?_, hi.delivered.inOrder⟩
    obtain ⟨f, hf, he⟩ := hi.delivered.intact p hp
    exact ⟨f, by simp [PublishState.notifysend, List.getElem?_append_left
      (hi.delivered.frame_lt hp), hf], he⟩
  bufs := hi.bufs.symm
  latest f hf := by
    simp only [PublishState.notifysend, List.getLast?_append_cons, List.getLast?_singleton,
      Option.some.injEq] at hf ⊢
    exact hf ▸ holds_message _
  header := hi.header
  quiet hdr hpc := by
    have hpc : s.pc = .publishing hdr := hpc
    simp [SenderUndisturbed, hpc] at hok
  fresh _ := by
    refine ⟨by simp [PublishState.notifysend], fun p hp => ?_⟩
    have := hi.delivered.frame_lt hp
    simpa [PublishState.notifysend] using this
  copyingFresh src frame copied hpc _ := by
    obtain ⟨f, hf, _⟩ := (hi.copying src frame copied hpc).source
    have := (List.getElem?_eq_some_iff.mp hf).1
    simpa [PublishState.notifysend] using this
  copying src frame copied hpc := by
    obtain ⟨h₁, ⟨f, hf, hm⟩, h₃, h₄⟩ := hi.copying src frame copied hpc
    have hlt := (List.getElem?_eq_some_iff.mp hf).1
    exact ⟨h₁, ⟨f, by simp [PublishState.notifysend, List.getElem?_append_left hlt, hf], hm⟩, h₃, h₄⟩

/-! ### The steps of `send` -/

theorem OrderInv.hdrPtr (hi : OrderInv cfg s) (h : s.step cfg o ff .hdrPtr = some s') :
    OrderInv cfg s' := by
  obtain ⟨hpc, ⟨hn, rfl⟩ | ⟨hn, rfl⟩⟩ := step_hdrPtr h
  all_goals
    refine { hi with header := ?_, quiet := ?_, fresh := ?_, copyingFresh := ?_, copying := ?_,
                     delivered := ⟨hi.delivered.intact, hi.delivered.inOrder⟩ }
  case' inl => exact fun hdr h => by cases h
  case' inr => exact fun hdr _ => hn
  all_goals try (intro _ _ _ h; cases h)
  all_goals try (intro _ h; cases h)
  all_goals
    rintro (h | ⟨hdr, h⟩)
    · exact hi.fresh (.inl h)
    · cases h

theorem OrderInv.fillHeader (hi : OrderInv cfg s) (h : s.step cfg o ff .fillHeader = some s') :
    OrderInv cfg s' := by
  obtain ⟨hdr, hpc, rfl⟩ := step_fillHeader h
  have hn := hi.header hdr hpc
  refine { hi with
    delivered := ⟨hi.delivered.intact, hi.delivered.inOrder⟩
    latest := fun f hf => ?_
    header := fun _ h => by cases h
    quiet := fun _ h => by cases h
    fresh := ?_
    copyingFresh := fun _ _ _ h => by cases h
    copying := fun _ _ _ h => by cases h }
  · have hl := hi.latest f hf
    show Holds cfg ((s.setMem hdr _).mem s.packetbuf1) f
    by_cases hb : s.packetbuf1 = hdr
    · subst hb
      rw [setMem_mem_self]
      exact hl.fillHeader hn
    · rwa [setMem_mem_of_ne _ _ _ hb]
  · rintro (h | ⟨_, h⟩)
    · exact hi.fresh (.inl h)
    · cases h

theorem OrderInv.wait (hi : OrderInv cfg s) (h : s.step cfg o ff .wait = some s') :
    OrderInv cfg s' := by
  obtain ⟨hdr, hpc, hb, rfl⟩ := step_wait h
  exact { hi with
    delivered := ⟨hi.delivered.intact, hi.delivered.inOrder⟩
    header := fun _ h => by cases h
    quiet := fun _ _ => rfl
    fresh := fun _ => hi.fresh (.inl hb)
    copyingFresh := fun _ _ _ h => by cases h
    copying := fun _ _ _ h => by cases h }

theorem OrderInv.load (hi : OrderInv cfg s) (h : s.step cfg o ff .load = some s') :
    OrderInv cfg s' := by
  obtain ⟨hdr, hpc, rfl⟩ := step_load h
  obtain ⟨hne, hlt⟩ := hi.fresh (.inr ⟨hdr, hpc⟩)
  have hq := hi.quiet hdr hpc
  refine { hi with
    delivered := ⟨hi.delivered.intact, hi.delivered.inOrder⟩
    header := fun _ h => by cases h
    quiet := fun _ h => by cases h
    fresh := ?_
    copyingFresh := fun _ _ _ _ h => absurd (hq.symm.trans h) (by simp)
    copying := ?_ }
  · rintro (h | ⟨_, h⟩)
    · exact absurd (hq.symm.trans h) (by simp)
    · cases h
  · rintro _ _ _ ⟨⟩
    have hlast := List.getLast?_eq_getElem? (l := s.frames)
    obtain ⟨f, hf⟩ := Option.ne_none_iff_exists'.mp (mt List.getLast?_eq_none_iff.mp hne)
    exact ⟨fun p hp => by have := hlt p hp; omega, ⟨f, hlast ▸ hf, hi.latest f hf⟩,
      Nat.zero_le _, fun i _ hi => absurd hi (Nat.not_lt_zero i)⟩

theorem OrderInv.copy (hi : OrderInv cfg s) (h : s.step cfg o ff .copy = some s') :
    OrderInv cfg s' := by
  obtain ⟨src, frame, copied, hpc, hlt, rfl⟩ := step_copy h
  obtain ⟨h₁, h₂, h₃, h₄⟩ := hi.copying src frame copied hpc
  refine { hi with
    delivered := ⟨hi.delivered.intact, hi.delivered.inOrder⟩
    header := fun _ h => by cases h
    quiet := fun _ h => by cases h
    fresh := ?_
    copyingFresh := ?_
    copying := ?_ }
  · rintro (h | ⟨_, h⟩)
    · exact hi.fresh (.inl h)
    · cases h
  · rintro _ _ _ ⟨⟩ hb
    exact hi.copyingFresh src frame copied hpc hb
  · rintro _ _ _ ⟨⟩
    refine ⟨h₁, h₂, by simpa using Nat.succ_le_of_lt hlt, fun i hs hi => ?_⟩
    by_cases he : i < copied.length
    · rw [List.getElem?_append_left he]; exact h₄ i hs he
    · have : i = copied.length := by simp at hi; omega
      subst this; simp

theorem OrderInv.sent (hi : OrderInv cfg s) (h : s.step cfg o ff .sent = some s') :
    OrderInv cfg s' := by
  obtain ⟨src, frame, copied, hpc, hge, rfl⟩ := step_sent h
  obtain ⟨h₁, ⟨f, hf, hm⟩, h₃, h₄⟩ := hi.copying src frame copied hpc
  have hlen : copied.length = cfg.packetlen := by omega
  have hpay : cfg.payload copied = cfg.payload f := by
    refine payload_congr fun i hs => ?_
    by_cases hlt : i < cfg.packetlen
    · rw [h₄ i hs (by omega), hm.byte i hs hlt]
    · rw [List.getElem?_eq_none (by omega), List.getElem?_eq_none (by rw [hm.length]; omega)]
  refine { hi with
    delivered := ⟨fun p hp => ?_, ?_⟩
    header := fun _ h => by cases h
    quiet := fun _ h => by cases h
    fresh := ?_
    copyingFresh := fun _ _ _ h => by cases h
    copying := fun _ _ _ h => by cases h }
  · rcases List.mem_append.mp hp with hp | hp
    · exact hi.delivered.intact p hp
    · rw [List.mem_singleton.mp hp]; exact ⟨f, hf, hpay⟩
  · refine List.pairwise_append.mpr ⟨hi.delivered.inOrder, List.pairwise_singleton _ _, ?_⟩
    intro p hp q hq
    rw [List.mem_singleton.mp hq]
    exact h₁ p hp
  · rintro (h | ⟨_, h⟩)
    · have hb : s.bufferfilled = true := h
      refine ⟨(hi.fresh (.inl hb)).1, fun p hp => ?_⟩
      rcases List.mem_append.mp hp with hp | hp
      · exact (hi.fresh (.inl hb)).2 p hp
      · rw [List.mem_singleton.mp hp]; exact hi.copyingFresh src frame copied hpc hb
    · cases h

theorem OrderInv.step {a : PublishAction F} (hi : OrderInv cfg s) (hok : s.SenderUndisturbed a)
    (h : s.step cfg o ff a = some s') : OrderInv cfg s' := by
  cases a with
  | write c r inp => cases h; exact hi.write hok
  | notifysend => cases h; exact hi.notifysend hok
  | hdrPtr => exact hi.hdrPtr h
  | fillHeader => exact hi.fillHeader h
  | wait => exact hi.wait h
  | load => exact hi.load h
  | copy => exact hi.copy h
  | sent => exact hi.sent h

/-- In every run in which the sender is undisturbed, each frame is published at most once, in
order and intact. -/
theorem delivered_of_undisturbed {tr : List (PublishAction F)}
    (h : Run (PublishState.step cfg o ff) SenderUndisturbed PublishState.init tr s) :
    Delivered cfg s :=
  (h.invariant (I := OrderInv cfg) OrderInv.init fun _ _ _ hi hok hs => hi.step hok hs).delivered

/-! ### Concrete runs -/

/-- One channel of one complex sample in the default wire format. -/
def smallConfig : TransportConfig := ⟨false, false, false, 1, 2⟩

/-- The floats `k / 127`, given by `k`: enough for the int8 wire format. -/
def codeFormat : FloatFormat Int8 := ⟨fun _ _ => 0, id⟩

/-- The rest of a call of `send` once its wait is over. -/
def publish (cfg : TransportConfig) : List (PublishAction Int8) :=
  .load :: List.replicate cfg.packetlen .copy ++ [.sent]

/-- Two frames, each published before the next `notifysend`; the writer works on the second one
while the first is copied. -/
def orderedTrace : List (PublishAction Int8) :=
  List.flatten [[.hdrPtr, .fillHeader, .write 0 0 fun _ => 5, .notifysend, .wait, .load,
    .write 0 1 fun _ => 6], List.replicate 24 .copy,
    [.sent, .hdrPtr, .fillHeader, .notifysend, .wait], publish smallConfig]

theorem delivered_orderedTrace :
    ∃ s, Run (PublishState.step smallConfig .little codeFormat) SenderUndisturbed
        PublishState.init orderedTrace s ∧
      s.published.map (·.frame) = [0, 1] ∧ Delivered smallConfig s := by
  obtain ⟨s, hrun, hs⟩ := Run.exists_of_exec
    (PublishState.step smallConfig .little codeFormat) SenderUndisturbed
    PublishState.init orderedTrace (fun s => s.published.map (·.frame) == [0, 1]) (by decide +kernel)
  exact ⟨s, hrun, by simpa using hs, delivered_of_undisturbed hrun⟩

/-- The second frame is finished between the sender's wait and its read of `packetbuf1`: it goes
out in the place of the first, and again when the next wait takes the flag it left behind. -/
def repeatedTrace : List (PublishAction Int8) :=
  List.flatten [[.hdrPtr, .fillHeader, .write 0 0 fun _ => 5, .notifysend, .wait,
    .write 0 1 fun _ => 6, .notifysend], publish smallConfig, [.hdrPtr, .fillHeader, .wait],
    publish smallConfig]

theorem not_delivered :
    ¬ ∀ tr s, Run (PublishState.step smallConfig .little codeFormat) anyStep
        PublishState.init tr s → Delivered smallConfig s := by
  intro hall
  obtain ⟨s, hrun, hs⟩ := Run.exists_of_exec
    (PublishState.step smallConfig .little codeFormat) anyStep
    PublishState.init repeatedTrace (fun s => s.published.map (·.frame) == [1, 1]) (by decide +kernel)
  have hframes : s.published.map (·.frame) = [1, 1] := by simpa using hs
  have hlt := List.pairwise_map.mpr (hall _ s hrun).inOrder
  rw [hframes] at hlt
  simp at hlt

/-- A `write` into the buffer that is being copied tears the message: readcount and first sample
of one frame, last sample of another. -/
example : (exec (PublishState.step smallConfig .little codeFormat) anyStep PublishState.init
    (List.flatten [[.hdrPtr, .fillHeader, .write 0 0 fun _ => 5, .notifysend, .wait, .load],
      List.replicate 21 .copy, [.notifysend, .write 0 1 fun _ => 6], List.replicate 3 .copy,
      [.sent]])).map
    (fun s => s.published.map fun p => smallConfig.payload p.msg) =
      some [[0, 0, 0, 0, 5, 6, 0, 0]] := by decide +kernel

end PublishState
end Aegir
