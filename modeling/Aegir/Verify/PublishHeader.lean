import Aegir.Verify.PublishOrder

/-!
# Every message carries its own header

`send` stores the header of the message it is about to publish into the buffer that `packetbuf0`
points to, and publishes the buffer that `packetbuf1` points to after the wait. The header is the
right one when these are the same buffer (`HeaderReachesMessage`), that is when an odd number of
calls of `notifysend` lie between the two. The calls of `write` leave it alone.
-/

namespace Aegir

variable {F : Type*} {cfg : TransportConfig} {o : ByteOrder} {ff : FloatFormat F}

/-- The `hdr0` in the first bytes of a message. -/
def messageHdr0 (o : ByteOrder) (msg : List UInt8) : Hdr0 := readHdr0 o fun i => msg.getD i 0

theorem messageHdr0_eq {m : Mem} {msg : List UInt8} (h : ∀ i < 16, msg[i]? = some (m i)) :
    messageHdr0 o msg = readHdr0 o m :=
  TransportConfig.readHdr0_congr fun i hi => by simp [List.getD, h i hi]

theorem TransportConfig.le_packetlen (h : cfg.noheader = false) : 16 ≤ cfg.packetlen := by
  simp only [packetlen, packetlength, h, sizeofHdr0, Bool.false_eq_true, if_false]
  split <;> omega

namespace PublishState

/-- The `k`-th message published has 16 bytes that are the header number `k`. -/
structure Labelled (cfg : TransportConfig) (o : ByteOrder) (s : PublishState) : Prop where
  length : ∀ p ∈ s.published, 16 ≤ p.msg.length
  header : ∀ k p, s.published[k]? = some p → messageHdr0 o p.msg = cfg.hdr0 (.ofNat k)

/-- When `send` reads `packetbuf1` to publish it, it points to the buffer into which the header of
this message was stored; a call of `write` stores its samples behind the header. -/
def HeaderReachesMessage (cfg : TransportConfig) (s : PublishState) : PublishAction F → Prop
  | .load => match s.pc with
    | .publishing (some hdr) => hdr = s.packetbuf1
    | _ => True
  | .write channeln _ _ => cfg.BehindHeader channeln
  | _ => True

instance (s : PublishState) (a : PublishAction F) : Decidable (s.HeaderReachesMessage cfg a) :=
  match s, a with
  | { pc := .publishing (some _), .. }, .load => inferInstanceAs (Decidable (_ = _))
  | { pc := .publishing none, .. }, .load | { pc := .top, .. }, .load
  | { pc := .header _, .. }, .load | { pc := .waiting _, .. }, .load
  | { pc := .copying .., .. }, .load => .isTrue trivial
  | _, .write channeln _ _ => inferInstanceAs (Decidable (cfg.BehindHeader channeln))
  | _, .notifysend | _, .hdrPtr | _, .fillHeader | _, .wait | _, .copy | _, .sent => .isTrue trivial

/-! ## The invariant -/

/-- The number of headers that `send` has stored. -/
def headersStored (s : PublishState) : Nat :=
  match s.pc with
  | .top | .header _ => s.published.length
  | _ => s.published.length + 1

/-- The buffer that holds the header of the message in the making. -/
def HeaderAt (cfg : TransportConfig) (o : ByteOrder) (s : PublishState) : Prop :=
  match s.pc with
  | .top | .header _ => True
  | .waiting hdr | .publishing hdr =>
    ∃ b, hdr = some b ∧ readHdr0 o (s.mem b) = cfg.hdr0 (.ofNat s.published.length)
  | .copying src _ copied =>
    readHdr0 o (s.mem src) = cfg.hdr0 (.ofNat s.published.length) ∧
      ∀ i < 16, i < copied.length → copied[i]? = some (s.mem src i)

/-- What holds in every state of a run in which the headers reach their messages. -/
structure HeaderInv (cfg : TransportConfig) (o : ByteOrder) (s : PublishState) : Prop where
  labelled : Labelled cfg o s
  seqn : s.globalseqn = .ofNat s.headersStored
  current : HeaderAt cfg o s

theorem HeaderInv.init : HeaderInv cfg o init where
  labelled := ⟨by simp [PublishState.init], by simp [PublishState.init]⟩
  seqn := rfl
  current := trivial

variable {s s' : PublishState}

theorem HeaderInv.of_mem {b : Buf} {m : Mem} (hi : HeaderInv cfg o s)
    (hm : ∀ i < 16, m i = s.mem b i) : HeaderInv cfg o (s.setMem b m) := by
  have hbytes : ∀ b' i, i < 16 → (s.setMem b m).mem b' i = s.mem b' i := by
    intro b' i hlt
    by_cases hb : b' = b
    · subst hb; rw [setMem_mem_self]; exact hm i hlt
    · rw [setMem_mem_of_ne _ _ _ hb]
  have hread : ∀ b', readHdr0 o ((s.setMem b m).mem b') = readHdr0 o (s.mem b') :=
    fun b' => TransportConfig.readHdr0_congr (hbytes b')
  refine ⟨⟨hi.labelled.length, hi.labelled.header⟩, hi.seqn, ?_⟩
  have hcur := hi.current
  simp only [HeaderAt, setMem_pc, setMem_published] at hcur ⊢
  cases hpc : s.pc with
  | top | header => trivial
  | waiting hdr | publishing hdr =>
    simp only [hpc] at hcur ⊢
    obtain ⟨b', rfl, h⟩ := hcur
    exact ⟨b', rfl, (hread b').trans h⟩
  | copying src frame copied =>
    simp only [hpc] at hcur ⊢
    exact ⟨(hread src).trans hcur.1, fun i h₁ h₂ => by rw [hbytes src i h₁]; exact hcur.2 i h₁ h₂⟩

theorem HeaderInv.hdrPtr (hh : cfg.noheader = false) (hi : HeaderInv cfg o s)
    (h : s.step cfg o ff .hdrPtr = some s') : HeaderInv cfg o s' := by
  obtain ⟨hpc, ⟨hn, rfl⟩ | ⟨-, rfl⟩⟩ := step_hdrPtr h
  · rw [hh] at hn; cases hn
  · have hseq := hi.seqn
    simp only [headersStored, hpc] at hseq
    exact ⟨⟨hi.labelled.length, hi.labelled.header⟩, hseq, trivial⟩

theorem HeaderInv.fillHeader (hi : HeaderInv cfg o s)
    (h : s.step cfg o ff .fillHeader = some s') : HeaderInv cfg o s' := by
  obtain ⟨hdr, hpc, rfl⟩ := step_fillHeader h
  have hseq := hi.seqn
  simp only [headersStored, hpc] at hseq
  refine ⟨⟨hi.labelled.length, hi.labelled.header⟩, ?_, hdr, rfl, ?_⟩
  · simp [headersStored, hseq, setMem, UInt32.ofNat_add]
  · show readHdr0 o ((s.setMem hdr _).mem hdr) = _
    rw [setMem_mem_self, TransportConfig.readHdr0_fillHeader, hseq]
    rfl

theorem HeaderInv.wait (hi : HeaderInv cfg o s) (h : s.step cfg o ff .wait = some s') :
    HeaderInv cfg o s' := by
  obtain ⟨hdr, hpc, -, rfl⟩ := step_wait h
  have hseq := hi.seqn
  have hcur := hi.current
  simp only [headersStored, HeaderAt, hpc] at hseq hcur
  exact ⟨⟨hi.labelled.length, hi.labelled.header⟩, hseq, hcur⟩

theorem HeaderInv.load (hi : HeaderInv cfg o s) (hok : s.HeaderReachesMessage (F := F) cfg .load)
    (h : s.step cfg o ff .load = some s') : HeaderInv cfg o s' := by
  obtain ⟨hdr, hpc, rfl⟩ := step_load h
  have hseq := hi.seqn
  have hcur := hi.current
  simp only [headersStored, HeaderAt, hpc] at hseq hcur
  obtain ⟨b, rfl, hb⟩ := hcur
  simp only [HeaderReachesMessage, hpc] at hok
  exact ⟨⟨hi.labelled.length, hi.labelled.header⟩, hseq, hok ▸ hb, by simp⟩

theorem HeaderInv.copy (hi : HeaderInv cfg o s) (h : s.step cfg o ff .copy = some s') :
    HeaderInv cfg o s' := by
  obtain ⟨src, frame, copied, hpc, -, rfl⟩ := step_copy h
  have hseq := hi.seqn
  have hcur := hi.current
  simp only [headersStored, HeaderAt, hpc] at hseq hcur
  refine ⟨⟨hi.labelled.length, hi.labelled.header⟩, hseq, hcur.1, fun i h₁ h₂ => ?_⟩
  by_cases he : i < copied.length
  · rw [List.getElem?_append_left he]; exact hcur.2 i h₁ he
  · have : i = copied.length := by simp at h₂; omega
    subst this; simp

theorem HeaderInv.sent (hh : cfg.noheader = false) (hi : HeaderInv cfg o s)
    (h : s.step cfg o ff .sent = some s') : HeaderInv cfg o s' := by
  obtain ⟨src, frame, copied, hpc, hge, rfl⟩ := step_sent h
  have hseq := hi.seqn
  have hcur := hi.current
  simp only [headersStored, HeaderAt, hpc] at hseq hcur
  have h16 := TransportConfig.le_packetlen hh
  have hmsg : messageHdr0 o copied = cfg.hdr0 (.ofNat s.published.length) :=
    (messageHdr0_eq fun i hi => hcur.2 i hi (by omega)).trans hcur.1
  refine ⟨⟨fun p hp => ?_, fun k p hp => ?_⟩, by simp [headersStored, hseq], trivial⟩
  · rcases List.mem_append.mp hp with hp | hp
    · exact hi.labelled.length p hp
    · rw [List.mem_singleton.mp hp]; show 16 ≤ copied.length; omega
  · simp only at hp
    rcases Nat.lt_trichotomy k s.published.length with hk | rfl | hk
    · rw [List.getElem?_append_left hk] at hp
      exact hi.labelled.header k p hp
    · rw [List.getElem?_concat_length] at hp
      cases hp
      exact hmsg
    · rw [List.getElem?_eq_none (by simp; omega)] at hp
      cases hp

theorem HeaderInv.step {a : PublishAction F} (hh : cfg.noheader = false) (hi : HeaderInv cfg o s)
    (hok : s.HeaderReachesMessage cfg a) (h : s.step cfg o ff a = some s') :
    HeaderInv cfg o s' := by
  cases a with
  | write c r inp => cases h; exact hi.of_mem fun i h => TransportConfig.write_of_lt hok h
  | notifysend => cases h; exact ⟨⟨hi.labelled.length, hi.labelled.header⟩, hi.seqn, hi.current⟩
  | hdrPtr => exact hi.hdrPtr hh h
  | fillHeader => exact hi.fillHeader h
  | wait => exact hi.wait h
  | load => exact hi.load hok h
  | copy => exact hi.copy h
  | sent => exact hi.sent hh h

/-- In every run in which the headers reach their messages, the `k`-th message carries the header
number `k`. -/
theorem labelled_of_run {tr : List (PublishAction F)} (hh : cfg.noheader = false)
    (h : Run (PublishState.step cfg o ff) (HeaderReachesMessage cfg) PublishState.init tr s) :
    Labelled cfg o s :=
  (h.invariant (I := HeaderInv cfg o) HeaderInv.init
    fun _ _ _ hi hok hs => hi.step hh hok hs).labelled

/-! ### Concrete runs -/

theorem labelled_orderedTrace :
    ∃ s, Run (PublishState.step smallConfig .little codeFormat) (HeaderReachesMessage smallConfig)
        PublishState.init orderedTrace s ∧
      s.published.length = 2 ∧ Labelled smallConfig .little s := by
  obtain ⟨s, hrun, hs⟩ := Run.exists_of_exec
    (PublishState.step smallConfig .little codeFormat) (HeaderReachesMessage smallConfig)
    PublishState.init orderedTrace (fun s => s.published.length == 2) (by decide +kernel)
  exact ⟨s, hrun, by simpa using hs, labelled_of_run rfl hrun⟩

/-- The writer finishes its first frame before the main thread calls `send` for the first time:
the header goes into the other buffer and the first message has none. -/
def earlyTrace : List (PublishAction Int8) :=
  [.write 0 0 (fun _ => 5), .notifysend, .hdrPtr, .fillHeader, .wait] ++ publish smallConfig

theorem not_labelled :
    ¬ ∀ tr s, Run (PublishState.step smallConfig .little codeFormat) anyStep
        PublishState.init tr s → (∀ a ∈ tr, ∀ c r inp, a = .write c r inp → c < smallConfig.N) →
        Labelled smallConfig .little s := by
  intro hall
  obtain ⟨s, hrun, hs⟩ := Run.exists_of_exec
    (PublishState.step smallConfig .little codeFormat) anyStep
    PublishState.init earlyTrace
    (fun s => s.published.map (messageHdr0 .little ·.msg) == [⟨0, 0, 0, 0⟩]) (by decide +kernel)
  have hmsg : s.published.map (messageHdr0 .little ·.msg) = [⟨0, 0, 0, 0⟩] := by simpa using hs
  obtain ⟨p, hp, h₀⟩ := List.map_eq_singleton_iff.mp hmsg
  have hwrites : ∀ a ∈ earlyTrace, ∀ c r inp, a = .write c r inp → c < smallConfig.N := by
    intro a ha c r inp he
    subst he
    simp [earlyTrace, publish] at ha
    rw [ha.1]
    decide
  have hl := (hall _ s hrun hwrites).header 0 p (by simp [hp])
  rw [h₀] at hl
  exact absurd hl (by decide)

end PublishState
end Aegir
