import Aegir.Verify.RingFifo
import Aegir.Verify.Readcounts
import Aegir.Verify.Channels
import Aegir.Verify.PublishedSamples

/-!
# Which block of the driver is written

The ring of a device in the coherent loop is a run of the ring of `Aegir.Verify.RingFifo`: `swapbuffer`
stores, the loop consumes only after it has taken the token of a stored block. So while no ring is
overrun, the block that the loop converts is the one that the driver has delivered as the number of
the blocks consumed before (`DeliveryInv`). It follows what the samples of each call of
`transport->write` are: for the reference, the bytes of the delivered block; for a signal device, those
bytes times a coefficient (`RefWritten`, `SignalWritten`).
-/

namespace Aegir

variable {C R : Type*} {ndev N k : Nat} {o : ByteOrder} {l : UInt32}

/-- The blocks that the driver of each device has delivered, with the readcounts they were stored
with. -/
abbrev Deliveries := Nat → List (UInt32 × Mem)

/-- The bytes of the block number `i` of the device `k`. -/
def Deliveries.block (q : Deliveries) (k i : Nat) : Mem := ((q k).getD i (0, 0)).2

/-- The bytes of a block as two's complement. -/
def signed (b : Mem) : Mem := fun i => b i ^^^ 0x80

namespace LoopCore

variable {s s' : LoopCore C} {q q' : Deliveries} {a : CoherentAction}

/-- What a step adds to the deliveries. -/
def deliver (s : LoopCore C) (a : CoherentAction) (q : Deliveries) : Deliveries :=
  match a with
  | .swapbuffer k b => Function.update q k (q k ++ [((s.stream k).readcnt, b)])
  | _ => q

/-- Blocks delivered before stay. -/
theorem block_deliver {i : Nat} (hi : i < (q k).length) :
    (deliver s a q).block k i = q.block k i := by
  cases a with
  | swapbuffer k' b =>
    simp only [deliver, Deliveries.block]
    by_cases hk : k = k'
    · subst hk
      rw [Function.update_self, List.getD_append _ _ _ _ hi]
    · rw [Function.update_of_ne hk]
  | _ => rfl

theorem length_deliver : (q k).length ≤ (deliver s a q k).length := by
  cases a with
  | swapbuffer k' b =>
    simp only [deliver]
    by_cases hk : k = k'
    · subst hk
      simp
    · rw [Function.update_of_ne hk]
  | _ => exact le_rfl

/-- The ring of the device is a queue of what its driver has delivered. -/
structure DeliveryInv (N : Nat) (l : UInt32) (s : LoopCore C) (q : Deliveries) (k : Nat) : Prop where
  fifo : ∃ taken, FifoInv N l ((s.stream k).s8bit, ⟨q k, taken⟩) ∧ taken.length = s.hist.consumed k
  stored : (q k).length = s.hist.stored k

theorem DeliveryInv.congr (h : DeliveryInv N l s q k)
    (hs : (s'.stream k).s8bit = (s.stream k).s8bit)
    (hc : s'.hist.consumed k = s.hist.consumed k) (hst : s'.hist.stored k = s.hist.stored k) :
    DeliveryInv N l s' q k where
  fifo := by rw [hs, hc]; exact h.fifo
  stored := h.stored.trans hst.symm

theorem read_s8bit {d d' : Stream} (h : d.read = some d') : d'.s8bit = d.s8bit := by
  unfold Stream.read at h
  split at h
  · split at h <;> cases h
    rfl
  · cases h; rfl

/-- Between `read` and `consume` a block of the device waits. -/
theorem BlockInv.consumed_lt (hb : BlockInv N ndev s) (hk : k ≤ ndev) (hr : s.pc.hasRead k)
    (hp : ¬ s.pc.hasPassed k) : s.hist.consumed k < s.hist.stored k := by
  obtain ⟨hstream, hbal⟩ := hb.views k hk
  have hle := hstream.reads_le
  simp only [view, if_pos hr, if_neg hp] at hle hbal
  omega

theorem DeliveryInv.consume (hi : DeliveryInv N l s q k)
    (hlt : s.hist.consumed k < s.hist.stored k) {pc : LoopPc} :
    DeliveryInv N l ((s.consume k).goto pc) q k where
  fifo := by
    obtain ⟨taken, hf, hlen⟩ := hi.fifo
    have hwait : taken.length < (q k).length := by rw [hlen, hi.stored]; exact hlt
    refine ⟨taken ++ [FifoHistory.current (s.stream k).s8bit], ?_, ?_⟩
    · have hring : (((s.consume k).goto pc).stream k).s8bit = (s.stream k).s8bit.consume := by
        simp [LoopCore.consume, goto, setStream, Stream.consume]
      rw [hring]
      exact hf.consume hwait
    · simp [LoopCore.consume, goto, hlen]
  stored := hi.stored

theorem DeliveryInv.swapbuffer (hi : DeliveryInv N l s q k) (h8 : 8 ∣ l.toNat)
    (hl : l.toNat < 2 ^ 31) (hroom : s.hist.stored k < s.hist.consumed k + N) (b : Mem) :
    DeliveryInv N l (s.swapbuffer o k b) (deliver s (.swapbuffer k b) q) k where
  fifo := by
    obtain ⟨taken, hf, hlen⟩ := hi.fifo
    have hwait : (q k).length < taken.length + N := by rw [hlen, hi.stored]; exact hroom
    refine ⟨taken, ?_, hlen⟩
    have hring : ((s.swapbuffer o k b).stream k).s8bit =
        (s.stream k).s8bit.setbufferptr o b (s.stream k).readcnt := by
      simp [LoopCore.swapbuffer, setStream, Stream.swapbuffer]
    rw [hring]
    simpa [deliver] using hf.setbufferptr h8 hl hwait
  stored := by simp [deliver, LoopCore.swapbuffer, hi.stored]

theorem DeliveryInv.step (hi : DeliveryInv N l s q k) (hb : BlockInv N ndev s) (hk : k ≤ ndev)
    (h8 : 8 ∣ l.toNat) (hl : l.toNat < 2 ^ 31) (hok : NoOverrun ndev N s a)
    (h : CoreStep ndev o a s s') : DeliveryInv N l s' (deliver s a q) k := by
  cases h with
  | @refRead _ d hpc hd =>
    refine hi.congr ?_ rfl rfl
    by_cases h0 : k = 0
    · subst h0
      simp [goto, setStream, read_s8bit hd]
    · simp [goto, setStream, Function.update_of_ne h0]
  | @read _ a i c d hpc hd =>
    refine hi.congr ?_ rfl rfl
    by_cases hki : k = i
    · subst hki
      simp [goto, setStream, read_s8bit hd]
    · simp [goto, setStream, Function.update_of_ne hki]
  | refConsume hpc =>
    by_cases h0 : k = 0
    · subst h0
      exact hi.consume (hb.consumed_lt hk (by simp [hpc, LoopPc.hasRead])
        (by simp [hpc, LoopPc.hasPassed]))
    · exact hi.congr (by simp [goto, LoopCore.consume, setStream, Function.update_of_ne h0])
        (Function.update_of_ne h0 ..) rfl
  | @consume _ a i c hpc =>
    by_cases hki : k = i
    · subst hki
      exact hi.consume (hb.consumed_lt hk (by simp [hpc, LoopPc.hasRead])
        (by simp [hpc, LoopPc.hasPassed]))
    · exact hi.congr (by simp [goto, LoopCore.consume, setStream, Function.update_of_ne hki])
        (Function.update_of_ne hki ..) rfl
  | swapbuffer k' b =>
    by_cases hkk : k = k'
    · subst hkk
      have hroom := hok hk
      exact hi.swapbuffer h8 hl (by omega) b
    · have hq : deliver s (.swapbuffer k' b) q k = q k := Function.update_of_ne hkk ..
      have hsame : DeliveryInv N l (s.swapbuffer o k' b) q k :=
        hi.congr (by simp [LoopCore.swapbuffer, setStream, Function.update_of_ne hkk]) rfl
          (Function.update_of_ne hkk ..)
      exact ⟨by rw [hq]; exact hsame.fifo, by rw [hq]; exact hsame.stored⟩
  | setStreaming => exact hok.elim
  | quiet ha =>
    cases a with
    | swapbuffer => cases ha
    | _ => exact hi
  | _ => exact hi.congr rfl rfl rfl

/-- The block at the read pointer is the oldest delivered block that waits. -/
theorem DeliveryInv.getbufferptr (hi : DeliveryInv N l s q k)
    (hlt : s.hist.consumed k < s.hist.stored k) :
    ∀ j < l.toNat, (s.stream k).s8bit.getbufferptr j = signed (q.block k (s.hist.consumed k)) j := by
  intro j hj
  obtain ⟨taken, hf, hlen⟩ := hi.fifo
  have hwait : taken.length < (q k).length := by rw [hlen, hi.stored]; exact hlt
  have hcurrent := congrArg (fun b => b.2[j]?) (hf.current_eq hwait)
  have hL : (s.stream k).s8bit.L = l := hf.length
  simp only [FifoHistory.current, FifoHistory.block, FifoHistory.bytes, hL, hlen] at hcurrent
  rw [Mem.getElem?_read hj, Mem.getElem?_read hj, Nat.zero_add] at hcurrent
  exact Option.some_inj.mp hcurrent

end LoopCore

namespace CoherentState

section
variable [Field C] {cf : ComplexFloat C} {b b' : Mem} {n j : Nat}

/-- The sample depends on its own two bytes. -/
theorem sample_congr (hb : ∀ i < n, b i = b' i) (hj : j < n >>> 1) :
    Csdrdevice.sample cf b j = Csdrdevice.sample cf b' j := by
  rw [Nat.shiftRight_eq_div_pow, pow_one] at hj
  simp only [Csdrdevice.sample, hb (2 * j) (by omega), hb (2 * j + 1) (by omega)]

end

/-- The blocks that the drivers have delivered, and what the loop has done with the block that it has
come to. -/
structure Reception (C : Type*) where
  deliveries : Deliveries
  correction : Correction C

/-- What a step adds to the record. -/
def Reception.observe (s : CoherentState C R) (a : CoherentAction) (s' : CoherentState C R)
    (r : Reception C) : Reception C :=
  ⟨s.deliver a r.deliveries, r.correction.observe s a s'⟩

/-- The bytes of the block that the device has come to. -/
def Reception.next (r : Reception C) (s : CoherentState C R) (k : Nat) : Mem :=
  signed (r.deliveries.block k (s.hist.consumed k))

/-- Blocks are whole words, and their length is an `int`. -/
structure BlockSize (blocksize : UInt32) : Prop where
  words : 8 ∣ blocksize.toNat
  int : blocksize.toNat < 2 ^ 31

variable {cfg : CoherentConfig C R} {s s' : CoherentState C R} {a : CoherentAction}

/-- What holds of the rings and the blocks. -/
structure ReceptionInv (N : Nat) (cfg : CoherentConfig C R)
    (s : CoherentState C R) (q : Deliveries) : Prop where
  blocks : LoopCore.BlockInv N cfg.ndev s.toLoopCore
  room : LoopCore.RoomInv cfg.ndev N s.toLoopCore
  rings : ∀ k ≤ cfg.ndev, LoopCore.DeliveryInv N cfg.blocksize s.toLoopCore q k

/-- Where the loop stands between `read` and `consume` of the device `k`. -/
def InHand (s : CoherentState C R) (k : Nat) : Prop := s.pc.hasRead k ∧ ¬ s.pc.hasPassed k

theorem ReceptionInv.lt_length {q : Deliveries} (hi : ReceptionInv N cfg s q) (hk : k ≤ cfg.ndev)
    (h : InHand s k) : s.hist.consumed k < (q k).length := by
  rw [(hi.rings k hk).stored]
  exact hi.blocks.consumed_lt hk h.1 h.2

/-- The block that the loop finds is the one that the driver has delivered. -/
theorem ReceptionInv.blockOf {q : Deliveries} (hi : ReceptionInv N cfg s q) (hk : k ≤ cfg.ndev)
    (h : InHand s k) : ∀ j < cfg.blocksize.toNat,
      s.blockOf k j = signed (q.block k (s.hist.consumed k)) j :=
  (hi.rings k hk).getbufferptr (hi.blocks.consumed_lt hk h.1 h.2)

theorem inHand_ref (h : s.pc = .refConv ∨ s.pc = .refQueue ∨ s.pc = .refWrite) : InHand s 0 := by
  rcases h with h | h | h <;> simp [InHand, h, LoopPc.hasRead, LoopPc.hasPassed]

theorem inHand_dev {b : Bool} {i c : Nat} {p : DevPc} (h : s.pc = .dev b i c p) (hp : p ≠ .read) :
    InHand s i := by
  simp [InHand, h, LoopPc.hasRead, LoopPc.hasPassed, hp]

theorem not_converted_nextDev {ndev i c i' c' : Nat} {b b' : Bool} {p : DevPc}
    (h : nextDev ndev b i c = .dev b' i' c' p) : ¬ (p.converted = true ∨ p = .write) := by
  obtain ⟨-, -, -, -, rfl⟩ := nextDev_eq_dev.mp h
  simp [DevPc.converted]

/-- The record of the correction changes in the steps of the loop. -/
theorem observe_correction {r : Correction C} (ha : a ≠ .loop) : r.observe s a s' = r := by
  cases a with
  | loop => exact absurd rfl ha
  | _ => rfl

variable [Field C] [Star C] [Field R] [DecidableEq R]

/-- A step writes nothing, a block of the reference, or a block of a signal device. -/
theorem written_cases (h : s.step cfg a = some s') :
    s'.hist.writes = s.hist.writes ∨
      (a = .loop ∧ s.pc = .refWrite ∧ s'.hist = (s.write 0 0 (s.refSamples cfg)).hist) ∨
      ∃ b i c, a = .loop ∧ s.pc = .dev b i c .write ∧
        s'.hist = (s.write i c (s.dsp i).sfloat).hist := by
  cases a with
  | loop =>
    cases loopStep_cases h with
    | refWrite hpc => exact .inr (.inl ⟨rfl, hpc, rfl⟩)
    | @write b i c hpc => exact .inr (.inr ⟨b, i, c, rfl, hpc, rfl⟩)
    | refQueue =>
      have hw : (s.queuelag cfg 0).hist = s.hist := congrArg LoopCore.hist (queuelag_core 0)
      exact .inl (congrArg History.writes hw)
    | @queue b i c =>
      have hw : (s.queuelag cfg i).hist = s.hist := congrArg LoopCore.hist (queuelag_core i)
      exact .inl (congrArg History.writes hw)
    | @lag s₁ _ _ hl =>
      have hw : s₁.hist = s.hist := congrArg LoopCore.hist (computelag_core hl)
      exact .inl (congrArg History.writes hw)
    | _ => exact .inl rfl
  | cmdphaseConv | cmdphaseEst =>
    simp only [step] at h
    split at h <;> cases h
    exact .inl rfl
  | _ => cases h; exact .inl rfl

theorem ReceptionInv.step {q : Deliveries} (hi : ReceptionInv N cfg s q)
    (hsize : BlockSize cfg.blocksize) (hok : LoopCore.NoOverrun cfg.ndev N s.toLoopCore a)
    (h : s.step cfg a = some s') : ReceptionInv N cfg s' (s.deliver a q) where
  blocks := hi.blocks.step hok.keepsStreaming (step_core h)
  room := hi.room.step hi.blocks hok (step_core h)
  rings k hk := (hi.rings k hk).step hi.blocks hk hsize.words hsize.int hok (step_core h)

omit [Star C] [DecidableEq R] in
theorem ReceptionInv.init {noise : Bool} (hN : RingSize cfg.asyncbufn N) :
    ReceptionInv N cfg (init cfg noise) fun _ => [] where
  blocks := blockInv_init hN
  room := ⟨fun _ _ => Nat.zero_le _, fun _ h => by simp [CoherentState.init] at h⟩
  rings _ _ := ⟨⟨[], .init hN, rfl⟩, rfl⟩

/-! ## The reference -/

/-- The samples of the reference are those of the delivered block. -/
def RefHeld (cfg : CoherentConfig C R) (s : CoherentState C R) (q : Deliveries) : Prop :=
  s.pc = .refQueue ∨ s.pc = .refWrite →
    RefConverted cfg s (signed (q.block 0 (s.hist.consumed 0)))

/-- What has been written for the reference are the samples of its delivered blocks. -/
def RefWritten (cfg : CoherentConfig C R) (s : CoherentState C R) (q : Deliveries) : Prop :=
  ∀ w ∈ s.hist.writes, w.dev = 0 → w.block < (q 0).length ∧
    ∀ j < cfg.blocksize.toNat >>> 1,
      w.samples j = Csdrdevice.sample cfg.cf (signed (q.block 0 w.block)) j

/-- Only the loop consumes and writes. -/
theorem step_consumed (h : s.step cfg a = some s') (ha : a ≠ .loop) :
    s'.hist.consumed = s.hist.consumed := by
  cases a with
  | loop => exact absurd rfl ha
  | cmdphaseConv | cmdphaseEst =>
    simp only [step] at h
    split at h <;> cases h
    rfl
  | _ => cases h; rfl

theorem RefHeld.step {q : Deliveries} (hi : RefHeld cfg s q) (hr : ReceptionInv N cfg s q)
    (h : s.step cfg a = some s') : RefHeld cfg s' (s.deliver a q) := by
  intro hpc'
  by_cases ha : a = .loop
  · subst ha
    have hnext : ∀ {b i c}, ¬ (nextDev cfg.ndev b i c = .refQueue ∨
        nextDev cfg.ndev b i c = .refWrite) := fun {b i c} => by
      unfold nextDev
      split <;> simp
    cases loopStep_cases h with
    | refConv hpc =>
      intro j hj
      have hblock := hr.blockOf (Nat.zero_le _) (inHand_ref (.inl hpc))
      simp only [CoherentState.refSamples, setDsp, Function.update_self]
      rw [Csdrdevice.refConvtofloat_add hj]
      exact sample_congr hblock hj
    | refQueue hpc =>
      have hhist : (s.queuelag cfg 0).hist = s.hist := congrArg LoopCore.hist (queuelag_core 0)
      intro j hj
      simp only [refSamples, queuelag_dsp, hhist]
      exact hi (.inl hpc) j hj
    | syncEnd | notReady | consume => exact absurd hpc' hnext
    | _ => simp [withCore, LoopCore.goto] at hpc'
  · rw [step_pc h ha] at hpc'
    have hhand := inHand_ref (.inr hpc')
    rw [step_consumed h ha, LoopCore.block_deliver (hr.lt_length (Nat.zero_le _) hhand), RefConverted,
      step_refSamples h ha]
    exact hi hpc'

theorem RefWritten.step {q : Deliveries} (hi : RefWritten cfg s q) (hheld : RefHeld cfg s q)
    (hr : ReceptionInv N cfg s q) (h : s.step cfg a = some s') :
    RefWritten cfg s' (s.deliver a q) := by
  have hkeep : ∀ w ∈ s.hist.writes, w.dev = 0 → w.block < (s.deliver a q 0).length ∧
      ∀ j < cfg.blocksize.toNat >>> 1, w.samples j =
        Csdrdevice.sample cfg.cf (signed ((s.deliver a q).block 0 w.block)) j := by
    intro w hw hdev
    obtain ⟨hlt, hsamples⟩ := hi w hw hdev
    rw [LoopCore.block_deliver hlt]
    exact ⟨hlt.trans_le LoopCore.length_deliver, hsamples⟩
  intro w hw hdev
  rcases written_cases h with he | ⟨rfl, hpc, he⟩ | ⟨b, i, c, rfl, hpc, he⟩
  · exact hkeep w (he ▸ hw) hdev
  · rw [he] at hw
    rcases List.mem_append.mp hw with hw | hw
    · exact hkeep w hw hdev
    · rw [List.mem_singleton.mp hw]
      exact ⟨hr.lt_length (Nat.zero_le _) (inHand_ref (.inr (.inr hpc))), hheld (.inr hpc)⟩
  · rw [he] at hw
    rcases List.mem_append.mp hw with hw | hw
    · exact hkeep w hw hdev
    · have hpos := (hr.blocks.range _ _ _ _ hpc).1
      rw [List.mem_singleton.mp hw] at hdev
      have hdev : i = 0 := hdev
      omega

/-! ## The signal devices -/

/-- The block that the loop has converted is the one that the driver has delivered. -/
def SignalHeld (cfg : CoherentConfig C R) (s : CoherentState C R) (r : Reception C) : Prop :=
  CorrectionInv cfg s r.correction s.pc ∧ ∀ b i c p, s.pc = .dev b i c p →
    p.converted = true ∨ p = .write → ∀ j < cfg.blocksize.toNat,
      r.correction.block j = signed (r.deliveries.block i (s.hist.consumed i)) j

/-- What has been written for a signal device are the samples of its delivered blocks, each times a
coefficient. -/
def SignalWritten (cfg : CoherentConfig C R) (s : CoherentState C R) (q : Deliveries) : Prop :=
  ∀ w ∈ s.hist.writes, w.dev ≠ 0 → w.block < (q w.dev).length ∧
    ∃ z : C, ∀ j < cfg.blocksize.toNat >>> 1,
      w.samples j = z * Csdrdevice.sample cfg.cf (signed (q.block w.dev w.block)) j

theorem SignalHeld.step {r : Reception C} (hi : SignalHeld cfg s r)
    (hr : ReceptionInv N cfg s r.deliveries) (hok : KeepsSamples (s, r.correction) a)
    (h : s.step cfg a = some s') : SignalHeld cfg s' (r.observe s a s') := by
  refine ⟨step_correctionInv hi.1 hok h, fun b i c p hpc' hp => ?_⟩
  by_cases ha : a = .loop
  · subst ha
    have hold := hi.2
    simp only [Reception.observe, LoopCore.deliver]
    cases loopStep_cases h with
    | @conv b i c hpc =>
      cases hpc'
      have hblock := hr.blockOf (hr.blocks.range _ _ _ _ hpc).2 (inHand_dev hpc (by simp))
      simp only [Correction.observe, hpc]
      exact hblock
    | @lagtest b i c hpc | @noise b i c hpc | @est b i c hpc | @phase b i c hpc =>
      cases hpc'
      simp only [Correction.observe, hpc]
      exact hold _ _ _ _ hpc (.inl rfl)
    | @queue b i c hpc =>
      have hhist : (s.queuelag cfg i).hist = s.hist := congrArg LoopCore.hist (queuelag_core i)
      cases hpc'
      simpa only [Correction.observe, hpc, hhist] using hold _ _ _ _ hpc (.inl rfl)
    | syncEnd | notReady | consume => exact absurd hp (not_converted_nextDev hpc')
    | read | ready | write | debug =>
      cases hpc'
      simp [DevPc.converted] at hp
    | _ => cases hpc'
  · rw [step_pc h ha] at hpc'
    have hread : p ≠ .read := by rintro rfl; simp [DevPc.converted] at hp
    have hlt := hr.lt_length (hr.blocks.range _ _ _ _ hpc').2 (inHand_dev hpc' hread)
    simp only [Reception.observe, observe_correction ha, step_consumed h ha]
    rw [LoopCore.block_deliver hlt]
    exact hi.2 b i c p hpc' hp

theorem SignalWritten.step {r : Reception C} (hi : SignalWritten cfg s r.deliveries)
    (hheld : SignalHeld cfg s r) (hr : ReceptionInv N cfg s r.deliveries)
    (h : s.step cfg a = some s') : SignalWritten cfg s' (s.deliver a r.deliveries) := by
  have hkeep : ∀ w ∈ s.hist.writes, w.dev ≠ 0 → w.block < (s.deliver a r.deliveries w.dev).length ∧
      ∃ z : C, ∀ j < cfg.blocksize.toNat >>> 1, w.samples j =
        z * Csdrdevice.sample cfg.cf (signed ((s.deliver a r.deliveries).block w.dev w.block)) j := by
    intro w hw hdev
    obtain ⟨hlt, hsamples⟩ := hi w hw hdev
    rw [LoopCore.block_deliver hlt]
    exact ⟨hlt.trans_le LoopCore.length_deliver, hsamples⟩
  intro w hw hdev
  rcases written_cases h with he | ⟨rfl, hpc, he⟩ | ⟨b, i, c, rfl, hpc, he⟩
  · exact hkeep w (he ▸ hw) hdev
  · rw [he] at hw
    rcases List.mem_append.mp hw with hw | hw
    · exact hkeep w hw hdev
    · rw [List.mem_singleton.mp hw] at hdev
      exact absurd rfl hdev
  · rw [he] at hw
    rcases List.mem_append.mp hw with hw | hw
    · exact hkeep w hw hdev
    · obtain ⟨hinv, hblock⟩ := hheld
      rw [hpc] at hinv
      rw [List.mem_singleton.mp hw]
      refine ⟨hr.lt_length (hr.blocks.range _ _ _ _ hpc).2 (inHand_dev hpc (by simp)),
        r.correction.coeff, fun j hj => ?_⟩
      show (s.dsp i).sfloat j = _
      rw [hinv.2 rfl j hj, mul_comm]
      exact congrArg (r.correction.coeff * ·) (sample_congr (hblock _ _ _ _ hpc (.inr rfl)) hj)

end CoherentState
end Aegir
