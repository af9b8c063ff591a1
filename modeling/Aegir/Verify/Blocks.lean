import Aegir.Std.Ring
import Aegir.Verify.LoopSteps

/-!
# Which block a device is at

For one device the loop is a sequence of `swapbuffer`, `read` and `consume` calls; an iteration that
finds the device not ready takes a data token and leaves the block in the ring. `DevView` is a
device together with the number of each of these calls, `ViewStep` what a step of the loop does to
it. From it follow the block that each call of `transport->write` is for and the readcount that it
is given (`WriteInv`).
-/

namespace Aegir

/-- The size of the rings: the masks of `cbuffer` need a power of two. -/
structure RingSize (asyncbufn : UInt32) (N : Nat) : Prop where
  pow : ∃ κ ≤ 31, N = 2 ^ κ
  eq : asyncbufn.toNat = N

theorem RingSize.pos {asyncbufn : UInt32} {N : Nat} (h : RingSize asyncbufn N) : 0 < N := by
  obtain ⟨κ, -, rfl⟩ := h.pow
  exact Nat.two_pow_pos κ

/-- The slot of a pointer that wraps at 32 bits. -/
theorem RingSize.and_eq_mod {asyncbufn : UInt32} {N : Nat} (h : RingSize asyncbufn N) (n : Nat) :
    (UInt32.ofNat n &&& (asyncbufn - 1)).toNat = n % N := by
  obtain ⟨κ, hκ, rfl⟩ := h.pow
  have hle : (1 : UInt32) ≤ asyncbufn := by
    rw [UInt32.le_iff_toNat_le, h.eq]
    exact Nat.one_le_two_pow
  rw [UInt32.toNat_and, UInt32.toNat_sub_of_le _ _ hle, h.eq, UInt32.toNat_ofNat']
  show (n % 2 ^ 32) &&& (2 ^ κ - 1) = _
  rw [Nat.and_two_pow_sub_one_eq_mod,
    Nat.mod_mod_of_dvd n (Nat.pow_dvd_pow 2 (by omega : κ ≤ 32))]

/-! ## One device -/

/-- A streaming device after `st` calls of `swapbuffer`, `co` of `consume` and `rd` of `read`. -/
structure StreamInv (N : Nat) (d : Stream) (st co rd : Nat) : Prop where
  size : RingSize d.s8bit.N N
  wp : d.s8bit.wp = .ofNat st
  rp : d.s8bit.rp = .ofNat co
  readcnt : d.readcnt = .ofNat st
  newdata : d.newdata = .ofInt (st - rd)
  streaming : d.streaming = true
  reads_le : rd ≤ st
  /-- Each of the last `N` blocks is in its slot with its number as readcount. -/
  slots : RingHolds N st d.s8bit.readcnt UInt32.ofNat

namespace StreamInv

variable {N st co rd : Nat} {d d' : Stream} {o : ByteOrder} {b : Mem}

theorem init {asyncbufn blocksize : UInt32} (hN : RingSize asyncbufn N) :
    StreamInv N { Stream.init asyncbufn blocksize with streaming := true } 0 0 0 :=
  ⟨hN, rfl, rfl, rfl, rfl, rfl, le_rfl, .zero⟩

theorem swapbuffer (h : StreamInv N d st co rd) :
    StreamInv N (d.swapbuffer o b) (st + 1) co rd where
  size := h.size
  wp := by simp [Stream.swapbuffer, Cbuffer.setbufferptr, h.wp, UInt32.ofNat_add]
  rp := h.rp
  readcnt := by simp [Stream.swapbuffer, h.readcnt, UInt32.ofNat_add]
  newdata := by
    have hz : ((st + 1 : Nat) : Int) - rd = (st - rd : Int) + 1 := by omega
    rw [hz, Int32.ofInt_add, ← h.newdata]
    rfl
  streaming := h.streaming
  reads_le := Nat.le_succ_of_le h.reads_le
  slots := by
    have hslot : d.s8bit.wslot = st % N := by rw [Cbuffer.wslot, h.wp, h.size.and_eq_mod]
    simpa [Stream.swapbuffer, Cbuffer.setbufferptr, hslot, h.readcnt] using h.slots.store

theorem read (h : StreamInv N d st co rd) (hd : d.read = some d') :
    StreamInv N d' st co (rd + 1) := by
  simp only [Stream.read, h.streaming, if_true] at hd
  split at hd <;> cases hd
  rename_i hpos
  have hne : st ≠ rd := by
    rintro rfl
    rw [h.newdata] at hpos
    simp at hpos
  have hle := h.reads_le
  refine { h with newdata := ?_, streaming := rfl, reads_le := by omega }
  have hz : (st : Int) - (rd + 1 : Nat) = (st - rd : Int) - 1 := by omega
  rw [hz, Int32.ofInt_sub, ← h.newdata]
  rfl

theorem consume (h : StreamInv N d st co rd) : StreamInv N d.consume st (co + 1) rd :=
  { h with rp := by simp [Stream.consume, Cbuffer.consume, h.rp, UInt32.ofNat_add] }

/-- The readcount at the read pointer is that of the newest block in the slot. -/
theorem getReadcntbuf (h : StreamInv N d st co rd) (hlt : co < st) :
    d.getReadcntbuf = .ofNat (newest N st co) := by
  rw [Stream.getReadcntbuf, Cbuffer.getRcnt, Cbuffer.rslot, h.rp, h.size.and_eq_mod]
  exact h.slots.read h.size.pos hlt

end StreamInv

/-! ## The loop as one device sees it -/

/-- The device `k` was read in the current iteration. -/
def LoopPc.hasRead (k : Nat) : LoopPc → Prop
  | .refRead => False
  | .refConv | .refQueue | .refWrite | .refConsume | .syncTest _ => k = 0
  | .dev _ i _ p => k < i ∨ k = i ∧ p ≠ .read
  | .lag | .notify => True

/-- The loop is done with the device `k` in the current iteration. -/
def LoopPc.hasPassed (k : Nat) : LoopPc → Prop
  | .refRead | .refConv | .refQueue | .refWrite | .refConsume => False
  | .syncTest _ => k = 0
  | .dev _ i _ _ => k < i
  | .lag | .notify => True

instance (k : Nat) (pc : LoopPc) : Decidable (pc.hasRead k) := by
  unfold LoopPc.hasRead; split <;> infer_instance

instance (k : Nat) (pc : LoopPc) : Decidable (pc.hasPassed k) := by
  unfold LoopPc.hasPassed; split <;> infer_instance

/-- A device and the number of calls the loop has made for it. -/
structure DevView where
  stream : Stream
  stored : Nat
  consumed : Nat
  skipped : Nat
  reads : Nat
  passes : Nat

/-- What a step does to the view of a device. -/
inductive ViewStep (o : ByteOrder) : DevView → DevView → Prop
  | same {v} : ViewStep o v v
  | swapbuffer {v} (b) :
    ViewStep o v { v with stream := v.stream.swapbuffer o b, stored := v.stored + 1 }
  | read {v d} (hd : v.stream.read = some d) :
    ViewStep o v { v with stream := d, reads := v.reads + 1 }
  | consume {v} : ViewStep o v
    { v with stream := v.stream.consume, consumed := v.consumed + 1, passes := v.passes + 1 }
  | skip {v} : ViewStep o v { v with skipped := v.skipped + 1, passes := v.passes + 1 }

variable {C R : Type*} {ndev : Nat} {o : ByteOrder} {N : Nat}

/-- No device starts or stops: `main` starts all of them before the loop, and stops them when the
program ends. -/
def KeepsStreaming (_ : LoopCore C) : CoherentAction → Prop
  | .setStreaming .. => False
  | _ => True

instance (s : LoopCore C) (a : CoherentAction) : Decidable (KeepsStreaming s a) :=
  match a with
  | .setStreaming _ _ => inferInstanceAs (Decidable False)
  | .loop | .swapbuffer _ _ | .setSynchronized _ _ | .storeLagrequested _ | .clearLagready _
  | .setState _ | .cmdphaseConv _ | .cmdphaseEst _ => .isTrue trivial

namespace LoopCore

variable {s s' : LoopCore C} {k : Nat}

/-- The device `k` in the state `s`. -/
def view (s : LoopCore C) (k : Nat) : DevView where
  stream := s.stream k
  stored := s.hist.stored k
  consumed := s.hist.consumed k
  skipped := s.hist.skipped k
  reads := s.hist.iter + if s.pc.hasRead k then 1 else 0
  passes := s.hist.iter + if s.pc.hasPassed k then 1 else 0

/-- The device of the device loops exists. -/
def DevInRange (ndev : Nat) (s : LoopCore C) : Prop :=
  ∀ a i c p, s.pc = .dev a i c p → 1 ≤ i ∧ i ≤ ndev

theorem nextDev_inRange {a a' : Bool} {i i' c c' : Nat} {p : DevPc} (hi : 1 ≤ i)
    (h : nextDev ndev a i c = .dev a' i' c' p) : 1 ≤ i' ∧ i' ≤ ndev := by
  unfold nextDev at h
  split at h <;> cases h
  exact ⟨hi, ‹_›⟩

theorem DevInRange.step {a : CoherentAction} (hi : DevInRange ndev s)
    (h : CoreStep ndev o a s s') : DevInRange ndev s' := by
  intro a' i' c' p' hpc'
  cases h with
  | refRead | refConv | refQueue | refWrite | refConsume | syncNext | lag | notify => cases hpc'
  | syncEnd a hpc => exact nextDev_inRange le_rfl hpc'
  | read hpc | ready hpc | correcting hpc | write _ hpc | debug _ hpc =>
    cases hpc'; exact hi _ _ _ _ hpc
  | notReady hpc | consume hpc => exact nextDev_inRange (by omega) hpc'
  | swapbuffer | setStreaming => exact hi a' i' c' p' hpc'
  | quiet => exact hi a' i' c' p' hpc'

theorem hasRead_nextDev {a : Bool} {i c : Nat} (hi : i ≤ ndev) (hk : k ≤ ndev) :
    (nextDev ndev a (i + 1) c).hasRead k ↔ k ≤ i := by
  unfold nextDev
  split <;> simp only [LoopPc.hasRead, ne_eq, not_true, and_false, or_false, true_iff] <;> omega

theorem hasPassed_nextDev {a : Bool} {i c : Nat} (hi : i ≤ ndev) (hk : k ≤ ndev) :
    (nextDev ndev a (i + 1) c).hasPassed k ↔ k ≤ i := by
  unfold nextDev
  split <;> simp only [LoopPc.hasPassed, true_iff] <;> omega

theorem viewStep_same (hs : s'.stream k = s.stream k) (hst : s'.hist.stored k = s.hist.stored k)
    (hco : s'.hist.consumed k = s.hist.consumed k) (hsk : s'.hist.skipped k = s.hist.skipped k)
    (ht : s'.hist.iter = s.hist.iter) (hr : s'.pc.hasRead k ↔ s.pc.hasRead k)
    (hp : s'.pc.hasPassed k ↔ s.pc.hasPassed k) : ViewStep o (s.view k) (s'.view k) := by
  have he : s'.view k = s.view k := by simp only [view, hs, hst, hco, hsk, ht, hr, hp]
  rw [he]
  exact .same

/-- The loop reads the device `j`: for the others nothing happens. -/
theorem viewStep_read {j : Nat} {d : Stream} {pc : LoopPc} (hd : (s.stream j).read = some d)
    (hbefore : ¬ s.pc.hasRead j) (hafter : pc.hasRead j)
    (hother : k ≠ j → (pc.hasRead k ↔ s.pc.hasRead k))
    (hp : pc.hasPassed k ↔ s.pc.hasPassed k) :
    ViewStep o (s.view k) (((s.setStream j d).goto pc).view k) := by
  by_cases hk : k = j
  · subst hk
    have he : ((s.setStream k d).goto pc).view k =
        { s.view k with stream := d, reads := (s.view k).reads + 1 } := by
      simp [view, goto, setStream, hbefore, hafter, hp]
    rw [he]
    exact .read hd
  · exact viewStep_same (Function.update_of_ne hk ..) rfl rfl rfl rfl (hother hk) hp

/-- The loop is done with the device `j` and its block. -/
theorem viewStep_consume {j : Nat} {pc : LoopPc} (hr : pc.hasRead k ↔ s.pc.hasRead k)
    (hbefore : ¬ s.pc.hasPassed j) (hafter : pc.hasPassed j)
    (hother : k ≠ j → (pc.hasPassed k ↔ s.pc.hasPassed k)) :
    ViewStep o (s.view k) (((s.consume j).goto pc).view k) := by
  by_cases hk : k = j
  · subst hk
    have he : ((s.consume k).goto pc).view k =
        { s.view k with
          stream := (s.stream k).consume
          consumed := (s.view k).consumed + 1
          passes := (s.view k).passes + 1 } := by
      simp [view, goto, consume, setStream, hr, hbefore, hafter]
    rw [he]
    exact .consume
  · exact viewStep_same (Function.update_of_ne hk ..) rfl (Function.update_of_ne hk ..) rfl rfl hr
      (hother hk)

/-- The loop is done with the device `j` and leaves its block in the ring. -/
theorem viewStep_skip {j : Nat} {pc : LoopPc} (hr : pc.hasRead k ↔ s.pc.hasRead k)
    (hbefore : ¬ s.pc.hasPassed j) (hafter : pc.hasPassed j)
    (hother : k ≠ j → (pc.hasPassed k ↔ s.pc.hasPassed k)) :
    ViewStep o (s.view k) (((s.foundReady j false).goto pc).view k) := by
  by_cases hk : k = j
  · subst hk
    have he : ((s.foundReady k false).goto pc).view k =
        { s.view k with skipped := (s.view k).skipped + 1, passes := (s.view k).passes + 1 } := by
      simp [view, goto, foundReady, hr, hbefore, hafter]
    rw [he]
    exact .skip
  · exact viewStep_same rfl rfl rfl (Function.update_of_ne hk ..) rfl hr (hother hk)

theorem viewStep_swapbuffer (j : Nat) (b : Mem) :
    ViewStep o (s.view k) ((s.swapbuffer o j b).view k) := by
  by_cases hk : k = j
  · subst hk
    have he : (s.swapbuffer o k b).view k =
        { s.view k with
          stream := (s.stream k).swapbuffer o b
          stored := (s.view k).stored + 1 } := by
      simp only [view, swapbuffer, setStream, Function.update_self]
      rfl
    rw [he]
    exact .swapbuffer b
  · exact viewStep_same (Function.update_of_ne hk ..) (Function.update_of_ne hk ..) rfl rfl rfl
      Iff.rfl Iff.rfl

/-- Each device sees the loop make its own calls only. -/
theorem coreStep_view {a : CoherentAction} (h : CoreStep ndev o a s s')
    (hi : DevInRange ndev s) (hok : KeepsStreaming s a) (hk : k ≤ ndev) :
    ViewStep o (s.view k) (s'.view k) := by
  -- behind the device `i` the loop has read and passed the devices up to it
  have hnext : ∀ {i c c' : Nat} {a : Bool} {p : DevPc}, s.pc = .dev a i c p → p ≠ .read →
      ((nextDev ndev a (i + 1) c').hasRead k ↔ s.pc.hasRead k) ∧ ¬ s.pc.hasPassed i ∧
      (nextDev ndev a (i + 1) c').hasPassed i ∧
      (k ≠ i → ((nextDev ndev a (i + 1) c').hasPassed k ↔ s.pc.hasPassed k)) := by
    intro i c c' a p hpc hp
    obtain ⟨-, hin⟩ := hi _ _ _ _ hpc
    rw [hasRead_nextDev hin hk, hasPassed_nextDev hin hin, hasPassed_nextDev hin hk, hpc]
    simp only [LoopPc.hasRead, LoopPc.hasPassed, hp, ne_eq, not_false_eq_true, and_true]
    omega
  cases h with
  | refRead hpc hd =>
    exact viewStep_read hd (by simp [hpc, LoopPc.hasRead]) rfl (by simp [hpc, LoopPc.hasRead])
      (by simp [hpc, LoopPc.hasPassed])
  | read hpc hd =>
    refine viewStep_read hd (by simp [hpc, LoopPc.hasRead]) (by simp [LoopPc.hasRead]) ?_
      (by simp [hpc, LoopPc.hasPassed])
    intro hne
    simp [hpc, LoopPc.hasRead, hne]
  | refConsume hpc =>
    exact viewStep_consume (by simp [hpc, LoopPc.hasRead]) (by simp [hpc, LoopPc.hasPassed]) rfl
      (by simp [hpc, LoopPc.hasPassed])
  | consume hpc =>
    obtain ⟨hr, hbefore, hafter, hother⟩ := hnext hpc (by simp)
    exact viewStep_consume hr hbefore hafter hother
  | notReady hpc =>
    obtain ⟨hr, hbefore, hafter, hother⟩ := hnext hpc (by simp)
    exact viewStep_skip hr hbefore hafter hother
  | swapbuffer j b => exact viewStep_swapbuffer j b
  | syncEnd a hpc =>
    refine viewStep_same rfl rfl rfl rfl rfl ?_ ?_
    · rw [hpc]
      exact (hasRead_nextDev (Nat.zero_le _) hk).trans Nat.le_zero
    · rw [hpc]
      exact (hasPassed_nextDev (Nat.zero_le _) hk).trans Nat.le_zero
  | correcting hpc hp hp' =>
    have h₁ : ∀ {p : DevPc}, p.correcting = true ∨ p = .write → p ≠ .read := by
      rintro _ (h | h) rfl <;> cases h
    exact viewStep_same rfl rfl rfl rfl rfl
      (by simp [goto, hpc, LoopPc.hasRead, h₁ (.inl hp), h₁ hp'])
      (by simp [goto, hpc, LoopPc.hasPassed])
  | refConv hpc | refQueue hpc | refWrite _ hpc | syncNext hpc | ready hpc | write _ hpc
    | debug _ hpc | lag hpc =>
    exact viewStep_same rfl rfl rfl rfl rfl (by simp [goto, hpc, LoopPc.hasRead])
      (by simp [goto, hpc, LoopPc.hasPassed])
  | notify hpc =>
    have he : (s.notifysend.goto .refRead).view k = s.view k := by
      simp [view, goto, notifysend, hpc, LoopPc.hasRead, LoopPc.hasPassed]
    rw [he]
    exact .same
  | setStreaming => exact hok.elim
  | quiet => exact .same

/-! ## The calls of `transport->write` -/

/-- What holds of every device. -/
structure ViewInv (N : Nat) (v : DevView) : Prop where
  stream : StreamInv N v.stream v.stored v.consumed v.reads
  balance : v.consumed + v.skipped = v.passes

theorem ViewInv.step {v v' : DevView} (hi : ViewInv N v) (h : ViewStep o v v') : ViewInv N v' := by
  have hb := hi.balance
  cases h with
  | same => exact hi
  | swapbuffer b => exact ⟨hi.stream.swapbuffer, hb⟩
  | read hd => exact ⟨hi.stream.read hd, hb⟩
  | consume => exact ⟨hi.stream.consume, by simp only; omega⟩
  | skip => exact ⟨hi.stream, by simp only; omega⟩

/-- The next step writes a block of the device `k`. -/
def AtWrite (s : LoopCore C) (k : Nat) : Prop :=
  s.pc = .refWrite ∧ k = 0 ∨ ∃ a c, s.pc = .dev a k c .write

theorem coreStep_writes {a : CoherentAction} (h : CoreStep ndev o a s s') :
    s'.hist.writes = s.hist.writes ∨
      ∃ k c samples, AtWrite s k ∧ s'.hist = (s.write k c samples).hist := by
  cases h with
  | refWrite samples hpc => exact .inr ⟨0, 0, samples, .inl ⟨hpc, rfl⟩, rfl⟩
  | @write _ a i c samples hpc => exact .inr ⟨i, c, samples, .inr ⟨a, c, hpc⟩, rfl⟩
  | _ => exact .inl rfl

theorem coreStep_stored_le {a : CoherentAction} (h : CoreStep ndev o a s s') (k : Nat) :
    s.hist.stored k ≤ s'.hist.stored k := by
  cases h with
  | swapbuffer k' b =>
    show s.hist.stored k ≤ Function.update s.hist.stored k' _ k
    by_cases hk : k = k'
    · subst hk; simp
    · rw [Function.update_of_ne hk]
  | _ => exact le_rfl

/-- What holds of every call of `transport->write`. -/
structure WriteInv (N ndev : Nat) (s : LoopCore C) (w : Written C) : Prop where
  dev_le : w.dev ≤ ndev
  pos : 1 ≤ w.unconsumed
  stored : w.block + w.unconsumed ≤ s.hist.stored w.dev
  readcnt : w.readcnt = .ofNat (newest N (w.block + w.unconsumed) w.block)
  iter : w.block + w.skipped = w.iter
  ref : w.dev = 0 → w.skipped = 0

/-- What holds of the blocks in every reachable state. -/
structure BlockInv (N ndev : Nat) (s : LoopCore C) : Prop where
  range : DevInRange ndev s
  views : ∀ k, k ≤ ndev → ViewInv N (s.view k)
  ref : s.hist.skipped 0 = 0
  writes : ∀ w ∈ s.hist.writes, WriteInv N ndev s w

theorem view_of_atWrite (h : AtWrite s k) :
    (s.view k).reads = s.hist.iter + 1 ∧ (s.view k).passes = s.hist.iter := by
  rcases h with ⟨hpc, rfl⟩ | ⟨a, c, hpc⟩ <;>
    simp [LoopCore.view, hpc, LoopPc.hasRead, LoopPc.hasPassed]

theorem BlockInv.atWrite_le (hi : BlockInv N ndev s) (h : AtWrite s k) : k ≤ ndev := by
  rcases h with ⟨-, rfl⟩ | ⟨a, c, hpc⟩
  · exact Nat.zero_le _
  · exact (hi.range _ _ _ _ hpc).2

/-- The block written next is stored, and it is the block number `iter` less the iterations in which
the device was not ready. -/
theorem BlockInv.atWrite (hi : BlockInv N ndev s) (h : AtWrite s k) :
    StreamInv N (s.stream k) (s.hist.stored k) (s.hist.consumed k) (s.hist.iter + 1) ∧
      s.hist.consumed k < s.hist.stored k ∧
      s.hist.consumed k + s.hist.skipped k = s.hist.iter := by
  obtain ⟨hstream, hbal⟩ := hi.views k (hi.atWrite_le h)
  obtain ⟨hr, hp⟩ := view_of_atWrite h
  rw [hr] at hstream
  rw [hp] at hbal
  have hle := hstream.reads_le
  simp only [LoopCore.view] at hle hbal
  exact ⟨hstream, by omega, hbal⟩

theorem BlockInv.step {a : CoherentAction} (hi : BlockInv N ndev s) (hok : KeepsStreaming s a)
    (h : CoreStep ndev o a s s') : BlockInv N ndev s' where
  range := hi.range.step h
  views k hk := (hi.views k hk).step (coreStep_view h hi.range hok hk)
  ref := by
    cases h with
    | @notReady _ _ i _ hpc =>
      have := (hi.range _ _ _ _ hpc).1
      exact (Function.update_of_ne (by omega) ..).trans hi.ref
    | _ => exact hi.ref
  writes w hw := by
    have hmono : ∀ w ∈ s.hist.writes, WriteInv N ndev s' w := fun w hw =>
      { hi.writes w hw with
        stored := (hi.writes w hw).stored.trans (coreStep_stored_le h _) }
    rcases coreStep_writes h with he | ⟨k, c, samples, hat, he⟩
    · exact hmono w (he ▸ hw)
    · rw [he] at hw
      rcases List.mem_append.mp hw with hw | hw
      · exact hmono w hw
      · obtain ⟨hstream, hlt, hbal⟩ := hi.atWrite hat
        have hsum : s.hist.consumed k + (s.hist.stored k - s.hist.consumed k) = s.hist.stored k := by
          omega
        rw [List.mem_singleton.mp hw]
        refine ⟨hi.atWrite_le hat, Nat.sub_pos_of_lt hlt, ?_, ?_, hbal, ?_⟩
        · rw [he]
          exact hsum.le
        · rw [hsum]
          exact hstream.getReadcntbuf hlt
        · rintro rfl
          exact hi.ref

end LoopCore
end Aegir
