import Aegir.Verify.Blocks

/-!
# Readcounts

Across the channels of one iteration the readcounts are equal if and only if no device was ever found
not ready before (`readcnt_eq_iff`): the reference is consumed in every iteration, a signal device
only when it is ready, so each such iteration leaves it one block behind for good. Along the blocks of
one device the readcounts increase if and only if the producer's lead, counted in laps of the ring,
does not decrease (`readcnt_increasing_iff`): a slot that has been overwritten gives a later block,
and the next slot may still hold an earlier one.
-/

namespace Aegir

/-- The block of the device `k` has been written and not yet consumed. -/
def LoopPc.hasWritten (k : Nat) : LoopPc → Bool
  | .refConsume => k = 0
  | .dev _ i _ .debug | .dev _ i _ .consume => k = i
  | _ => false

variable {C R : Type*} {ndev : Nat} {o : ByteOrder} {N : Nat}

/-- By how many whole laps of the ring the producer was ahead when the block was written. -/
def Written.lap (w : Written C) (N : Nat) : Nat := (w.unconsumed - 1) / N

theorem hasWritten_nextDev {a : Bool} {i c k : Nat} :
    (nextDev ndev a i c).hasWritten k = false := by
  unfold nextDev
  split <;> rfl

namespace LoopCore

variable {s s' : LoopCore C} {k : Nat}

/-- The calls of `transport->write` for the device `k`, in order. -/
def writesOf (s : LoopCore C) (k : Nat) : List (Written C) :=
  s.hist.writes.filter (·.dev = k)

/-- The blocks of each device are written one after the other, each once. -/
def OrderInv (s : LoopCore C) : Prop :=
  ∀ k, (s.writesOf k).map (·.block) =
    List.range (s.hist.consumed k + (s.pc.hasWritten k).toNat)

theorem OrderInv.same (hi : OrderInv s) (hw : s'.hist.writes = s.hist.writes)
    (hc : s'.hist.consumed = s.hist.consumed)
    (hp : ∀ k, s'.pc.hasWritten k = s.pc.hasWritten k) : OrderInv s' := by
  intro k
  rw [writesOf, hw, hc, hp]
  exact hi k

theorem OrderInv.write {c : Nat} {samples : Nat → C} {pc : LoopPc} (hi : OrderInv s)
    (hold : ∀ j, s.pc.hasWritten j = false) (hnew : ∀ j, pc.hasWritten j = decide (j = k)) :
    OrderInv ((s.write k c samples).goto pc) := by
  intro j
  have hj := hi j
  rw [hold] at hj
  show List.map _ (((s.write k c samples).hist.writes).filter _) =
    List.range (s.hist.consumed j + (pc.hasWritten j).toNat)
  simp only [LoopCore.write, List.filter_append, List.map_append, hnew]
  rw [show (s.hist.writes.filter (·.dev = j)).map (·.block) = _ from hj]
  by_cases hjk : j = k
  · simp [hjk, List.range_succ]
  · simp [hjk, Ne.symm hjk]

theorem OrderInv.consume {pc : LoopPc} (hi : OrderInv s)
    (hold : ∀ j, s.pc.hasWritten j = decide (j = k)) (hnew : ∀ j, pc.hasWritten j = false) :
    OrderInv ((s.consume k).goto pc) := by
  intro j
  have hj := hi j
  rw [hold] at hj
  show List.map _ (s.writesOf j) =
    List.range (Function.update s.hist.consumed k _ j + (pc.hasWritten j).toNat)
  rw [hj, hnew]
  by_cases hjk : j = k
  · subst hjk; simp
  · simp [hjk]

theorem OrderInv.step {a : CoherentAction} (hi : OrderInv s) (h : CoreStep ndev o a s s') :
    OrderInv s' := by
  cases h with
  | refRead hpc | refConv hpc | refQueue hpc | syncNext hpc | read hpc | ready hpc | lag hpc
    | notify hpc | debug _ hpc => exact hi.same rfl rfl fun k => by rw [hpc]; rfl
  | refWrite samples hpc =>
    exact hi.write (fun k => by rw [hpc]; rfl) fun j => rfl
  | refConsume hpc =>
    exact hi.consume (fun j => by rw [hpc]; rfl) fun j => rfl
  | syncEnd a hpc | notReady hpc =>
    exact hi.same rfl rfl fun k => by rw [hpc]; exact hasWritten_nextDev
  | @correcting _ a i c p p' hpc hp hp' =>
    have hold : ∀ k, s.pc.hasWritten k = false := fun k => by
      rw [hpc]; cases p <;> first | rfl | cases hp
    have hnew : ∀ k, (LoopPc.dev a i c p').hasWritten k = false := fun k => by
      cases p' <;> first | rfl | (rcases hp' with h | h <;> cases h)
    exact hi.same rfl rfl fun k => (hnew k).trans (hold k).symm
  | write samples hpc =>
    exact hi.write (fun k => by rw [hpc]; rfl) fun j => rfl
  | consume hpc =>
    exact hi.consume (fun j => by rw [hpc]; rfl) fun j => hasWritten_nextDev
  | swapbuffer | setStreaming => exact hi.same rfl rfl fun _ => rfl
  | quiet => exact hi

/-! ## Across the channels -/

/-- The loop has not yet written the reference in the current iteration. -/
def beforeRef (s : LoopCore C) : Prop :=
  s.pc = .refRead ∨ s.pc = .refConv ∨ s.pc = .refQueue ∨ s.pc = .refWrite

/-- Every iteration that writes a block writes one of the reference. -/
structure RefInv (s : LoopCore C) : Prop where
  past : ∀ w ∈ s.hist.writes, ∃ r ∈ s.hist.writes, r.dev = 0 ∧ r.iter = w.iter
  current : beforeRef s ∨ ∃ r ∈ s.hist.writes, r.dev = 0 ∧ r.iter = s.hist.iter

theorem RefInv.append {w : Written C} (hi : RefInv s) (hw : s'.hist.writes = s.hist.writes ++ [w])
    (ht : s'.hist.iter = w.iter) (hr : ∃ r ∈ s'.hist.writes, r.dev = 0 ∧ r.iter = w.iter) :
    RefInv s' := by
  refine ⟨fun v hv => ?_, .inr (ht ▸ hr)⟩
  rw [hw] at hv
  rcases List.mem_append.mp hv with hv | hv
  · obtain ⟨r, hr, h⟩ := hi.past v hv
    exact ⟨r, hw ▸ List.mem_append_left _ hr, h⟩
  · rw [List.mem_singleton.mp hv]; exact hr

theorem RefInv.step {a : CoherentAction} (hi : RefInv s) (h : CoreStep ndev o a s s') :
    RefInv s' := by
  have hafter : ¬ beforeRef s → ∃ r ∈ s.hist.writes, r.dev = 0 ∧ r.iter = s.hist.iter :=
    fun hn => hi.current.resolve_left hn
  cases h with
  | refRead hpc => exact ⟨hi.past, .inl (.inr (.inl rfl))⟩
  | refConv hpc => exact ⟨hi.past, .inl (.inr (.inr (.inl rfl)))⟩
  | refQueue hpc => exact ⟨hi.past, .inl (.inr (.inr (.inr rfl)))⟩
  | refWrite samples hpc =>
    exact hi.append rfl rfl ⟨_, List.mem_append_right _ (List.mem_singleton_self _), rfl, rfl⟩
  | write samples hpc =>
    obtain ⟨r, hr, h⟩ := hafter (by simp [beforeRef, hpc])
    exact hi.append rfl rfl ⟨r, List.mem_append_left _ hr, h⟩
  | notify hpc => exact ⟨hi.past, .inl (.inl rfl)⟩
  | refConsume hpc | syncNext hpc | syncEnd _ hpc | read hpc | ready hpc | notReady hpc
    | correcting hpc | debug _ hpc | consume hpc | lag hpc =>
    exact ⟨hi.past, .inr (hafter (by simp [beforeRef, hpc]))⟩
  | swapbuffer | setStreaming => exact ⟨hi.past, hi.current⟩
  | quiet => exact hi

/-- No device starts or stops, and `swapbuffer` is called only while the device has fewer than `N`
unconsumed blocks. -/
def NoOverrun (ndev N : Nat) (s : LoopCore C) : CoherentAction → Prop
  | .setStreaming .. => False
  | .swapbuffer k _ => k ≤ ndev → s.hist.stored k + 1 ≤ s.hist.consumed k + N
  | _ => True

instance (a : CoherentAction) : Decidable (NoOverrun ndev N s a) := by
  unfold NoOverrun; split <;> infer_instance

theorem NoOverrun.keepsStreaming {a : CoherentAction} (h : NoOverrun ndev N s a) :
    KeepsStreaming s a := by
  cases a with
  | setStreaming => exact h.elim
  | _ => trivial

theorem coreStep_consumed_le {a : CoherentAction} (h : CoreStep ndev o a s s') (k : Nat) :
    s.hist.consumed k ≤ s'.hist.consumed k := by
  have hle : ∀ j, s.hist.consumed k ≤
      Function.update s.hist.consumed j (s.hist.consumed j + 1) k := by
    intro j
    rw [Function.update_apply]
    split
    · subst_vars; exact Nat.le_succ _
    · exact le_rfl
  cases h with
  | refConsume | consume => exact hle _
  | _ => exact le_rfl

/-- No ring is overrun, and none was when a block was written. -/
structure RoomInv (ndev N : Nat) (s : LoopCore C) : Prop where
  room : ∀ k, k ≤ ndev → s.hist.stored k ≤ s.hist.consumed k + N
  writes : ∀ w ∈ s.hist.writes, w.unconsumed ≤ N

theorem RoomInv.step {a : CoherentAction} (hi : RoomInv ndev N s) (hb : BlockInv N ndev s)
    (hok : NoOverrun ndev N s a) (h : CoreStep ndev o a s s') : RoomInv ndev N s' where
  room k hk := by
    have hroom := hi.room k hk
    have hco := coreStep_consumed_le h k
    cases h with
    | swapbuffer k' b =>
      show Function.update s.hist.stored k' _ k ≤ s.hist.consumed k + N
      by_cases hkk : k = k'
      · subst hkk
        rw [Function.update_self]
        exact hok hk
      · rw [Function.update_of_ne hkk]
        exact hroom
    | _ => exact hroom.trans (Nat.add_le_add_right hco N)
  writes w hw := by
    rcases coreStep_writes h with he | ⟨k, c, samples, hat, he⟩
    · exact hi.writes w (he ▸ hw)
    · rw [he] at hw
      rcases List.mem_append.mp hw with hw | hw
      · exact hi.writes w hw
      · have hroom := hi.room k (hb.atWrite_le hat)
        rw [List.mem_singleton.mp hw]
        show s.hist.stored k - s.hist.consumed k ≤ N
        omega

theorem WriteInv.readcnt_eq {w : Written C} (h : WriteInv N ndev s w) (hroom : w.unconsumed ≤ N) :
    w.readcnt = .ofNat (w.iter - w.skipped) := by
  have hpos := h.pos
  have hiter := h.iter
  rw [h.readcnt, newest_eq_self (by omega) (by omega)]
  congr 1
  omega

theorem ofNat_sub_eq_iff {t k : Nat} (h : k ≤ t) :
    UInt32.ofNat (t - k) = UInt32.ofNat t ↔ 2 ^ 32 ∣ k := by
  rw [← UInt32.toNat_inj, UInt32.toNat_ofNat', UInt32.toNat_ofNat']
  omega

theorem readcnts_eq_iff (hb : BlockInv N ndev s) (hroom : RoomInv ndev N s) (hr : RefInv s)
    (t : Nat) :
    (∀ w ∈ s.hist.writes, ∀ w' ∈ s.hist.writes, w.iter = t → w'.iter = t →
        w.readcnt = w'.readcnt) ↔
      ∀ w ∈ s.hist.writes, w.iter = t → 2 ^ 32 ∣ w.skipped := by
  have hval : ∀ w ∈ s.hist.writes, w.iter = t →
      (w.readcnt = .ofNat t ↔ 2 ^ 32 ∣ w.skipped) := by
    intro w hw ht
    have hiter := (hb.writes w hw).iter
    rw [(hb.writes w hw).readcnt_eq (hroom.writes w hw), ht, ofNat_sub_eq_iff (by omega)]
  constructor
  · intro h w hw ht
    obtain ⟨r, hrm, hr0, hrt⟩ := hr.past w hw
    have hrt : r.iter = t := hrt.trans ht
    have href : r.readcnt = .ofNat t := by
      rw [hval r hrm hrt, (hb.writes r hrm).ref hr0]
      exact dvd_zero _
    exact (hval w hw ht).mp ((h w hw r hrm ht hrt).trans href)
  · intro h w hw w' hw' ht ht'
    rw [(hval w hw ht).mpr (h w hw ht), (hval w' hw' ht').mpr (h w' hw' ht')]

/-! ## Along the blocks of one device -/

theorem WriteInv.toNat_readcnt {w : Written C} (h : WriteInv N ndev s w)
    (hlt : s.hist.stored w.dev < 2 ^ 32) : w.readcnt.toNat = w.block + N * w.lap N := by
  have hpos := h.pos
  have hst := h.stored
  have hnew : newest N (w.block + w.unconsumed) w.block < w.block + w.unconsumed :=
    newest_lt (by omega)
  have hval : newest N (w.block + w.unconsumed) w.block = w.block + N * w.lap N := by
    rw [newest, Written.lap]
    congr 3
    omega
  rw [h.readcnt, UInt32.toNat_ofNat', Nat.mod_eq_of_lt (by omega), hval]

theorem readcnts_increasing_iff (hN : 0 < N) (hb : BlockInv N ndev s) (ho : OrderInv s)
    (hlt : s.hist.stored k < 2 ^ 32) :
    ((s.writesOf k).map (·.readcnt.toNat)).Pairwise (· < ·) ↔
      ((s.writesOf k).map (·.lap N)).Pairwise (· ≤ ·) := by
  have hlen : (s.writesOf k).length = s.hist.consumed k + (s.pc.hasWritten k).toNat := by
    simpa using congrArg List.length (ho k)
  have hblock : ∀ i (hi : i < (s.writesOf k).length), ((s.writesOf k)[i]).block = i := by
    intro i hi
    have h : ((s.writesOf k).map (·.block))[i]? = some i := by
      rw [ho k, List.getElem?_range (by omega)]
    rw [List.getElem?_map, List.getElem?_eq_getElem hi] at h
    exact Option.some_inj.mp h
  have hval : ∀ i (hi : i < (s.writesOf k).length),
      ((s.writesOf k)[i]).readcnt.toNat = i + N * ((s.writesOf k)[i]).lap N := by
    intro i hi
    obtain ⟨hw, hdev⟩ := List.mem_filter.mp (List.getElem_mem hi)
    have hdev : ((s.writesOf k)[i]).dev = k := of_decide_eq_true hdev
    rw [(hb.writes _ hw).toNat_readcnt (by rw [hdev]; exact hlt), hblock i hi]
  rw [← List.isChain_iff_pairwise, ← List.isChain_iff_pairwise, List.isChain_iff_getElem,
    List.isChain_iff_getElem]
  simp only [List.length_map, List.getElem_map]
  constructor
  · intro h i hi
    have hlt := h i hi
    rw [hval i (by omega), hval (i + 1) hi] at hlt
    exact (add_mul_lt_iff hN).mp hlt
  · intro h i hi
    rw [hval i (by omega), hval (i + 1) hi]
    exact (add_mul_lt_iff hN).mpr (h i hi)

end LoopCore

namespace CoherentState

variable [Field C] [Star C] [Field R] [DecidableEq R]
  {cfg : CoherentConfig C R} {s : CoherentState C R}
  {tr : List CoherentAction} {noise : Bool}

omit [Star C] [DecidableEq R] in
theorem blockInv_init (hN : RingSize cfg.asyncbufn N) :
    LoopCore.BlockInv N cfg.ndev (init cfg noise).toLoopCore where
  range _ _ _ _ h := by cases h
  views k _ := ⟨by simpa [LoopCore.view, init, LoopPc.hasRead] using StreamInv.init hN, rfl⟩
  ref := rfl
  writes _ h := by simp [init] at h

/-- In every run without overrun, the readcounts written in an iteration are all equal if and only if
each device written in it was found not ready in a multiple of `2 ^ 32` earlier iterations. -/
theorem readcnt_eq_iff (hN : RingSize cfg.asyncbufn N)
    (h : Run (CoherentState.step cfg) (fun s a => LoopCore.NoOverrun cfg.ndev N s.toLoopCore a)
      (init cfg noise) tr s) (t : Nat) :
    (∀ w ∈ s.hist.writes, ∀ w' ∈ s.hist.writes, w.iter = t → w'.iter = t →
        w.readcnt = w'.readcnt) ↔
      ∀ w ∈ s.hist.writes, w.iter = t → 2 ^ 32 ∣ w.skipped := by
  have hinv : LoopCore.BlockInv N cfg.ndev s.toLoopCore ∧ LoopCore.RoomInv cfg.ndev N s.toLoopCore ∧
      LoopCore.RefInv s.toLoopCore :=
    core_invariant (LoopCore.NoOverrun cfg.ndev N)
      (I := fun s => LoopCore.BlockInv N cfg.ndev s ∧ LoopCore.RoomInv cfg.ndev N s ∧
        LoopCore.RefInv s)
      ⟨blockInv_init hN, ⟨fun _ _ => Nat.zero_le _, fun _ h => by simp [init] at h⟩,
        ⟨fun _ h => by simp [init] at h, .inl (.inl rfl)⟩⟩
      (fun _ _ _ ⟨hb, hroom, hr⟩ hok hs =>
        ⟨hb.step hok.keepsStreaming hs, hroom.step hb hok hs, hr.step hs⟩) h
  exact LoopCore.readcnts_eq_iff hinv.1 hinv.2.1 hinv.2.2 t

theorem ringSize_two : RingSize 2 2 := ⟨⟨1, by decide, rfl⟩, rfl⟩

/-- Both rings are full before the loop starts: the device is ready from the first iteration on. -/
def readyTrace : List CoherentAction :=
  List.flatten [[.swapbuffer 0 fun _ => 0, .swapbuffer 1 fun _ => 0, .swapbuffer 0 fun _ => 0,
    .swapbuffer 1 fun _ => 0], List.replicate 37 .loop]

theorem readcnt_eq_iff_readyTrace :
    ∃ s, Run (CoherentState.step (smallReceiver 1 2))
        (fun s a => LoopCore.NoOverrun 1 2 s.toLoopCore a) (init (smallReceiver 1 2) true)
        readyTrace s ∧
      s.hist.writes.map (fun w => (w.dev, w.readcnt)) = [(0, 0), (1, 0), (0, 1), (1, 1)] ∧
      ((∀ w ∈ s.hist.writes, ∀ w' ∈ s.hist.writes, w.iter = 1 → w'.iter = 1 →
          w.readcnt = w'.readcnt) ↔
        ∀ w ∈ s.hist.writes, w.iter = 1 → 2 ^ 32 ∣ w.skipped) := by
  obtain ⟨s, hrun, hs⟩ := Run.exists_of_exec (CoherentState.step (smallReceiver 1 2))
    (fun s a => LoopCore.NoOverrun 1 2 s.toLoopCore a) (init (smallReceiver 1 2) true) readyTrace
    (fun s => s.hist.writes.map (fun w => (w.dev, w.readcnt)) ==
      [(0, 0), (1, 0), (0, 1), (1, 1)]) (by decide +kernel)
  exact ⟨s, hrun, by simpa using hs, readcnt_eq_iff ringSize_two hrun 1⟩

/-- The loop starts with the first blocks and keeps pace with the devices: the device is ready in the
second iteration, and one block behind the reference. -/
def behindTrace : List CoherentAction :=
  List.flatten [[.swapbuffer 0 fun _ => 0, .swapbuffer 1 fun _ => 0], List.replicate 10 .loop,
    [.swapbuffer 0 fun _ => 0, .swapbuffer 1 fun _ => 0], List.replicate 17 .loop]

theorem not_readcnt_eq :
    ¬ ∀ tr s, Run (CoherentState.step (smallReceiver 1 2))
        (fun s a => LoopCore.NoOverrun 1 2 s.toLoopCore a) (init (smallReceiver 1 2) true) tr s →
      ∀ w ∈ s.hist.writes, ∀ w' ∈ s.hist.writes, w.iter = w'.iter → w.readcnt = w'.readcnt := by
  intro hall
  obtain ⟨s, hrun, hs⟩ := Run.exists_of_exec (CoherentState.step (smallReceiver 1 2))
    (fun s a => LoopCore.NoOverrun 1 2 s.toLoopCore a) (init (smallReceiver 1 2) true) behindTrace
    (fun s => s.hist.writes.map (fun w => (w.iter, w.readcnt)) ==
      [(0, 0), (1, 1), (1, 0)]) (by decide +kernel)
  have hmap : s.hist.writes.map (fun w => (w.iter, w.readcnt)) = [(0, 0), (1, 1), (1, 0)] := by
    simpa using hs
  have hmem : ∀ p ∈ [(0, 0), (1, 1), (1, 0)],
      p ∈ s.hist.writes.map (fun w => (w.iter, w.readcnt)) := by simp [hmap]
  obtain ⟨w, hw, he⟩ := List.mem_map.mp (hmem (1, 1) (by simp))
  obtain ⟨w', hw', he'⟩ := List.mem_map.mp (hmem (1, 0) (by simp))
  simp only [Prod.mk.injEq] at he he'
  have heq := hall _ s hrun w hw w' hw' (he.1.trans he'.1.symm)
  rw [he.2, he'.2] at heq
  exact absurd heq (by decide)

/-- In every run in which the devices stream, and for each device with fewer than `2 ^ 32` blocks:
the readcounts of its consecutive blocks increase if and only if the producer's lead in whole laps
of the ring, when each block is taken, never decreases. In particular they do when at most `N`
blocks are unconsumed each time. -/
theorem readcnt_increasing_iff (hN : RingSize cfg.asyncbufn N)
    (h : Run (CoherentState.step cfg) (fun s a => KeepsStreaming s.toLoopCore a)
      (init cfg noise) tr s) {k : Nat} (hlt : s.hist.stored k < 2 ^ 32) :
    (((s.writesOf k).map (·.readcnt.toNat)).Pairwise (· < ·) ↔
      ((s.writesOf k).map (·.lap N)).Pairwise (· ≤ ·)) ∧
    ((∀ w ∈ s.writesOf k, w.unconsumed ≤ N) →
      ((s.writesOf k).map (·.readcnt.toNat)).Pairwise (· < ·)) := by
  have hinv : LoopCore.BlockInv N cfg.ndev s.toLoopCore ∧ LoopCore.OrderInv s.toLoopCore :=
    core_invariant KeepsStreaming
      (I := fun s => LoopCore.BlockInv N cfg.ndev s ∧ LoopCore.OrderInv s)
      ⟨blockInv_init hN, fun _ => rfl⟩
      (fun _ _ _ ⟨hb, ho⟩ hok hs => ⟨hb.step hok hs, ho.step hs⟩) h
  have hiff := LoopCore.readcnts_increasing_iff hN.pos hinv.1 hinv.2 hlt
  refine ⟨hiff, fun hle => hiff.mpr ?_⟩
  have hzero : ∀ w ∈ s.writesOf k, w.lap N = 0 := by
    intro w hw
    have := hle w hw
    exact Nat.div_eq_of_lt (by have := hN.pos; omega)
  rw [List.pairwise_map]
  exact List.pairwise_of_forall_mem_list fun w hw w' hw' => by rw [hzero w hw, hzero w' hw']

/-- The reference alone, with the ring of eight blocks, of which nine are stored before the loop
starts: the first slot has the ninth block, the second still has the second one. -/
def overrunTrace : List CoherentAction :=
  List.replicate 9 (.swapbuffer 0 fun _ => 0) ++ List.replicate 16 .loop

theorem readcnt_increasing_iff_readyTrace :
    ∃ s, Run (CoherentState.step (smallReceiver 1 2)) (fun s a => KeepsStreaming s.toLoopCore a)
        (init (smallReceiver 1 2) true) readyTrace s ∧
      (s.writesOf 1).map (·.lap 2) = [0, 0] ∧
      ((s.writesOf 1).map (·.readcnt.toNat)).Pairwise (· < ·) := by
  obtain ⟨s, hrun, hs⟩ := Run.exists_of_exec (CoherentState.step (smallReceiver 1 2))
    (fun s a => LoopCore.NoOverrun 1 2 s.toLoopCore a) (init (smallReceiver 1 2) true) readyTrace
    (fun s => (s.writesOf 1).map (·.lap 2) == [0, 0] && s.hist.stored 1 == 2) (by decide +kernel)
  obtain ⟨hlap, hst⟩ : (s.writesOf 1).map (·.lap 2) = [0, 0] ∧ s.hist.stored 1 = 2 := by
    simpa using hs
  have hrun' := hrun.mono fun s a hok => LoopCore.NoOverrun.keepsStreaming hok
  exact ⟨s, hrun', hlap, (readcnt_increasing_iff ringSize_two hrun' (by omega)).1.mpr
    (by simp [hlap])⟩

theorem not_readcnt_increasing :
    ¬ ∀ tr s, Run (CoherentState.step (smallReceiver 0 8))
        (fun s a => KeepsStreaming s.toLoopCore a) (init (smallReceiver 0 8) true) tr s →
      ∀ k, s.hist.stored k < 2 ^ 32 →
        ((s.writesOf k).map (·.readcnt.toNat)).Pairwise (· < ·) := by
  intro hall
  obtain ⟨s, hrun, hs⟩ := Run.exists_of_exec (CoherentState.step (smallReceiver 0 8))
    (fun s a => LoopCore.NoOverrun 0 9 s.toLoopCore a) (init (smallReceiver 0 8) true) overrunTrace
    (fun s => (s.writesOf 0).map (·.readcnt.toNat) == [8, 1] && s.hist.stored 0 == 9) (by decide +kernel)
  obtain ⟨hmap, hst⟩ : (s.writesOf 0).map (·.readcnt.toNat) = [8, 1] ∧ s.hist.stored 0 = 9 := by
    simpa using hs
  have hinc := hall _ s (hrun.mono fun s a hok => LoopCore.NoOverrun.keepsStreaming hok) 0 (by omega)
  rw [hmap] at hinc
  simp at hinc

end CoherentState
end Aegir
