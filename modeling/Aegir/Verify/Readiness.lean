import Aegir.Verify.Blocks

/-!
# How long a device stays ready

`is_ready` compares the number of blocks received with the number of buffers, and the number is an
`uint32_t`. A streaming device that is ready is ready after its next block, unless the number becomes
zero with it (`isReady_swapbuffer_iff`). So it stays ready for the first `2 ^ 32 - 1` blocks only, and
as long as the number does not become zero, the loop does not skip it.
-/

namespace Aegir

/-! ## The device -/

namespace Stream

variable {o : ByteOrder} {d : Stream} {b : Mem} {bs : List Mem}

/-- The driver delivers the blocks `bs`. -/
def swapbuffers (o : ByteOrder) (d : Stream) (bs : List Mem) : Stream :=
  bs.foldl (fun d b => d.swapbuffer o b) d

/-- What does not change, and the number of blocks. -/
theorem swapbuffers_spec (o : ByteOrder) (d : Stream) (bs : List Mem) :
    (d.swapbuffers o bs).asyncbufn = d.asyncbufn ∧
    (d.swapbuffers o bs).streaming = d.streaming ∧
    (d.swapbuffers o bs).readcnt = d.readcnt + .ofNat bs.length := by
  induction bs generalizing d with
  | nil => exact ⟨rfl, rfl, (UInt32.add_zero _).symm⟩
  | cons b bs ih =>
    obtain ⟨hbuf, hstream, hcnt⟩ := ih (d.swapbuffer o b)
    refine ⟨hbuf, hstream, hcnt.trans ?_⟩
    have hone : (d.swapbuffer o b).readcnt = d.readcnt + 1 := rfl
    rw [hone, List.length_cons, UInt32.ofNat_add, UInt32.add_assoc, UInt32.add_comm 1]
    rfl

theorem isReady_iff : d.isReady = true ↔ d.asyncbufn ≤ d.readcnt ∧ d.streaming = true := by
  simp [isReady]

/-- A ready device is ready after a block, unless its number of blocks becomes zero. -/
theorem isReady_swapbuffer_iff (h : d.isReady = true) :
    (d.swapbuffer o b).isReady = true ↔ d.asyncbufn = 0 ∨ d.readcnt ≠ 0xffffffff := by
  obtain ⟨hle, hstream⟩ := isReady_iff.mp h
  have hnext : (d.swapbuffer o b).isReady = true ↔ d.asyncbufn ≤ d.readcnt + 1 :=
    isReady_iff.trans (and_iff_left hstream)
  rw [hnext]
  rcases eq_or_ne d.readcnt 0xffffffff with hmax | hmax
  · have hzero : d.readcnt + 1 = 0 := by rw [hmax]; rfl
    rw [hzero, UInt32.le_zero_iff]
    simp [hmax]
  · have hlt : d.readcnt.toNat < 2 ^ 32 - 1 := by
      have hne : d.readcnt.toNat ≠ 2 ^ 32 - 1 := fun he => hmax (UInt32.toNat_inj.mp he)
      have := d.readcnt.toNat_lt
      omega
    have hsucc : (d.readcnt + 1).toNat = d.readcnt.toNat + 1 :=
      Nat.mod_eq_of_lt (by show d.readcnt.toNat + 1 < 2 ^ 32; omega)
    have hle' := UInt32.le_iff_toNat_le.mp hle
    refine iff_of_true (UInt32.le_iff_toNat_le.mpr ?_) (.inr hmax)
    omega

/-- A streaming device that has got `bs` since it was constructed. -/
def received (o : ByteOrder) (asyncbufn blocksize : UInt32) (bs : List Mem) : Stream :=
  swapbuffers o { init asyncbufn blocksize with streaming := true } bs

variable {asyncbufn blocksize : UInt32}

theorem isReady_received_iff : (received o asyncbufn blocksize bs).isReady = true ↔
    asyncbufn ≤ .ofNat bs.length := by
  obtain ⟨hbuf, hstream, hcnt⟩ := swapbuffers_spec o
    { init asyncbufn blocksize with streaming := true } bs
  rw [isReady_iff, received, hbuf, hstream, hcnt]
  show asyncbufn ≤ 0 + .ofNat bs.length ∧ true = true ↔ _
  rw [UInt32.zero_add]
  exact and_iff_left rfl

variable (o blocksize) in
/-- From `2 ^ 32` blocks on, the number of blocks was once too small again. -/
theorem not_isReady_received (hpos : asyncbufn ≠ 0) (hlen : 2 ^ 32 ≤ bs.length) :
    (received o asyncbufn blocksize (bs.take (2 ^ 32 - 1))).isReady = true ∧
      (received o asyncbufn blocksize (bs.take (2 ^ 32))).isReady ≠ true := by
  rw [Ne, isReady_received_iff, isReady_received_iff, List.length_take_of_le hlen,
    List.length_take_of_le (by omega)]
  constructor
  · rw [UInt32.le_iff_toNat_le]
    exact Nat.le_of_lt_succ asyncbufn.toNat_lt
  · intro hle
    exact hpos (UInt32.le_zero_iff.mp hle)

end Stream

/-! ## The loop -/

namespace LoopCore

variable {C : Type*} {s s' : LoopCore C} {o : ByteOrder} {ndev k : Nat}

/-- The device `k` goes on streaming, and its next block does not make the number of its blocks zero. -/
def CountsOn (k : Nat) (s : LoopCore C) : CoherentAction → Prop
  | .swapbuffer j _ => j = k → (s.stream k).asyncbufn = 0 ∨ (s.stream k).readcnt ≠ 0xffffffff
  | .setStreaming j _ => j ≠ k
  | _ => True

instance (k : Nat) (s : LoopCore C) (a : CoherentAction) : Decidable (CountsOn k s a) :=
  match a with
  | .swapbuffer _ _ => inferInstanceAs (Decidable (_ → _))
  | .setStreaming _ _ => inferInstanceAs (Decidable (_ ≠ _))
  | .loop | .setSynchronized _ _ | .storeLagrequested _ | .clearLagready _ | .setState _
  | .cmdphaseConv _ | .cmdphaseEst _ => .isTrue trivial

/-- The next step of the loop is the test of `is_ready`. -/
def AtTest (s : LoopCore C) (a : CoherentAction) : Prop :=
  a = .loop ∧ ∃ b i c, s.pc = .dev b i c .test

/-- A change of one device that its readiness does not depend on. -/
theorem isReady_setStream {j : Nat} {d : Stream} (h : d.isReady = (s.stream j).isReady) (k : Nat) :
    ((s.setStream j d).stream k).isReady = (s.stream k).isReady := by
  by_cases hk : k = j
  · subst hk
    simpa [setStream] using h
  · simp [setStream, Function.update_of_ne hk]

theorem isReady_of_read {d d' : Stream} (h : d.read = some d') : d'.isReady = d.isReady := by
  unfold Stream.read at h
  split at h
  · split at h <;> cases h
    rfl
  · cases h
    rfl

/-- Apart from the test, no step makes a device not ready or counts it as skipped. -/
theorem coreStep_ready {a : CoherentAction} (h : CoreStep ndev o a s s') (hat : ¬s.AtTest a)
    (hready : (s.stream k).isReady = true) (hok : CountsOn k s a) :
    (s'.stream k).isReady = true ∧ s'.hist.skipped = s.hist.skipped := by
  cases h with
  | refRead _ hd | read _ hd =>
    exact ⟨(isReady_setStream (isReady_of_read hd) k).trans hready, rfl⟩
  | refConsume | consume => exact ⟨(isReady_setStream (by rfl) k).trans hready, rfl⟩
  | ready hpc | notReady hpc => exact absurd ⟨rfl, _, _, _, hpc⟩ hat
  | swapbuffer j b =>
    refine ⟨?_, rfl⟩
    show (Function.update s.stream j _ k).isReady = true
    by_cases hk : k = j
    · subst hk
      rw [Function.update_self]
      exact (Stream.isReady_swapbuffer_iff hready).mpr (hok rfl)
    · rwa [Function.update_of_ne hk]
  | setStreaming j on =>
    refine ⟨?_, rfl⟩
    show (Function.update s.stream j _ k).isReady = true
    rwa [Function.update_of_ne (Ne.symm hok)]
  | _ => exact ⟨hready, rfl⟩

end LoopCore

namespace CoherentState

open LoopCore

variable {C R : Type*} [Field C] [Star C] [Field R] [DecidableEq R]
  {cfg : CoherentConfig C R} {s₀ s s' : CoherentState C R} {tr : List CoherentAction} {k : Nat}

/-- The test counts the device as skipped if it is not ready. -/
theorem step_test {b : Bool} {i c : Nat} (hpc : s.pc = .dev b i c .test)
    (h : s.step cfg .loop = some s') : s'.stream = s.stream ∧
      s'.hist.skipped = if (s.stream i).isReady then s.hist.skipped
        else Function.update s.hist.skipped i (s.hist.skipped i + 1) := by
  simp only [step, loopStep, hpc, devStep] at h
  split at h <;> cases h
  next hready => exact ⟨rfl, (if_pos hready).symm⟩
  next hready => exact ⟨rfl, (if_neg hready).symm⟩

theorem step_ready {a : CoherentAction} (h : s.step cfg a = some s')
    (hready : (s.stream k).isReady = true) (hok : CountsOn k s.toLoopCore a) :
    (s'.stream k).isReady = true ∧ s'.hist.skipped k = s.hist.skipped k := by
  by_cases hat : s.toLoopCore.AtTest a
  · obtain ⟨rfl, b, i, c, hpc⟩ := hat
    obtain ⟨hstream, hskipped⟩ := step_test hpc h
    refine ⟨by rw [hstream, hready], ?_⟩
    rw [hskipped]
    split
    · rfl
    next hnot =>
      have hk : k ≠ i := by
        rintro rfl
        exact hnot hready
      exact Function.update_of_ne hk ..
  · obtain ⟨hready', hskipped⟩ := coreStep_ready (step_core h) hat hready hok
    exact ⟨hready', congrFun hskipped k⟩

/-- For every receiver: a streaming device that is ready once is ready after each of the following
blocks, if and only if the rings have no buffers or there are fewer than `2 ^ 32` blocks; and as long as
no block makes the number of its blocks zero, the loop does not skip a device that was ready. -/
theorem staysReady_iff (cfg : CoherentConfig C R) :
    (∀ bs : List Mem,
      (∀ i j, i ≤ j → j ≤ bs.length →
        (Stream.received cfg.order cfg.asyncbufn cfg.blocksize (bs.take i)).isReady →
        (Stream.received cfg.order cfg.asyncbufn cfg.blocksize (bs.take j)).isReady) ↔
      cfg.asyncbufn = 0 ∨ bs.length < 2 ^ 32) ∧
    ∀ k s₀ tr s, (s₀.stream k).isReady →
      Run (CoherentState.step cfg) (fun s a => CountsOn k s.toLoopCore a) s₀ tr s →
      (s.stream k).isReady ∧ s.hist.skipped k = s₀.hist.skipped k := by
  refine ⟨fun bs => ⟨fun h => ?_, fun hbs i j hij hj => ?_⟩, fun k s₀ tr s hready h => ?_⟩
  · by_contra hnot
    obtain ⟨hpos, hlen⟩ := not_or.mp hnot
    have hlen := Nat.not_lt.mp hlen
    obtain ⟨hready, hnext⟩ := Stream.not_isReady_received cfg.order cfg.blocksize hpos
      hlen
    exact hnext (h _ _ (by omega) hlen hready)
  · rw [Stream.isReady_received_iff, Stream.isReady_received_iff, List.length_take_of_le hj,
      List.length_take_of_le (hij.trans hj)]
    rcases hbs with hzero | hlen
    · exact fun _ => hzero ▸ UInt32.zero_le
    · intro hle
      rw [UInt32.le_iff_toNat_le, UInt32.toNat_ofNat', Nat.mod_eq_of_lt (by omega)] at hle ⊢
      exact hle.trans hij
  · exact h.invariant (I := fun s => (s.stream k).isReady ∧ s.hist.skipped k = s₀.hist.skipped k)
      ⟨hready, rfl⟩ fun _ _ _ hi hok hs =>
        let hstep := step_ready hs hi.1 hok
        ⟨hstep.1, hstep.2.trans hi.2⟩

/-- A ready device in an iteration, with one more block. -/
def oneReadyTrace : List CoherentAction :=
  [.swapbuffer 0 fun _ => 0, .swapbuffer 1 fun _ => 0] ++ List.replicate 17 .loop

/-- A device with one block, which is as many as its ring has buffers. -/
def oneReady : CoherentState ℚ ℚ :=
  let s := init (smallReceiver 1 1) true
  s.withCore (s.toLoopCore.swapbuffer .little 1 fun _ => 0)

theorem staysReady_iff_oneReadyTrace :
    ∃ s, Run (CoherentState.step (smallReceiver 1 1)) (fun s a => CountsOn 1 s.toLoopCore a)
        oneReady oneReadyTrace s ∧
      s.hist.consumed 1 = 1 ∧ (s.stream 1).isReady ∧ s.hist.skipped 1 = 0 := by
  obtain ⟨s, hrun, hconsumed⟩ := Run.exists_of_exec (CoherentState.step (smallReceiver 1 1))
    (fun s a => CountsOn 1 s.toLoopCore a) oneReady oneReadyTrace (fun s => s.hist.consumed 1 == 1)
    (by decide +kernel)
  exact ⟨s, hrun, by simpa using hconsumed,
    (staysReady_iff (smallReceiver 1 1)).2 1 _ _ _ (by decide) hrun⟩

/-- A ring of eight buffers, and `2 ^ 32` blocks. -/
theorem not_staysReady :
    ¬ ∀ (asyncbufn blocksize : UInt32) (bs : List Mem) (i j : Nat), i ≤ j → j ≤ bs.length →
      (Stream.received .little asyncbufn blocksize (bs.take i)).isReady →
      (Stream.received .little asyncbufn blocksize (bs.take j)).isReady := by
  intro h
  have hlen : (List.replicate (2 ^ 32) (fun _ => 0 : Mem)).length = 2 ^ 32 := List.length_replicate
  obtain ⟨hready, hnext⟩ := Stream.not_isReady_received .little 65536
    (by decide : (8 : UInt32) ≠ 0) hlen.ge
  exact hnext (h 8 65536 _ (2 ^ 32 - 1) (2 ^ 32) (by norm_num) hlen.ge hready)

end CoherentState
end Aegir
