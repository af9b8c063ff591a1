import Aegir.Verify.Blocks

/-!
# Data tokens and the blocks in the ring

`swapbuffer` stores a block and adds a token, `read` takes a token and `consume` a block. An iteration
that finds the device not ready has taken a token and leaves the block, so between iterations there are
fewer tokens than blocks by the number of these iterations (`TokenInv`), for every size of the ring.
-/

namespace Aegir

/-- The tokens and pointers of a streaming device count the calls made for it, modulo `2 ^ 32`. -/
structure TokenInv (v : DevView) : Prop where
  wp : v.stream.s8bit.wp = .ofNat v.stored
  rp : v.stream.s8bit.rp = .ofNat v.consumed
  newdata : v.stream.newdata = .ofInt (v.stored - v.reads)
  streaming : v.stream.streaming = true
  balance : v.consumed + v.skipped = v.passes

namespace TokenInv

variable {v v' : DevView} {o : ByteOrder}

theorem step (hi : TokenInv v) (h : ViewStep o v v') : TokenInv v' := by
  obtain ⟨hwp, hrp, hnew, hstream, hbal⟩ := hi
  cases h with
  | same => exact ⟨hwp, hrp, hnew, hstream, hbal⟩
  | swapbuffer b =>
    have hcount : ((v.stored + 1 : Nat) : Int) - v.reads = (v.stored - v.reads : Int) + 1 := by omega
    refine ⟨?_, hrp, ?_, hstream, hbal⟩
    · simp [Stream.swapbuffer, Cbuffer.setbufferptr, hwp, UInt32.ofNat_add]
    · simp only [Stream.swapbuffer, hnew, hcount, Int32.ofInt_add]
      rfl
  | read hd =>
    simp only [Stream.read, hstream, if_true] at hd
    split at hd <;> cases hd
    have hcount : (v.stored : Int) - (v.reads + 1 : Nat) = (v.stored - v.reads : Int) - 1 := by omega
    refine ⟨hwp, hrp, ?_, rfl, hbal⟩
    simp only [hnew, hcount, Int32.ofInt_sub]
    rfl
  | consume =>
    refine ⟨hwp, ?_, hnew, hstream, ?_⟩
    · simp [Stream.consume, Cbuffer.consume, hrp, UInt32.ofNat_add]
    · simp only; omega
  | skip => exact ⟨hwp, hrp, hnew, hstream, by simp only; omega⟩

/-- Between iterations every pass of the loop has made its `read`. -/
theorem newdata_eq (hi : TokenInv v) (hreads : v.reads = v.passes) :
    v.stream.newdata.toUInt32 = v.stream.s8bit.wp - v.stream.s8bit.rp - .ofNat v.skipped := by
  have hcount : (v.stored : Int) - v.reads = (v.stored - v.consumed : Int) - v.skipped := by
    have := hi.balance
    omega
  rw [hi.newdata, hi.wp, hi.rp, hcount, Int32.ofInt_sub, Int32.ofInt_sub, Int32.ofInt_eq_ofNat,
    Int32.ofInt_eq_ofNat, Int32.ofInt_eq_ofNat]
  rfl

/-- Between iterations, there is a token for each block that waits if and only if the number of
iterations that found the device not ready is zero modulo `2 ^ 32`. -/
theorem newdata_iff (hi : TokenInv v) (hreads : v.reads = v.passes) :
    v.stream.newdata.toUInt32 = v.stream.s8bit.wp - v.stream.s8bit.rp ↔ 2 ^ 32 ∣ v.skipped := by
  rw [hi.newdata_eq hreads, sub_eq_self, ← UInt32.toNat_inj, UInt32.toNat_ofNat',
    Nat.dvd_iff_mod_eq_zero]
  rfl

end TokenInv

namespace CoherentState

variable {C R : Type*} [Field C] [Star C] [Field R] [DecidableEq R] {cfg : CoherentConfig C R}
  {s : CoherentState C R} {tr : List CoherentAction} {noise : Bool}

theorem tokenInv_of_run
    (h : Run (CoherentState.step cfg) (fun s a => KeepsStreaming s.toLoopCore a)
      (init cfg noise) tr s) :
    LoopCore.DevInRange cfg.ndev s.toLoopCore ∧
      ∀ k, k ≤ cfg.ndev → TokenInv (s.toLoopCore.view k) := by
  refine core_invariant KeepsStreaming
    (I := fun s => LoopCore.DevInRange cfg.ndev s ∧ ∀ k, k ≤ cfg.ndev → TokenInv (s.view k))
    ⟨fun _ _ _ _ hpc => ?_, fun k _ => ⟨rfl, rfl, rfl, rfl, rfl⟩⟩
    (fun s a s' ⟨hrange, hi⟩ hok hs => ?_) h
  · cases hpc
  · exact ⟨hrange.step hs, fun k hk => (hi k hk).step (LoopCore.coreStep_view hs hrange hok hk)⟩

/-- In every run of the receiver, between iterations, for every streaming device: there are as many data
tokens as blocks stored and not consumed if and only if the number of iterations so far that found
the device not ready is a multiple of `2 ^ 32`. -/
theorem tokens_iff
    (h : Run (CoherentState.step cfg) (fun s a => KeepsStreaming s.toLoopCore a)
      (init cfg noise) tr s) (hpc : s.pc = .refRead) {k : Nat} (hk : k ≤ cfg.ndev) :
    (s.stream k).newdata.toUInt32 = (s.stream k).s8bit.wp - (s.stream k).s8bit.rp ↔
      2 ^ 32 ∣ s.hist.skipped k := by
  refine ((tokenInv_of_run h).2 k hk).newdata_iff ?_
  simp [LoopCore.view, hpc, LoopPc.hasRead, LoopPc.hasPassed]

/-- A device with the two blocks that make it ready, through one iteration. -/
def filledTrace : List CoherentAction :=
  [.swapbuffer 0 fun _ => 0, .swapbuffer 1 fun _ => 0, .swapbuffer 1 fun _ => 0] ++
    List.replicate 18 .loop

theorem tokens_iff_filledTrace :
    ∃ s, Run (CoherentState.step (smallReceiver 1 2)) (fun s a => KeepsStreaming s.toLoopCore a)
        (init (smallReceiver 1 2) false) filledTrace s ∧ s.pc = .refRead ∧ s.hist.consumed 1 = 1 ∧
      ((s.stream 1).newdata.toUInt32 = (s.stream 1).s8bit.wp - (s.stream 1).s8bit.rp ↔
        2 ^ 32 ∣ s.hist.skipped 1) := by
  obtain ⟨s, hrun, hs⟩ := Run.exists_of_exec (CoherentState.step (smallReceiver 1 2))
    (fun s a => KeepsStreaming s.toLoopCore a) (init (smallReceiver 1 2) false) filledTrace
    (fun s => s.pc = .refRead ∧ s.hist.consumed 1 = 1) (by decide +kernel)
  obtain ⟨hpc, hco⟩ := of_decide_eq_true hs
  exact ⟨s, hrun, hpc, hco, tokens_iff hrun hpc (by decide)⟩

/-- A device with one of the two blocks: the iteration takes the token and leaves the block. -/
def earlyTrace : List CoherentAction :=
  [.swapbuffer 0 fun _ => 0, .swapbuffer 1 fun _ => 0] ++ List.replicate 10 .loop

theorem not_tokens :
    ¬ ∀ tr s, Run (CoherentState.step (smallReceiver 1 2))
        (fun s a => KeepsStreaming s.toLoopCore a) (init (smallReceiver 1 2) false) tr s →
      s.pc = .refRead →
      (s.stream 1).newdata.toUInt32 = (s.stream 1).s8bit.wp - (s.stream 1).s8bit.rp := by
  intro hall
  obtain ⟨s, hrun, hs⟩ := Run.exists_of_exec (CoherentState.step (smallReceiver 1 2))
    (fun s a => KeepsStreaming s.toLoopCore a) (init (smallReceiver 1 2) false) earlyTrace
    (fun s => s.pc = .refRead ∧
      (s.stream 1).newdata.toUInt32 ≠ (s.stream 1).s8bit.wp - (s.stream 1).s8bit.rp)
    (by decide +kernel)
  obtain ⟨hpc, hne⟩ := of_decide_eq_true hs
  exact hne (hall _ s hrun hpc)

end CoherentState
end Aegir
