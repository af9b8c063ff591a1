import Aegir.Verify.LoopSteps

/-!
# Which channel a device is written as

The channel counter of the device loops advances in the `is_ready` branch only, so a device is
written as the channel that counts the ready devices before it (`channelOf`). That is its own number
if and only if all of them were ready (`channel_iff`).
-/

namespace Aegir

variable {C R : Type*} {ndev : Nat} {o : ByteOrder}

/-- The number of devices that the loop has tested in the current iteration. -/
def LoopPc.tested (ndev : Nat) : LoopPc → Nat
  | .dev _ i _ .read | .dev _ i _ .test => i - 1
  | .dev _ i _ _ => i
  | .lag | .notify => ndev
  | _ => 0

theorem nextDev_eq_dev {a a' : Bool} {i i' c c' : Nat} {p : DevPc} :
    nextDev ndev a i c = .dev a' i' c' p ↔ i ≤ ndev ∧ a = a' ∧ i = i' ∧ c = c' ∧ p = .read := by
  unfold nextDev
  split <;> simp [*, eq_comm]

theorem tested_nextDev {a : Bool} {i c : Nat} (hi : i ≤ ndev) :
    (nextDev ndev a (i + 1) c).tested ndev = i := by
  unfold nextDev
  split <;> simp only [LoopPc.tested] <;> omega

/-- The number of ready devices up to the device `d`, itself counted as ready: the channel counter
when the loop comes to it. The reference is channel 0. -/
def channelOf (found : Nat → Nat → Bool) (t d : Nat) : Nat :=
  if d = 0 then 0 else 1 + Nat.count (fun j => found t (j + 1) = true) (d - 1)

section
variable {found found' : Nat → Nat → Bool} {t d : Nat}

@[simp] theorem channelOf_one : channelOf found t 1 = 1 := by simp [channelOf]

theorem channelOf_succ (hd : 1 ≤ d) :
    channelOf found t (d + 1) = channelOf found t d + if found t d = true then 1 else 0 := by
  obtain ⟨d, rfl⟩ : ∃ e, d = e + 1 := ⟨d - 1, by omega⟩
  simp [channelOf, Nat.count_succ, Nat.add_assoc]

theorem channelOf_congr (h : ∀ j, 1 ≤ j → j < d → found' t j = found t j) :
    channelOf found' t d = channelOf found t d := by
  induction d with
  | zero => rfl
  | succ d ih =>
    rcases Nat.eq_zero_or_pos d with rfl | hd
    · simp
    · rw [channelOf_succ hd, channelOf_succ hd, ih fun j h₁ h₂ => h j h₁ (by omega),
        h d hd (by omega)]

theorem channelOf_le : channelOf found t d ≤ d := by
  unfold channelOf
  split
  · omega
  · have := Nat.count_le (p := fun j => found t (j + 1) = true) (n := d - 1)
    omega

theorem channelOf_eq_iff :
    channelOf found t d = d ↔ ∀ j, 1 ≤ j → j < d → found t j = true := by
  rcases Nat.eq_zero_or_pos d with rfl | hd
  · simp [channelOf]
  · have hcount : channelOf found t d = d ↔
        Nat.count (fun j => found t (j + 1) = true) (d - 1) = d - 1 := by
      unfold channelOf
      rw [if_neg (by omega)]
      omega
    rw [hcount, Nat.count_iff_forall]
    constructor
    · intro h j h₁ h₂
      have hj : found t (j - 1 + 1) = true := @h (j - 1) (by omega)
      rwa [Nat.sub_add_cancel h₁] at hj
    · exact fun h j hj => h (j + 1) (by omega) (by omega)

end

namespace LoopCore

variable {s s' : LoopCore C}

/-- The device `d` was tested in the iteration `t`, which is over or current. -/
def Tested (ndev : Nat) (s : LoopCore C) (t d : Nat) : Prop :=
  t < s.hist.iter ∨ t = s.hist.iter ∧ d ≤ s.pc.tested ndev

/-- The call is for the channel that the ready devices before `d` leave, and these have all been
tested. -/
structure Labels (ndev : Nat) (s : LoopCore C) (t d c : Nat) : Prop where
  channel : c = channelOf s.hist.found t d
  tested : Tested ndev s t d

/-- The locals of the device loops. -/
structure Counter (ndev : Nat) (s : LoopCore C) (i c : Nat) (p : DevPc) : Prop where
  pos : 1 ≤ i
  le : i ≤ ndev
  count : c = channelOf s.hist.found s.hist.iter i
  ready : p ≠ .read → p ≠ .test → s.hist.found s.hist.iter i = true

/-- What holds of the channels in every reachable state. -/
structure ChannelInv (ndev : Nat) (s : LoopCore C) : Prop where
  writes : ∀ w ∈ s.hist.writes, Labels ndev s w.iter w.dev w.channeln
  debugs : ∀ w ∈ s.hist.debugs, Labels ndev s w.iter w.dev w.channeln
  counter : ∀ a i c p, s.pc = .dev a i c p → Counter ndev s i c p

/-- The loop moves on and the tests made before keep their results. -/
structure Advances (ndev : Nat) (s s' : LoopCore C) : Prop where
  tested : ∀ t d, Tested ndev s t d → Tested ndev s' t d
  found : ∀ t d, Tested ndev s t d → ∀ j, j ≤ d → 1 ≤ j → s'.hist.found t j = s.hist.found t j

theorem Advances.labels (h : Advances ndev s s') {t d c : Nat} (hl : Labels ndev s t d c) :
    Labels ndev s' t d c where
  channel := hl.channel.trans
    (channelOf_congr fun j h₁ h₂ => h.found t d hl.tested j h₂.le h₁).symm
  tested := h.tested t d hl.tested

theorem Advances.of_le (hf : s'.hist.found = s.hist.found) (ht : s'.hist.iter = s.hist.iter)
    (hle : s.pc.tested ndev ≤ s'.pc.tested ndev) : Advances ndev s s' where
  tested t d h := by unfold Tested at h ⊢; omega
  found t d _ j _ _ := by rw [hf]

theorem ChannelInv.of_advances (hi : ChannelInv ndev s) (ha : Advances ndev s s')
    (hw : s'.hist.writes = s.hist.writes) (hd : s'.hist.debugs = s.hist.debugs)
    (hc : ∀ a i c p, s'.pc = .dev a i c p → Counter ndev s' i c p) : ChannelInv ndev s' where
  writes w hm := ha.labels (hi.writes w (hw ▸ hm))
  debugs w hm := ha.labels (hi.debugs w (hd ▸ hm))
  counter := hc

theorem advances_foundReady {a : Bool} {i c : Nat} {b : Bool} {pc : LoopPc}
    (hpc : s.pc = .dev a i c .test) (hi : 1 ≤ i) (hle : i ≤ pc.tested ndev) :
    Advances ndev s ((s.foundReady i b).goto pc) where
  tested t d h := by
    have hold : s.pc.tested ndev = i - 1 := by rw [hpc]; rfl
    unfold Tested at h
    show t < s.hist.iter ∨ t = s.hist.iter ∧ d ≤ pc.tested ndev
    omega
  found t d h j hj _ := by
    have hold : s.pc.tested ndev = i - 1 := by rw [hpc]; rfl
    unfold Tested at h
    show Function.update s.hist.found s.hist.iter _ t j = _
    by_cases ht : t = s.hist.iter
    · subst ht
      rw [Function.update_self, Function.update_of_ne (by omega)]
    · rw [Function.update_of_ne ht]

theorem channelOf_foundReady {i : Nat} {b : Bool} :
    channelOf (s.foundReady i b).hist.found s.hist.iter i =
      channelOf s.hist.found s.hist.iter i :=
  channelOf_congr fun j _ hj => by
    simp only [foundReady, Function.update_self, Function.update_apply]
    rw [if_neg (by omega)]

theorem found_foundReady {i : Nat} {b : Bool} :
    (s.foundReady i b).hist.found s.hist.iter i = b := by
  simp [foundReady]

theorem ChannelInv.write {i c : Nat} {samples : Nat → C} {pc : LoopPc} (hi : ChannelInv ndev s)
    (hl : Labels ndev s s.hist.iter i c) (hle : s.pc.tested ndev ≤ pc.tested ndev)
    (hc : ∀ a i c p, pc = .dev a i c p → Counter ndev s i c p) :
    ChannelInv ndev ((s.write i c samples).goto pc) := by
  have ha : Advances ndev s ((s.write i c samples).goto pc) := .of_le rfl rfl hle
  refine ⟨fun w hm => ?_, fun w hm => ha.labels (hi.debugs w hm), fun a i c p hpc => ?_⟩
  · rcases List.mem_append.mp hm with hm | hm
    · exact ha.labels (hi.writes w hm)
    · rw [List.mem_singleton.mp hm]; exact ha.labels hl
  · obtain ⟨h₁, h₂, h₃, h₄⟩ := hc a i c p hpc
    exact ⟨h₁, h₂, h₃, h₄⟩

theorem ChannelInv.step {a : CoherentAction} (hi : ChannelInv ndev s)
    (h : CoreStep ndev o a s s') : ChannelInv ndev s' := by
  cases h with
  | refRead hpc hd =>
    exact hi.of_advances (.of_le rfl rfl (by simp [hpc, LoopPc.tested])) rfl rfl
      fun _ _ _ _ h => by cases h
  | refConv hpc | refQueue hpc | refConsume hpc | syncNext hpc | lag hpc =>
    exact hi.of_advances (.of_le rfl rfl (by simp [hpc, goto, LoopPc.tested])) rfl rfl
      fun _ _ _ _ h => by cases h
  | refWrite samples hpc =>
    refine hi.write ⟨by simp [channelOf], .inr ⟨rfl, Nat.zero_le _⟩⟩
      (by simp [hpc, LoopPc.tested]) fun _ _ _ _ h => by cases h
  | syncEnd a hpc =>
    refine hi.of_advances (.of_le rfl rfl (by simp [hpc, LoopPc.tested])) rfl rfl
      fun _ _ _ _ h => ?_
    obtain ⟨h₁, -, rfl, rfl, rfl⟩ := nextDev_eq_dev.mp h
    exact ⟨le_rfl, h₁, by simp, by simp⟩
  | read hpc hd =>
    obtain ⟨h₁, h₂, h₃, -⟩ := hi.counter _ _ _ _ hpc
    refine hi.of_advances (.of_le rfl rfl (by simp [hpc, goto, LoopPc.tested])) rfl rfl ?_
    rintro _ _ _ _ ⟨⟩
    exact ⟨h₁, h₂, h₃, by simp⟩
  | @ready _ a i c hpc =>
    obtain ⟨h₁, h₂, h₃, -⟩ := hi.counter _ _ _ _ hpc
    refine hi.of_advances (advances_foundReady hpc h₁ le_rfl) rfl rfl ?_
    rintro _ _ _ _ ⟨⟩
    exact ⟨h₁, h₂, h₃.trans channelOf_foundReady.symm, fun _ _ => found_foundReady⟩
  | @notReady _ a i c hpc =>
    obtain ⟨h₁, h₂, h₃, -⟩ := hi.counter _ _ _ _ hpc
    refine hi.of_advances (advances_foundReady hpc h₁ (tested_nextDev h₂).ge) rfl rfl
      fun _ _ _ _ h => ?_
    obtain ⟨h₄, -, rfl, rfl, rfl⟩ := nextDev_eq_dev.mp h
    refine ⟨by omega, h₄, ?_, by simp⟩
    have hcount : channelOf (s.foundReady i false).hist.found s.hist.iter (i + 1) = _ :=
      channelOf_succ h₁
    rw [channelOf_foundReady, found_foundReady, ← h₃] at hcount
    exact hcount.symm
  | @correcting _ a i c p p' hpc hp hp' =>
    obtain ⟨h₁, h₂, h₃, h₄⟩ := hi.counter _ _ _ _ hpc
    have hready : s.hist.found s.hist.iter i = true :=
      h₄ (by rintro rfl; cases hp) (by rintro rfl; cases hp)
    have hold : s.pc.tested ndev = i := by rw [hpc]; cases p <;> first | rfl | cases hp
    have hnew : (LoopPc.dev a i c p').tested ndev = i := by
      cases p' <;> first | rfl | (rcases hp' with h | h <;> cases h)
    refine hi.of_advances (.of_le rfl rfl (hold.trans hnew.symm).le) rfl rfl ?_
    rintro _ _ _ _ ⟨⟩
    exact ⟨h₁, h₂, h₃, fun _ _ => hready⟩
  | @write _ a i c samples hpc =>
    obtain ⟨h₁, h₂, h₃, h₄⟩ := hi.counter _ _ _ _ hpc
    have htested : s.pc.tested ndev = i := by rw [hpc]; rfl
    refine hi.write ⟨h₃, .inr ⟨rfl, htested.ge⟩⟩ htested.le ?_
    rintro _ _ _ _ ⟨⟩
    exact ⟨h₁, h₂, h₃, fun _ _ => h₄ (by simp) (by simp)⟩
  | @debug _ a i c p hpc =>
    obtain ⟨h₁, h₂, h₃, h₄⟩ := hi.counter _ _ _ _ hpc
    have htested : s.pc.tested ndev = i := by rw [hpc]; rfl
    have ha : Advances ndev s ((s.writedebug i c p).goto (.dev a i c .consume)) :=
      .of_le rfl rfl htested.le
    refine ⟨fun w hm => ha.labels (hi.writes w hm), fun w hm => ?_, ?_⟩
    · rcases List.mem_append.mp hm with hm | hm
      · exact ha.labels (hi.debugs w hm)
      · rw [List.mem_singleton.mp hm]; exact ha.labels ⟨h₃, .inr ⟨rfl, htested.ge⟩⟩
    · rintro _ _ _ _ ⟨⟩
      exact ⟨h₁, h₂, h₃, fun _ _ => h₄ (by simp) (by simp)⟩
  | @consume _ a i c hpc =>
    obtain ⟨h₁, h₂, h₃, h₄⟩ := hi.counter _ _ _ _ hpc
    have htested : s.pc.tested ndev = i := by rw [hpc]; rfl
    refine hi.of_advances (.of_le rfl rfl (htested.trans (tested_nextDev h₂).symm).le) rfl rfl
      fun _ _ _ _ h => ?_
    obtain ⟨h₅, -, rfl, rfl, rfl⟩ := nextDev_eq_dev.mp h
    refine ⟨by omega, h₅, ?_, by simp⟩
    have hcount : channelOf s.hist.found s.hist.iter (i + 1) = _ := channelOf_succ h₁
    rw [h₄ (by simp) (by simp), if_pos rfl, ← h₃] at hcount
    exact hcount.symm
  | notify hpc =>
    refine hi.of_advances ⟨fun t d h => .inl ?_, fun _ _ _ _ _ _ => rfl⟩ rfl rfl
      fun _ _ _ _ h => by cases h
    show t < s.hist.iter + 1
    unfold Tested at h
    omega
  | swapbuffer k b =>
    refine hi.of_advances (.of_le rfl rfl le_rfl) rfl rfl fun a i c p h => ?_
    obtain ⟨h₁, h₂, h₃, h₄⟩ := hi.counter a i c p h
    exact ⟨h₁, h₂, h₃, h₄⟩
  | setStreaming k on =>
    refine hi.of_advances (.of_le rfl rfl le_rfl) rfl rfl fun a i c p h => ?_
    obtain ⟨h₁, h₂, h₃, h₄⟩ := hi.counter a i c p h
    exact ⟨h₁, h₂, h₃, h₄⟩
  | quiet ha => exact hi

/-- The calls are for devices in the vector and the reference. -/
structure InVector (ndev : Nat) (s : LoopCore C) : Prop where
  writes : ∀ w ∈ s.hist.writes, w.dev ≤ ndev
  debugs : ∀ w ∈ s.hist.debugs, w.dev ≤ ndev

theorem InVector.step {a : CoherentAction} (hv : InVector ndev s) (hi : ChannelInv ndev s)
    (h : CoreStep ndev o a s s') : InVector ndev s' := by
  cases h with
  | refWrite samples hpc =>
    refine ⟨fun w hm => ?_, hv.debugs⟩
    rcases List.mem_append.mp hm with hm | hm
    · exact hv.writes w hm
    · rw [List.mem_singleton.mp hm]; exact Nat.zero_le _
  | write samples hpc =>
    refine ⟨fun w hm => ?_, hv.debugs⟩
    rcases List.mem_append.mp hm with hm | hm
    · exact hv.writes w hm
    · rw [List.mem_singleton.mp hm]; exact (hi.counter _ _ _ _ hpc).le
  | debug p hpc =>
    refine ⟨hv.writes, fun w hm => ?_⟩
    rcases List.mem_append.mp hm with hm | hm
    · exact hv.debugs w hm
    · rw [List.mem_singleton.mp hm]; exact (hi.counter _ _ _ _ hpc).le
  | _ => exact ⟨hv.writes, hv.debugs⟩

end LoopCore

namespace CoherentState

variable [Field C] [Star C] [Field R] [DecidableEq R]
  {cfg : CoherentConfig C R} {s₀ s : CoherentState C R}
  {tr : List CoherentAction}

/-- The loop starts, nothing has been written. The devices may be in any state. -/
structure AtStart (s : CoherentState C R) : Prop where
  pc : s.pc = .refRead
  writes : s.hist.writes = []
  debugs : s.hist.debugs = []

theorem channelInv_of_run (h₀ : AtStart s₀) (h : Run (CoherentState.step cfg) anyStep s₀ tr s) :
    LoopCore.ChannelInv cfg.ndev s.toLoopCore ∧ LoopCore.InVector cfg.ndev s.toLoopCore := by
  have hinit : LoopCore.ChannelInv cfg.ndev s₀.toLoopCore :=
    ⟨by simp [h₀.writes], by simp [h₀.debugs], fun _ _ _ _ h => by simp [h₀.pc] at h⟩
  exact core_invariant (I := fun s => LoopCore.ChannelInv cfg.ndev s ∧ LoopCore.InVector cfg.ndev s)
    anyStep ⟨hinit, by simp [h₀.writes], by simp [h₀.debugs]⟩
    (fun _ _ _ hi _ hs => ⟨hi.1.step hs, hi.2.step hi.1 hs⟩) h

/-- After every run: a device was written as the channel of its own number, by `write` and by
`writedebug`, if and only if every device before it was found ready in that iteration. -/
theorem channel_iff (h₀ : AtStart s₀) (h : Run (CoherentState.step cfg) anyStep s₀ tr s) :
    (∀ w ∈ s.hist.writes, w.channeln = w.dev ↔
      ∀ j, 1 ≤ j → j < w.dev → s.hist.found w.iter j = true) ∧
    (∀ w ∈ s.hist.debugs, w.channeln = w.dev ↔
      ∀ j, 1 ≤ j → j < w.dev → s.hist.found w.iter j = true) := by
  have hi := (channelInv_of_run h₀ h).1
  exact ⟨fun w hw => by rw [(hi.writes w hw).channel, channelOf_eq_iff],
    fun w hw => by rw [(hi.debugs w hw).channel, channelOf_eq_iff]⟩

/-- Two devices of which the second is ready first: its block is written as channel 1. -/
def exchangedTrace : List CoherentAction :=
  List.flatten [[.swapbuffer 0 fun _ => 0, .swapbuffer 1 fun _ => 0, .swapbuffer 2 fun _ => 0,
    .swapbuffer 2 fun _ => 0], List.replicate 18 .loop]

theorem channel_iff_exchangedTrace :
    ∃ s, Run (CoherentState.step (smallReceiver 2 2)) anyStep (init (smallReceiver 2 2) true)
        exchangedTrace s ∧
      s.hist.writes.map (·.dev) = [0, 2] ∧
      ∀ w ∈ s.hist.writes, w.channeln = w.dev ↔
        ∀ j, 1 ≤ j → j < w.dev → s.hist.found w.iter j = true := by
  obtain ⟨s, hrun, hs⟩ := Run.exists_of_exec (CoherentState.step (smallReceiver 2 2)) anyStep
    (init (smallReceiver 2 2) true) exchangedTrace
    (fun s => s.hist.writes.map (·.dev) == [0, 2]) (by decide +kernel)
  exact ⟨s, hrun, by simpa using hs, (channel_iff ⟨rfl, rfl, rfl⟩ hrun).1⟩

theorem not_channel_eq_dev :
    ¬ ∀ tr s, Run (CoherentState.step (smallReceiver 2 2)) anyStep
        (init (smallReceiver 2 2) true) tr s →
      (∀ w ∈ s.hist.writes, w.channeln = w.dev) ∧ ∀ w ∈ s.hist.debugs, w.channeln = w.dev := by
  intro hall
  obtain ⟨s, hrun, hs⟩ := Run.exists_of_exec (CoherentState.step (smallReceiver 2 2)) anyStep
    (init (smallReceiver 2 2) true) exchangedTrace
    (fun s => s.hist.writes.map (fun w => (w.dev, w.channeln)) == [(0, 0), (2, 1)]) (by decide +kernel)
  have hmap : s.hist.writes.map (fun w => (w.dev, w.channeln)) = [(0, 0), (2, 1)] := by
    simpa using hs
  have hmem : (2, 1) ∈ s.hist.writes.map (fun w => (w.dev, w.channeln)) := by simp [hmap]
  obtain ⟨w, hw, he⟩ := List.mem_map.mp hmem
  have := (hall _ s hrun).1 w hw
  simp only [Prod.mk.injEq] at he
  omega

end CoherentState
end Aegir
