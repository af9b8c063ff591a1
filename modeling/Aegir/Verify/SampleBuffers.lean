import Aegir.Verify.LoopSteps

/-!
# The layout of the sample buffers

Whatever is called on a device, its samples stay in the half of the buffer that its `convtofloat`
writes, and the other half stays zero (`Reaches.second`, `Reaches.first`). Along a run of the coherent
loop each queued block is a copy of a buffer that was reached in this way, the reference first
(`queued_of_run`).
-/

namespace Aegir

variable {C R : Type*}

namespace Csdrdevice

variable [Field C] {cf : ComplexFloat C} {blocksize : Nat} {d : Csdrdevice C R} {i : Nat}

theorem convtofloat_of_lt {block : Mem} (hi : i < blocksize >>> 1) :
    (d.convtofloat cf blocksize block).sfloat i = sample cf block i :=
  overwrite_zero hi

theorem convtofloat_of_ge {block : Mem} (hi : blocksize >>> 1 ≤ i) :
    (d.convtofloat cf blocksize block).sfloat i = d.sfloat i :=
  overwrite_of_ge ((Nat.zero_add _).trans_le hi)

theorem refConvtofloat_add {block : Mem} (hi : i < blocksize >>> 1) :
    (d.refConvtofloat cf blocksize block).sfloat (i + blocksize >>> 1) = sample cf block i := by
  rw [Nat.add_comm]
  exact overwrite_add hi

theorem phasecorrect_of_lt (hi : i < blocksize >>> 1) :
    (d.phasecorrect blocksize).sfloat i = d.sfloat i * d.phasecorr := by
  simp only [phasecorrect, overwrite_zero hi]

theorem phasecorrect_of_ge (hi : blocksize >>> 1 ≤ i) :
    (d.phasecorrect blocksize).sfloat i = d.sfloat i := by
  simp only [phasecorrect, overwrite_of_ge ((Nat.zero_add _).trans_le hi)]

variable [Star C]

theorem call_second {c : DeviceCall C R} (hi : blocksize >>> 1 ≤ i) :
    (d.call cf blocksize false c).sfloat i = d.sfloat i := by
  cases c with
  | convtofloat block => exact convtofloat_of_ge hi
  | phasecorrect => exact phasecorrect_of_ge hi
  | _ => rfl

theorem call_first {c : DeviceCall C R} (hi : i < blocksize >>> 1) (h : d.sfloat i = 0) :
    (d.call cf blocksize true c).sfloat i = 0 := by
  cases c with
  | convtofloat block => exact (overwrite_of_lt hi).trans h
  | phasecorrect => exact (phasecorrect_of_lt hi).trans (by rw [h, zero_mul])
  | _ => exact h

variable [Zero R]

/-- The device is reached from the constructor by calls of its members. -/
def Reaches (cf : ComplexFloat C) (blocksize : Nat) (refsdr : Bool) (d : Csdrdevice C R) : Prop :=
  ∃ calls, Run (fun d c => some (d.call cf blocksize refsdr c)) anyStep .init calls d

theorem Reaches.init {refsdr : Bool} :
    Reaches cf blocksize refsdr (.init : Csdrdevice C R) := ⟨[], .nil⟩

theorem Reaches.call {refsdr : Bool} (h : Reaches cf blocksize refsdr d) (c : DeviceCall C R) :
    Reaches cf blocksize refsdr (d.call cf blocksize refsdr c) :=
  h.elim fun _ hrun => ⟨_, hrun.snoc trivial rfl⟩

/-- The second half of a signal device's buffer is zero. -/
theorem Reaches.second (h : Reaches cf blocksize false d) (hi : blocksize >>> 1 ≤ i) :
    d.sfloat i = 0 := by
  obtain ⟨calls, hrun⟩ := h
  exact hrun.invariant (I := fun d => d.sfloat i = 0) rfl fun d c d' hd _ hs => by
    cases hs
    exact (call_second hi).trans hd

/-- The first half of the reference's buffer is zero. -/
theorem Reaches.first (h : Reaches cf blocksize true d) (hi : i < blocksize >>> 1) :
    d.sfloat i = 0 := by
  obtain ⟨calls, hrun⟩ := h
  exact hrun.invariant (I := fun d => d.sfloat i = 0) rfl fun d c d' hd _ hs => by
    cases hs
    exact call_first hi hd

end Csdrdevice

/-! ## The queue -/

/-- The loop body for a device is past `queuelag`. -/
def DevPc.pastQueue : DevPc → Bool
  | .read | .test | .conv | .lagtest | .queue => false
  | _ => true

/-- The devices in the queue are below this one, where the loop says so. -/
def LoopPc.queueBound : LoopPc → Option Nat
  | .refConv | .refQueue => some 0
  | .refWrite | .refConsume | .syncTest _ => some 1
  | .dev _ i _ p => some (if p.pastQueue then i + 1 else i)
  | .refRead | .lag | .notify => none

/-- The reference has been queued in the current iteration. -/
def LoopPc.refQueued : LoopPc → Bool
  | .refRead | .refConv | .refQueue | .notify => false
  | _ => true

namespace CoherentState

section
variable [Field C] [Star C] [Zero R]

/-- Each block of the input buffer that is in the queue is a copy of a reached buffer, the reference
first. -/
structure Queued (cfg : CoherentConfig C R) (samples : Nat → Nat → C) (s : CoherentState C R) :
    Prop where
  length : s.lagqueue.length ≤ cfg.nfft
  nodup : s.lagqueue.Nodup
  reaches : ∀ k < s.lagqueue.length, ∃ d : Csdrdevice C R,
    d.Reaches cfg.cf cfg.blocksize.toNat (k = 0) ∧ samples k = d.sfloat
  slots : ∀ k < s.lagqueue.length, ∀ i < cfg.blocksize.toNat,
    s.buf.sfloat (k * cfg.blocksize.toNat + i) = samples k i

/-- Each block that is in the queue is a copy of a reached buffer of its device. -/
def SlotsReached (cfg : CoherentConfig C R) (lagqueue : List Nat) (sfloat : Nat → C) : Prop :=
  ∀ j k, lagqueue[j]? = some k → ∃ d : Csdrdevice C R,
    d.Reaches cfg.cf cfg.blocksize.toNat (k = 0) ∧
      ∀ i < cfg.blocksize.toNat, sfloat (j * cfg.blocksize.toNat + i) = d.sfloat i

/-- The queue in every reachable state. -/
structure QueueInv (cfg : CoherentConfig C R) (s : CoherentState C R) : Prop where
  length : s.lagqueue.length ≤ cfg.nfft
  sorted : s.lagqueue.Pairwise (· < ·)
  bound : ∀ b, s.pc.queueBound = some b → ∀ k ∈ s.lagqueue, k < b
  first : s.pc.refQueued = true → 0 < cfg.nfft → s.lagqueue.head? = some 0
  slots : SlotsReached cfg s.lagqueue s.buf.sfloat

end

/-! ## The steps -/

/-- What a step does to the queue. -/
inductive QueueStep (cfg : CoherentConfig C R) (s : CoherentState C R) : CoherentState C R → Prop
  | cleared {s'} (hl : s'.lagqueue = []) (hq : s'.pc.refQueued = false) : QueueStep cfg s s'
  | queued {s'} (k) (hb : s.pc.queueBound = some k) (hb' : s'.pc.queueBound = some (k + 1))
    (hq : s.pc.refQueued = true ∨ k = 0) (hl : s'.lagqueue = (s.queuelag cfg k).lagqueue)
    (hs : s'.buf.sfloat = (s.queuelag cfg k).buf.sfloat) : QueueStep cfg s s'
  | kept {s'} (hl : s'.lagqueue = s.lagqueue) (hs : s'.buf.sfloat = s.buf.sfloat)
    (hb : ∀ b', s'.pc.queueBound = some b' → ∃ b ≤ b', s.pc.queueBound = some b)
    (hq : s'.pc.refQueued = true → s.pc.refQueued = true) : QueueStep cfg s s'

variable {cfg : CoherentConfig C R} {s s' : CoherentState C R}

theorem QueueStep.goto (hl : s'.lagqueue = s.lagqueue) (hs : s'.buf.sfloat = s.buf.sfloat) {b b' : Nat}
    (hb : s.pc.queueBound = some b) (hb' : s'.pc.queueBound = some b' ∨ s'.pc.queueBound = none)
    (hle : b ≤ b') (hq : s'.pc.refQueued = true → s.pc.refQueued = true) : QueueStep cfg s s' := by
  refine .kept hl hs (fun c hc => ⟨b, ?_, hb⟩) hq
  rcases hb' with h | h <;> rw [h] at hc <;> cases hc
  exact hle

theorem queueBound_nextDev {ndev i c : Nat} {a : Bool} :
    (nextDev ndev a i c).queueBound = some i ∨ (nextDev ndev a i c).queueBound = none := by
  unfold nextDev
  split
  · exact .inl rfl
  · exact .inr rfl

/-- The device loops are for signal devices. -/
def SignalLoop (s : CoherentState C R) : Prop :=
  ∀ b, s.pc.queueBound = some b → s.pc.refQueued = true → 1 ≤ b

theorem SignalLoop.step (hi : SignalLoop s) (h : QueueStep cfg s s') : SignalLoop s' := by
  intro b' hb' hq'
  cases h with
  | cleared _ hq => rw [hq] at hq'; cases hq'
  | queued k _ hb => rw [hb] at hb'; cases hb'; exact Nat.succ_pos k
  | kept _ _ hb hq =>
    obtain ⟨b, hle, hb⟩ := hb b' hb'
    exact (hi b hb (hq hq')).trans hle

variable [Field C] [Star C]

variable [Field R]

/-- All devices are reached by calls of their members. -/
def DevicesReached (cfg : CoherentConfig C R) (dsp : Nat → Csdrdevice C R) : Prop :=
  ∀ k, (dsp k).Reaches cfg.cf cfg.blocksize.toNat (k = 0)

theorem DevicesReached.update {dsp : Nat → Csdrdevice C R} {k : Nat} (c : DeviceCall C R)
    (hi : DevicesReached cfg dsp) : DevicesReached cfg
      (Function.update dsp k ((dsp k).call cfg.cf cfg.blocksize.toNat (k = 0) c)) := by
  intro j
  by_cases hj : j = k
  · subst hj
    rw [Function.update_self]
    exact (hi j).call c
  · rw [Function.update_of_ne hj]
    exact hi j

theorem DevicesReached.convtofloat {dsp : Nat → Csdrdevice C R} {k : Nat} (block : Mem) (hk : k ≠ 0)
    (hi : DevicesReached cfg dsp) : DevicesReached cfg
      (Function.update dsp k ((dsp k).convtofloat cfg.cf cfg.blocksize.toNat block)) := by
  have h := hi.update (k := k) (.convtofloat block)
  rwa [decide_eq_false hk] at h

/-! ## The queue -/

theorem SlotsReached.queuelag {k : Nat} (hi : SlotsReached cfg s.lagqueue s.buf.sfloat)
    (hd : DevicesReached cfg s.dsp) :
    SlotsReached cfg (s.queuelag cfg k).lagqueue (s.queuelag cfg k).buf.sfloat := by
  unfold CoherentState.queuelag
  split
  · intro j x hj
    rcases Nat.lt_or_ge j s.lagqueue.length with hlt | hge
    · -- an older block, before the one that is stored now
      obtain ⟨d, hreach, hslot⟩ := hi j x (by rwa [List.getElem?_append_left hlt] at hj)
      refine ⟨d, hreach, fun i hlti => ?_⟩
      have hend : j * cfg.blocksize.toNat + cfg.blocksize.toNat ≤
          s.lagqueue.length * cfg.blocksize.toNat := by
        rw [← Nat.succ_mul]
        exact Nat.mul_le_mul_right _ hlt
      exact (overwrite_of_lt (by omega)).trans (hslot i hlti)
    · obtain ⟨hz, rfl⟩ : j - s.lagqueue.length = 0 ∧ k = x := by
        simpa [List.getElem?_append_right hge, List.getElem?_singleton] using hj
      obtain rfl : j = s.lagqueue.length := by omega
      exact ⟨s.dsp k, hd k, fun i hlti => overwrite_add hlti⟩
  · exact hi

theorem QueueInv.step (hi : QueueInv cfg s) (hd : DevicesReached cfg s.dsp)
    (h : QueueStep cfg s s') : QueueInv cfg s' := by
  cases h with
  | cleared hl hq =>
    exact ⟨by simp [hl], by simp [hl], by simp [hl], by simp [hq], by simp [hl, SlotsReached]⟩
  | queued k hb hb' hq hl hs =>
    have hslots := hl ▸ hs ▸ hi.slots.queuelag (k := k) hd
    have hbound := hi.bound k hb
    -- before the reference is queued, the queue is empty
    have hfirst : 0 < cfg.nfft → s.lagqueue.head? = some 0 ∨ k = 0 ∧ s.lagqueue = [] := by
      intro hn
      rcases hq with hq | rfl
      · exact .inl (hi.first hq hn)
      · exact .inr ⟨rfl, List.eq_nil_iff_forall_not_mem.mpr fun j hj =>
          Nat.not_lt_zero j (hbound j hj)⟩
    unfold CoherentState.queuelag at hl
    split at hl
    · rename_i hlt
      refine ⟨?_, ?_, fun b hbb j hj => ?_, fun _ hn => ?_, hslots⟩
      · rw [hl, List.length_append]
        exact hlt
      · rw [hl, List.pairwise_append]
        exact ⟨hi.sorted, List.pairwise_singleton _ _, by simpa using hbound⟩
      · rw [hb'] at hbb
        cases hbb
        rw [hl, List.mem_append, List.mem_singleton] at hj
        rcases hj with hj | rfl
        · exact (hbound j hj).trans (Nat.lt_succ_self k)
        · exact Nat.lt_succ_self j
      · rw [hl, List.head?_append]
        rcases hfirst hn with h | ⟨rfl, h⟩ <;> simp [h]
    · rename_i hfull
      refine ⟨by rw [hl]; exact hi.length, by rw [hl]; exact hi.sorted, fun b hbb j hj => ?_,
        fun _ hn => ?_, hslots⟩
      · rw [hb'] at hbb
        cases hbb
        exact (hbound j (hl ▸ hj)).trans (Nat.lt_succ_self k)
      · rcases hfirst hn with h | ⟨rfl, h⟩
        · rw [hl]; exact h
        · exact absurd (by simpa [h] using hn) hfull
  | kept hl hs hb hq =>
    refine ⟨by rw [hl]; exact hi.length, by rw [hl]; exact hi.sorted, fun b' hb' k hk => ?_,
      fun h hn => by rw [hl]; exact hi.first (hq h) hn, by rw [hl, hs]; exact hi.slots⟩
    obtain ⟨b, hle, hb⟩ := hb b' hb'
    exact (hi.bound b hb k (hl ▸ hk)).trans_le hle

variable [DecidableEq R]

theorem LoopStep.queueStep (h : LoopStep cfg s s') : QueueStep cfg s s' := by
  have hdev : ∀ {a i c p}, s.pc = .dev a i c p →
      s.pc.queueBound = some (if p.pastQueue then i + 1 else i) ∧ s.pc.refQueued = true :=
    fun hpc => by rw [hpc]; exact ⟨rfl, rfl⟩
  cases h with
  | refRead => exact .cleared rfl rfl
  | refConv hpc => exact .goto rfl rfl (by rw [hpc]; rfl) (.inl rfl) le_rfl fun h => by cases h
  | refQueue hpc => exact .queued 0 (by rw [hpc]; rfl) rfl (.inr rfl) rfl rfl
  | refWrite hpc | refConsume hpc | syncNext hpc =>
    exact .goto rfl rfl (by rw [hpc]; rfl) (.inl rfl) le_rfl fun _ => by rw [hpc]; rfl
  | syncEnd a hpc =>
    exact .goto rfl rfl (by rw [hpc]; rfl) queueBound_nextDev le_rfl fun _ => by rw [hpc]; rfl
  | read hpc | ready hpc | est hpc | phase hpc | write hpc | debug hpc =>
    exact .goto rfl rfl (hdev hpc).1 (.inl rfl) le_rfl fun _ => (hdev hpc).2
  | notReady hpc =>
    exact .goto rfl rfl (hdev hpc).1 queueBound_nextDev (Nat.le_succ _) fun _ => (hdev hpc).2
  | @conv a i c hpc =>
    cases a
    · exact .goto rfl rfl (hdev hpc).1 (.inl rfl) le_rfl fun _ => (hdev hpc).2
    · exact .goto rfl rfl (hdev hpc).1 (.inl rfl) (Nat.le_succ i) fun _ => (hdev hpc).2
  | @lagtest a i c hpc =>
    cases (s.dsp i).lagrequested
    · exact .goto rfl rfl (hdev hpc).1 (.inl rfl) (Nat.le_succ i) fun _ => (hdev hpc).2
    · exact .goto rfl rfl (hdev hpc).1 (.inl rfl) le_rfl fun _ => (hdev hpc).2
  | @queue a i c hpc => exact .queued i (hdev hpc).1 rfl (.inl (hdev hpc).2) rfl rfl
  | noise hpc =>
    cases s.noise <;> exact .goto rfl rfl (hdev hpc).1 (.inl rfl) le_rfl fun _ => (hdev hpc).2
  | consume hpc =>
    exact .goto rfl rfl (hdev hpc).1 queueBound_nextDev le_rfl fun _ => (hdev hpc).2
  | lag _ _ hs =>
    obtain ⟨dsp, -, rfl⟩ := Option.map_eq_some_iff.mp hs
    exact .cleared rfl rfl
  | noLag | notify => exact .kept rfl rfl (fun _ h => by cases h) fun h => by cases h

theorem step_queue {a : CoherentAction} (h : s.step cfg a = some s') : QueueStep cfg s s' := by
  cases a with
  | loop => exact (loopStep_cases h).queueStep
  | cmdphaseConv | cmdphaseEst =>
    simp only [step] at h
    split at h <;> cases h
    exact .kept rfl rfl (fun b hb => ⟨b, le_rfl, hb⟩) id
  | _ => cases h; exact .kept rfl rfl (fun b hb => ⟨b, le_rfl, hb⟩) id

theorem DevicesReached.computelag (hi : DevicesReached cfg s.dsp) (h : s.computelag cfg = some s') :
    DevicesReached cfg s'.dsp := by
  obtain ⟨dsp, hfold, rfl⟩ := Option.map_eq_some_iff.mp h
  refine foldlM_invariant (fun dsp p dsp' hd hp => ?_) hi hfold
  obtain ⟨lag, -, rfl⟩ := Option.map_eq_some_iff.mp hp
  exact hd.update (.setLag lag)

theorem DevicesReached.loopStep (hi : DevicesReached cfg s.dsp) (hsig : SignalLoop s)
    (h : LoopStep cfg s s') : DevicesReached cfg s'.dsp := by
  cases h with
  | refConv => exact hi.update (.convtofloat _)
  | refQueue =>
    have hq : (s.queuelag cfg 0).dsp = s.dsp := queuelag_dsp 0
    exact hq ▸ hi
  | @queue a i c =>
    have hq : (s.queuelag cfg i).dsp = s.dsp := queuelag_dsp i
    exact hq ▸ hi
  | conv hpc =>
    exact hi.convtofloat _
      (Nat.one_le_iff_ne_zero.mp (hsig _ (by rw [hpc]; rfl) (by rw [hpc]; rfl)))
  | est => exact hi.update (.estPhasecorrect _)
  | phase => exact hi.update .phasecorrect
  | @lag s₁ _ _ hs => exact (hi.computelag hs : DevicesReached cfg s₁.dsp)
  | _ => exact hi

theorem DevicesReached.step {a : CoherentAction} (hi : DevicesReached cfg s.dsp)
    (hsig : SignalLoop s) (h : s.step cfg a = some s') : DevicesReached cfg s'.dsp := by
  cases a with
  | loop => exact hi.loopStep hsig (loopStep_cases h)
  | setSynchronized k state => cases h; exact hi.update (.setSynchronized state)
  | storeLagrequested k => cases h; exact hi.update .storeLagrequested
  | clearLagready k => cases h; exact hi.update .clearLagready
  | cmdphaseConv k =>
    simp only [CoherentState.step] at h
    split at h <;> cases h
    exact hi.convtofloat _ ‹_›
  | cmdphaseEst k =>
    simp only [CoherentState.step] at h
    split at h <;> cases h
    exact hi.update (.estPhasecorrect _)
  | swapbuffer | setStreaming | setState => cases h; exact hi

/-- What holds of the samples in every reachable state. -/
structure SampleInv (cfg : CoherentConfig C R) (s : CoherentState C R) : Prop where
  devices : DevicesReached cfg s.dsp
  signal : SignalLoop s
  queue : QueueInv cfg s

theorem sampleInv_of_run {tr : List CoherentAction} {noise : Bool}
    (h : Run (CoherentState.step cfg) anyStep (CoherentState.init cfg noise) tr s) :
    SampleInv cfg s := by
  refine h.invariant ⟨fun _ => .init, fun _ h => (by cases h), ?_⟩ fun s a s' ⟨hd, hsig, hq⟩ _ hs =>
    ⟨hd.step hsig hs, hsig.step (step_queue hs), hq.step hd (step_queue hs)⟩
  exact ⟨Nat.zero_le _, .nil, nofun, nofun, fun j k h => by cases h⟩

/-- Whenever the loop comes to the lags, the queue has copies of reached buffers, the reference
first. -/
theorem queued_of_run {tr : List CoherentAction} {noise : Bool}
    (h : Run (CoherentState.step cfg) anyStep (CoherentState.init cfg noise) tr s)
    (hpc : s.pc = .lag) : ∃ samples, Queued cfg samples s := by
  obtain ⟨-, -, hq⟩ := sampleInv_of_run h
  have hslot : ∀ j, ∃ f : Nat → C, ∀ hj : j < s.lagqueue.length,
      (∃ d : Csdrdevice C R, d.Reaches cfg.cf cfg.blocksize.toNat (s.lagqueue[j] = 0) ∧
        f = d.sfloat) ∧
      ∀ i < cfg.blocksize.toNat, s.buf.sfloat (j * cfg.blocksize.toNat + i) = f i := by
    intro j
    by_cases hj : j < s.lagqueue.length
    · obtain ⟨d, hd, hi⟩ := hq.slots j _ (List.getElem?_eq_getElem hj)
      exact ⟨d.sfloat, fun _ => ⟨⟨d, hd, rfl⟩, hi⟩⟩
    · exact ⟨fun _ => 0, fun h => absurd h hj⟩
  choose samples hsamples using hslot
  refine ⟨samples, hq.length, hq.sorted.imp Nat.ne_of_lt, fun j hj => ?_,
    fun j hj => (hsamples j hj).2⟩
  -- the queue is increasing and starts with the reference
  have hpos : 0 < s.lagqueue.length := Nat.zero_lt_of_lt hj
  have h0 : s.lagqueue[0] = 0 := by
    have := hq.first (by rw [hpc]; rfl) (hpos.trans_le hq.length)
    rwa [List.head?_eq_getElem?, List.getElem?_eq_getElem hpos, Option.some_inj] at this
  have hiff : s.lagqueue[j] = 0 ↔ j = 0 := by
    constructor
    · intro hz
      by_contra hne
      have := List.pairwise_iff_getElem.mp hq.sorted 0 j hpos hj (Nat.pos_of_ne_zero hne)
      omega
    · rintro rfl
      exact h0
  simpa only [hiff] using (hsamples j hj).1

end CoherentState
end Aegir
