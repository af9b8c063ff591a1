import Aegir.Verify.Iteration

/-!
# Which lag requests an iteration serves

A record of the iteration has the devices whose requests the loop meets on its way and the ones for
which `computelag` calls `set_lag`. The loop body for a system that is not synchronized queues every
request that fits; the one for synchronized devices does not ask for requests. So the requests of an
iteration are served if and only if it is not of the second kind or has none (`served_iff`); while all
devices are synchronized, who asks for a lag and waits for it waits on (`unanswered_of_run`).
-/

namespace Aegir

/-- What the current iteration has done about the lags. -/
structure LagRecord where
  /-- The local of that name. -/
  allsynced : Bool
  /-- The ready devices whose `lagrequested` was set when the loop had converted their block. -/
  requests : List Nat
  /-- The devices for which `set_lag` was called. -/
  lagsSet : List Nat

namespace LagRecord

variable {C R : Type*}

/-- What a step adds to the record. The two copies of the loop body go on from `convtofloat` with
`is_lagrequested` and with `phasecorrect`. -/
def observe (cfg : CoherentConfig C R) (s : CoherentState C R) (a : CoherentAction)
    (_ : CoherentState C R) (h : LagRecord) : LagRecord :=
  match a, s.pc with
  | .loop, .refRead => ⟨false, [], []⟩
  | .loop, .syncTest i => { h with allsynced := cfg.ndev < i }
  | .loop, .dev false i _ .lagtest | .loop, .dev true i _ .phase =>
    if (s.dsp i).lagrequested then { h with requests := h.requests ++ [i] } else h
  | .loop, .lag =>
    { h with lagsSet := if 1 < s.lagqueue.length then s.lagqueue.drop 1 else [] }
  | _, _ => h

/-- `set_lag` has been called for every device with a request that came before the queue was full. -/
def Served (nfft : Nat) (h : LagRecord) : Prop :=
  ∀ l₁ k l₂, h.requests = l₁ ++ k :: l₂ → l₁.length < nfft - 1 → k ∈ h.lagsSet

/-- The requests that the loop queues. -/
def queued (h : LagRecord) : List Nat := if h.allsynced then [] else h.requests

end LagRecord

/-- What the record says about the queue. At `queuelag`, the last request is not yet in it. -/
def LagInv (nfft : Nat) (lagqueue : List Nat) (h : LagRecord) : LoopPc → Prop
  | .refRead => True
  | .refConv | .refQueue => h.requests = [] ∧ lagqueue = []
  | .refWrite | .refConsume | .syncTest _ => h.requests = [] ∧ lagqueue = [0].take nfft
  | .dev a i _ .queue =>
    h.allsynced = a ∧ ∃ l, h.queued = l ++ [i] ∧ lagqueue = (0 :: l).take nfft
  | .dev a _ _ _ => h.allsynced = a ∧ lagqueue = (0 :: h.queued).take nfft
  | .lag => lagqueue = (0 :: h.queued).take nfft
  | .notify => h.lagsSet = h.queued.take (nfft - 1)

theorem LagInv.nextDev {ndev nfft i c : Nat} {a : Bool} {lagqueue : List Nat} {h : LagRecord}
    (ha : h.allsynced = a) (hl : lagqueue = (0 :: h.queued).take nfft) :
    LagInv nfft lagqueue h (nextDev ndev a i c) := by
  unfold Aegir.nextDev
  split
  · exact ⟨ha, hl⟩
  · exact hl

namespace CoherentState

variable {C R : Type*} {cfg : CoherentConfig C R} {s s' : CoherentState C R} {h : LagRecord}

theorem queuelag_lagqueue {k : Nat} {l : List Nat} (hl : s.lagqueue = l.take cfg.nfft) :
    (s.queuelag cfg k).lagqueue = (l ++ [k]).take cfg.nfft := by
  have hlen : s.lagqueue.length = min cfg.nfft l.length := by rw [hl, List.length_take]
  unfold queuelag
  split
  · rename_i hlt
    have hfit : l.length < cfg.nfft := by omega
    rw [List.take_of_length_le (by simpa using hfit)]
    simp [hl, List.take_of_length_le hfit.le]
  · rename_i hge
    rw [List.take_append_of_le_length (by omega)]
    exact hl

variable [Field C] [Star C] [Field R] [DecidableEq R]

theorem step_lagqueue {a : CoherentAction} (hs : s.step cfg a = some s') (ha : a ≠ .loop) :
    s'.lagqueue = s.lagqueue := (step_frame hs ha).2.1

/-- The record has the devices that `computelag` calls `set_lag` for. -/
theorem lagsSet_dsp (hpc : s.pc = .lag) (hs : s.step cfg .loop = some s') (k : Nat) :
    (k ∈ (h.observe cfg s .loop s').lagsSet → ∃ p, s'.dsp k = (s.dsp k).setLag p) ∧
      (k ∉ (h.observe cfg s .loop s').lagsSet → s'.dsp k = s.dsp k) := by
  have hstep : LoopStep cfg s s' := loopStep_cases hs
  simp only [LagRecord.observe, hpc]
  cases hstep with
  | lag _ hl hlag =>
    rw [if_pos hl]
    exact computelag_dsp hlag k
  | noLag _ hl =>
    rw [if_neg hl.not_gt]
    exact ⟨nofun, fun _ => rfl⟩
  | _ hpc' => simp_all

theorem loop_lagInv (hcopy : s.pc.InCopy) (hi : LagInv cfg.nfft s.lagqueue h s.pc)
    (hs : LoopStep cfg s s') : LagInv cfg.nfft s'.lagqueue (h.observe cfg s .loop s') s'.pc := by
  cases hs with
  | refRead hpc =>
    simp only [LagRecord.observe, hpc]
    exact ⟨rfl, rfl⟩
  | refConv hpc =>
    simp only [LagRecord.observe, hpc] at hi ⊢
    exact hi
  | refQueue hpc =>
    simp only [LagRecord.observe, hpc] at hi ⊢
    exact ⟨hi.1, queuelag_lagqueue (by rw [hi.2, List.take_nil])⟩
  | refWrite hpc | refConsume hpc =>
    simp only [LagRecord.observe, hpc] at hi ⊢
    exact hi
  | syncNext hpc =>
    simp only [LagRecord.observe, hpc] at hi ⊢
    exact hi
  | syncEnd a hpc ha =>
    simp only [LagRecord.observe, hpc] at hi ⊢
    exact .nextDev ha.symm (by simpa [LagRecord.queued, hi.1] using hi.2)
  | @read a i c d hpc | @ready a i c hpc | @write a i c hpc | @debug a i c hpc =>
    simp only [LagRecord.observe, hpc] at hi ⊢
    exact hi
  | @notReady a i c hpc | @consume a i c hpc =>
    simp only [LagRecord.observe, hpc] at hi ⊢
    exact .nextDev hi.1 hi.2
  | @conv a i c hpc =>
    simp only [LagRecord.observe, hpc] at hi ⊢
    cases a <;> exact hi
  | @lagtest a i c hpc =>
    rw [hpc] at hi hcopy
    cases a with
    | true => exact absurd rfl hcopy.1
    | false =>
      obtain ⟨ha, hq⟩ := hi
      simp only [LagRecord.observe, hpc]
      split
      · exact ⟨ha, h.requests, by simp [LagRecord.queued, ha], by simpa [LagRecord.queued, ha] using hq⟩
      · exact ⟨ha, hq⟩
  | @queue a i c hpc =>
    simp only [LagRecord.observe, hpc] at hi ⊢
    obtain ⟨ha, l, hl, hq⟩ := hi
    exact ⟨ha, by rw [hl]; exact queuelag_lagqueue hq⟩
  | @noise a i c hpc | @est a i c hpc =>
    simp only [LagRecord.observe, hpc] at hi ⊢
    cases s.noise <;> exact hi
  | @phase a i c hpc =>
    rw [hpc] at hi
    obtain ⟨ha, hq⟩ := hi
    cases a with
    | false =>
      simp only [LagRecord.observe, hpc]
      exact ⟨ha, hq⟩
    | true =>
      have hq : s.lagqueue = [0].take cfg.nfft := by simpa [LagRecord.queued, ha] using hq
      simp only [LagRecord.observe, hpc]
      refine ⟨by split <;> exact ha, hq.trans ?_⟩
      split <;> simp [LagRecord.queued, ha]
  | lag hpc hl hs =>
    simp only [LagRecord.observe, hpc, if_pos hl] at hi ⊢
    show s.lagqueue.drop 1 = h.queued.take (cfg.nfft - 1)
    rw [hi, List.drop_take, List.drop_one, List.tail_cons]
  | noLag hpc hl =>
    simp only [LagRecord.observe, hpc, if_neg hl.not_gt] at hi ⊢
    show [] = h.queued.take (cfg.nfft - 1)
    rw [← List.drop_eq_nil_of_le hl, hi, List.drop_take, List.drop_one, List.tail_cons]
  | notify hpc =>
    simp only [LagRecord.observe, hpc]
    trivial

theorem lagInv_of_run {p₀ p : CoherentState C R × LagRecord} {tr : List CoherentAction}
    (h₀ : p₀.1.pc = .refRead)
    (h : Run (observed (CoherentState.step cfg) (LagRecord.observe cfg)) anyStep p₀ tr p) :
    p.1.pc.InCopy ∧ LagInv cfg.nfft p.1.lagqueue p.2 p.1.pc := by
  refine h.invariant (I := fun p => p.1.pc.InCopy ∧ LagInv cfg.nfft p.1.lagqueue p.2 p.1.pc)
    (by rw [h₀]; exact ⟨trivial, trivial⟩) fun p a p' ⟨hcopy, hi⟩ _ hs => ?_
  obtain ⟨hs, hrec⟩ := observed_eq_some.mp hs
  refine ⟨step_inCopy hs hcopy, ?_⟩
  rw [hrec]
  cases a with
  | loop => exact loop_lagInv hcopy hi (loopStep_cases hs)
  | _ =>
    rw [step_pc hs nofun, step_lagqueue hs nofun]
    exact hi

/-- At the end of every iteration: every request that fits the queue has been served if and only if
the loop did not take the copy of its body for synchronized devices or no ready device had a
request. -/
theorem served_iff {p₀ p : CoherentState C R × LagRecord} {tr : List CoherentAction}
    (hn : 2 ≤ cfg.nfft) (h₀ : p₀.1.pc = .refRead)
    (h : Run (observed (CoherentState.step cfg) (LagRecord.observe cfg)) anyStep p₀ tr p)
    (hpc : p.1.pc = .notify) :
    p.2.Served cfg.nfft ↔ p.2.allsynced = false ∨ p.2.requests = [] := by
  have hlags : p.2.lagsSet = p.2.queued.take (cfg.nfft - 1) := by
    have hi := (lagInv_of_run h₀ h).2
    rwa [hpc] at hi
  unfold LagRecord.Served
  rw [hlags]
  constructor
  · intro hserved
    cases ha : p.2.allsynced with
    | false => exact .inl rfl
    | true =>
      right
      cases hr : p.2.requests with
      | nil => rfl
      | cons k l =>
        -- the first request fits the queue, and nothing was queued
        have hmem := hserved [] k l hr (by simp only [List.length_nil]; omega)
        simp [LagRecord.queued, ha] at hmem
  · intro hor l₁ k l₂ hr hlen
    have hqueued : p.2.queued = l₁ ++ k :: l₂ := by
      rcases hor with ha | hnil
      · rw [LagRecord.queued, ha, ← hr]; rfl
      · rw [hnil] at hr; simp at hr
    rw [hqueued]
    exact List.mem_take_iff_getElem.mpr ⟨l₁.length, by simp; omega, by simp⟩

/-- At most the reference is queued, and no copy that queues another device is under way. -/
def OnlyReference (lagqueue : List Nat) : LoopPc → Prop
  | .refRead => True
  | .refConv | .refQueue => lagqueue = []
  | .syncTest i => 1 ≤ i ∧ lagqueue.length ≤ 1
  | .dev a _ _ _ => a = true ∧ lagqueue.length ≤ 1
  | _ => lagqueue.length ≤ 1

theorem OnlyReference.nextDev {ndev i c : Nat} {lagqueue : List Nat} (hl : lagqueue.length ≤ 1) :
    OnlyReference lagqueue (nextDev ndev true i c) := by
  unfold Aegir.nextDev
  split
  · exact ⟨rfl, hl⟩
  · exact hl

theorem loop_onlyReference (hcopy : s.pc.InCopy)
    (hsync : ∀ i, 1 ≤ i → i ≤ cfg.ndev → (s.dsp i).synced = true)
    (hi : OnlyReference s.lagqueue s.pc) (hs : LoopStep cfg s s') : OnlyReference s'.lagqueue s'.pc := by
  cases hs with
  | refRead => rfl
  | refConv hpc =>
    rw [hpc] at hi
    exact hi
  | refQueue hpc =>
    rw [hpc] at hi
    show (s.queuelag cfg 0).lagqueue.length ≤ 1
    rw [queuelag_lagqueue (l := []) (by rw [hi, List.take_nil]), List.length_take]
    exact Nat.min_le_right _ 1
  | refWrite hpc =>
    rw [hpc] at hi
    exact hi
  | refConsume hpc =>
    rw [hpc] at hi
    exact ⟨le_rfl, hi⟩
  | syncNext hpc =>
    rw [hpc] at hi
    exact ⟨by omega, hi.2⟩
  | @syncEnd i a hpc ha hs =>
    rw [hpc] at hi
    cases a with
    | true => exact .nextDev hi.2
    | false =>
      -- the loop has found a device that is not synchronized
      have hle : i ≤ cfg.ndev := not_lt.mp (of_decide_eq_false ha.symm)
      cases (hsync i hi.1 hle).symm.trans (hs rfl)
  | read hpc | ready hpc | conv hpc | phase hpc | write hpc | debug hpc =>
    rw [hpc] at hi
    exact hi
  | notReady hpc | consume hpc =>
    rw [hpc] at hi
    obtain ⟨rfl, hl⟩ := hi
    exact .nextDev hl
  | lagtest hpc | queue hpc | noise hpc | est hpc =>
    rw [hpc] at hi hcopy
    obtain ⟨rfl, -⟩ := hi
    simp [LoopPc.InCopy] at hcopy
  | lag hpc hlt =>
    rw [hpc] at hi
    exact absurd (show s.lagqueue.length ≤ 1 from hi) (by omega)
  | noLag _ hl => exact hl
  | notify => trivial

/-- The other threads synchronize devices, and store no lag. -/
theorem step_flags {a : CoherentAction} (hs : s.step cfg a = some s') (ha : a ≠ .loop)
    (hok : ∀ i, a ≠ .setSynchronized i false) (k : Nat) :
    ((s.dsp k).synced = true → (s'.dsp k).synced = true) ∧
      ((s.dsp k).lagready = false → (s'.dsp k).lagready = false) := by
  cases a with
  | loop => exact absurd rfl ha
  | setSynchronized j state =>
    have hstate : state = true := Bool.of_not_eq_false fun hf => hok j (hf ▸ rfl)
    cases hs
    refine ⟨fun hk => ?_, fun hk => (setDsp_keeps Csdrdevice.lagready (by rfl) k).trans hk⟩
    by_cases hkj : k = j
    · simp [setDsp, hkj, hstate]
    · simp [setDsp, hkj, hk]
  | clearLagready j =>
    cases hs
    refine ⟨fun hk => (setDsp_keeps Csdrdevice.synced (by rfl) k).trans hk, fun hk => ?_⟩
    by_cases hkj : k = j
    · simp [setDsp, hkj]
    · simp [setDsp, hkj, hk]
  | storeLagrequested j =>
    cases hs
    exact ⟨fun hk => (setDsp_keeps Csdrdevice.synced (by rfl) k).trans hk,
      fun hk => (setDsp_keeps Csdrdevice.lagready (by rfl) k).trans hk⟩
  | cmdphaseConv j | cmdphaseEst j =>
    simp only [step] at hs
    split at hs <;> cases hs
    exact ⟨fun hk => (setDsp_keeps Csdrdevice.synced (by rfl) k).trans hk,
      fun hk => (setDsp_keeps Csdrdevice.lagready (by rfl) k).trans hk⟩
  | swapbuffer | setStreaming | setState => cases hs; exact ⟨id, id⟩

/-- All signal devices are synchronized at the begin of an iteration, and nobody changes that: whatever
requests are made, no device gets a lag. -/
theorem unanswered_of_run {s₀ : CoherentState C R} {tr : List CoherentAction} (hpc : s₀.pc = .refRead)
    (hsync : ∀ i, 1 ≤ i → i ≤ cfg.ndev → (s₀.dsp i).synced = true)
    (h : Run (CoherentState.step cfg) (fun _ a => ∀ i, a ≠ .setSynchronized i false) s₀ tr s) {k : Nat}
    (hk : (s₀.dsp k).lagready = false) : (s.dsp k).lagready = false := by
  refine (h.invariant
    (I := fun s => s.pc.InCopy ∧ OnlyReference s.lagqueue s.pc ∧
      (∀ i, 1 ≤ i → i ≤ cfg.ndev → (s.dsp i).synced = true) ∧ (s.dsp k).lagready = false)
    ⟨by rw [hpc]; trivial, by rw [hpc]; trivial, hsync, hk⟩
    fun s a s' ⟨hcopy, hi, hsync, hk⟩ hok hs => ⟨step_inCopy hs hcopy, ?_⟩).2.2.2
  by_cases ha : a = .loop
  · subst ha
    have hstep : LoopStep cfg s s' := loopStep_cases hs
    have hflags := hstep.flags_eq fun hpc => by rw [hpc] at hi; exact hi
    refine ⟨loop_onlyReference hcopy hsync hi hstep, fun i h1 hle => ?_, ?_⟩
    · rw [(hflags i).1]
      exact hsync i h1 hle
    · rw [(hflags k).2]
      exact hk
  · rw [step_pc hs ha, step_lagqueue hs ha]
    have hflags := step_flags hs ha hok
    exact ⟨hi, fun i h1 hle => (hflags i).1 (hsync i h1 hle), (hflags k).2 hk⟩

/-- A receiver with one device, which is ready, and a record without entries. -/
def oneDevice : CoherentState ℚ ℚ × LagRecord :=
  (init (smallReceiver 1 2) false, ⟨false, [], []⟩)

/-- The blocks that make the device ready. -/
def oneDeviceBlocks : List CoherentAction :=
  [.swapbuffer 0 fun _ => 0, .swapbuffer 1 fun _ => 0, .swapbuffer 1 fun _ => 0]

/-- The device of a receiver that is not synchronized gets the lag that it asked for. -/
theorem served_iff_oneDevice :
    ∃ p, Run (observed (CoherentState.step (smallReceiver 1 2)) (LagRecord.observe (smallReceiver 1 2)))
        anyStep oneDevice (oneDeviceBlocks ++ List.replicate 17 .loop) p ∧
      p.1.pc = .notify ∧ p.2.requests = [1] ∧
      (p.2.Served (smallReceiver 1 2).nfft ↔ p.2.allsynced = false ∨ p.2.requests = []) := by
  obtain ⟨p, hrun, hp⟩ := Run.exists_of_exec
    (observed (CoherentState.step (smallReceiver 1 2)) (LagRecord.observe (smallReceiver 1 2)))
    anyStep oneDevice (oneDeviceBlocks ++ List.replicate 17 .loop)
    (fun p => p.1.pc = .notify ∧ p.2.requests = [1]) (by decide +kernel)
  obtain ⟨hpc, hr⟩ := of_decide_eq_true hp
  exact ⟨p, hrun, hpc, hr, served_iff (by decide) rfl hrun hpc⟩

/-- The console asks for the lag of a synchronized device, and the iteration ends without it. -/
theorem not_served :
    ¬ ∀ tr p, Run (observed (CoherentState.step (smallReceiver 1 2))
        (LagRecord.observe (smallReceiver 1 2))) anyStep oneDevice tr p →
      p.1.pc = .notify → p.2.Served (smallReceiver 1 2).nfft := by
  intro hall
  obtain ⟨p, hrun, hp⟩ := Run.exists_of_exec
    (observed (CoherentState.step (smallReceiver 1 2)) (LagRecord.observe (smallReceiver 1 2)))
    anyStep oneDevice
    (oneDeviceBlocks ++ [.setSynchronized 1 true, .storeLagrequested 1, .clearLagready 1] ++
      List.replicate 15 .loop)
    (fun p => p.1.pc = .notify ∧ p.2.requests = [1] ∧ p.2.lagsSet = []) (by decide +kernel)
  obtain ⟨hpc, hr, hl⟩ := of_decide_eq_true hp
  have := hall _ p hrun hpc [] 1 [] hr (by decide)
  simp [hl] at this

end CoherentState
end Aegir
