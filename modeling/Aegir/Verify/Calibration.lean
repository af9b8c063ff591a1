import Aegir.Verify.Iteration

/-!
# When the phase coefficients change

Only `est_phasecorrect` stores a coefficient. The loop calls it where it has found the noise enabled,
the console whenever `phase` is given. If `phase` is only given while the noise is enabled, and the
noise is not disabled between the test and the call, the coefficients stay as they are while it is
disabled (`phasecorr_of_run`). In an iteration with the noise enabled the coefficient of a ready device
is estimated if and only if the loop does not take the copy for synchronized devices
(`estimated_iff`).
-/

namespace Aegir

/-- The loop has found the noise enabled and is about to estimate. -/
def LoopPc.estimating : LoopPc → Bool
  | .dev _ _ _ .est => true
  | _ => false

/-- The action is `set_state(true)`. -/
def CoherentAction.enables : CoherentAction → Bool
  | .setState on => on
  | _ => false

namespace CoherentState

variable {C R : Type*}

/-! ## The coefficients while the noise is off -/

/-- `phase` is given while the noise is enabled, and the noise is not disabled between the test of the
loop and its estimate. -/
def EstimatesUnderNoise (s : CoherentState C R) : CoherentAction → Prop
  | .cmdphaseEst _ => s.noise = true
  | .setState on => on = true ∨ s.pc.estimating = false
  | _ => True

instance (s : CoherentState C R) (a : CoherentAction) : Decidable (EstimatesUnderNoise s a) :=
  match a with
  | .cmdphaseEst _ => inferInstanceAs (Decidable (s.noise = true))
  | .setState on => inferInstanceAs (Decidable (on = true ∨ s.pc.estimating = false))
  | .loop | .swapbuffer _ _ | .setStreaming _ _ | .setSynchronized _ _ | .storeLagrequested _
  | .clearLagready _ | .cmdphaseConv _ => .isTrue trivial

variable [Field C] [Star C] [Field R] [DecidableEq R] {cfg : CoherentConfig C R}
  {s₀ s₁ s₂ s s' : CoherentState C R}

theorem LoopStep.phasecorr (h : LoopStep cfg s s') (k : Nat) :
    (s'.dsp k).phasecorr = (s.dsp k).phasecorr ∨ s.pc.estimating = true := by
  cases h with
  | refConv | conv | phase => exact .inl (setDsp_keeps Csdrdevice.phasecorr (by rfl) k)
  | refQueue | queue => exact .inl (by rw [queuelag_dsp])
  | est hpc => exact .inr (by rw [hpc]; rfl)
  | lag _ _ hs => exact .inl (computelag_frame hs k).2
  | _ => exact .inl rfl

/-- A step stores a coefficient only as an estimate of the loop or of the console. -/
theorem step_phasecorr {a : CoherentAction} (h : s.step cfg a = some s') (k : Nat) :
    (s'.dsp k).phasecorr = (s.dsp k).phasecorr ∨ s.pc.estimating = true ∨
      ∃ j, a = .cmdphaseEst j := by
  cases a with
  | loop => exact ((loopStep_cases h).phasecorr k).imp_right .inl
  | cmdphaseEst j => exact .inr (.inr ⟨j, rfl⟩)
  | cmdphaseConv j =>
    simp only [step] at h
    split at h <;> cases h
    exact .inl (setDsp_keeps Csdrdevice.phasecorr (by rfl) k)
  | setSynchronized | storeLagrequested | clearLagready =>
    cases h
    exact .inl (setDsp_keeps Csdrdevice.phasecorr (by rfl) k)
  | swapbuffer | setStreaming | setState => cases h; exact .inl rfl

theorem estimating_nextDev {ndev i c : Nat} {a : Bool} :
    (nextDev ndev a i c).estimating = false := by
  unfold nextDev
  split <;> rfl

/-- The loop comes to the estimate only from the test of the noise. -/
theorem LoopStep.estimating (h : LoopStep cfg s s') (he : s'.pc.estimating = true) :
    s.noise = true := by
  cases h with
  | syncEnd | notReady | consume => cases estimating_nextDev.symm.trans he
  | @conv a => cases a <;> cases he
  | @lagtest a i c =>
    cases hr : (s.dsp i).lagrequested <;> simp only [hr] at he <;> cases he
  | noise hpc =>
    cases hn : s.noise with
    | true => rfl
    | false => simp only [hn] at he; cases he
  | _ => cases he

/-- Between the test and the estimate the noise stays enabled. -/
theorem step_estimating {a : CoherentAction} (hi : s.pc.estimating = true → s.noise = true)
    (hok : EstimatesUnderNoise s a) (h : s.step cfg a = some s') :
    s'.pc.estimating = true → s'.noise = true := by
  intro he
  cases a with
  | loop =>
    rw [step_noise_eq h nofun]
    exact (loopStep_cases h).estimating he
  | setState on =>
    cases h
    rcases hok with hon | hpc
    · exact hon
    · rw [show s.pc.estimating = false from hpc] at he
      cases he
  | _ =>
    rw [step_pc h nofun] at he
    rw [step_noise_eq h nofun]
    exact hi he

theorem step_noise {a : CoherentAction} (h : s.step cfg a = some s') (hoff : s.noise = false)
    (ha : a.enables = false) : s'.noise = false := by
  cases a with
  | setState on => cases h; exact ha
  | _ => exact (step_noise_eq h nofun).trans hoff

/-- From `set_state(false)` until the next `set_state(true)`: when `phase` is only given while the
noise is enabled and the noise is not disabled between the test and the estimate of the loop, all
coefficients keep their values. -/
theorem phasecorr_of_run {tr tr' : List CoherentAction} (h₀ : s₀.pc = .refRead)
    (h : Run (CoherentState.step cfg) EstimatesUnderNoise s₀ tr s₁) (hoff : s₁.noise = false)
    (h' : Run (CoherentState.step cfg) (fun s a => EstimatesUnderNoise s a ∧ a.enables = false)
      s₁ tr' s₂) (k : Nat) :
    (s₂.dsp k).phasecorr = (s₁.dsp k).phasecorr := by
  have hest : s₁.pc.estimating = true → s₁.noise = true :=
    h.invariant (I := fun s => s.pc.estimating = true → s.noise = true)
      (by rw [h₀]; exact nofun) fun _ _ _ hi hok hs => step_estimating hi hok hs
  have hfrozen : (s₂.pc.estimating = true → s₂.noise = true) ∧ s₂.noise = false ∧
      (s₂.dsp k).phasecorr = (s₁.dsp k).phasecorr := by
    refine h'.invariant (I := fun s => (s.pc.estimating = true → s.noise = true) ∧
      s.noise = false ∧ (s.dsp k).phasecorr = (s₁.dsp k).phasecorr) ⟨hest, hoff, rfl⟩ ?_
    rintro s a s' ⟨hest, hoff, hp⟩ ⟨hok, ha⟩ hs
    refine ⟨step_estimating hest hok hs, step_noise hs hoff ha, ?_⟩
    rcases step_phasecorr hs k with h | h | ⟨j, rfl⟩
    · exact h.trans hp
    · rw [hest h] at hoff
      cases hoff
    · rw [show s.noise = true from hok] at hoff
      cases hoff
  exact hfrozen.2.2

/-- A receiver for runs in which all samples are real. -/
def realReceiver : CoherentConfig ℚ ℚ :=
  { smallReceiver 1 2 with cf := ⟨0, fun x => if x < 0 then -x else x⟩ }

/-- A block whose samples are all `1`, and one whose samples are all `-1`, as the driver delivers
them. -/
def onesBlock : Mem := fun i => if i % 2 = 0 then 255 else 128

def minusOnesBlock : Mem := fun i => if i % 2 = 0 then 1 else 128

/-- The device delivers the negative of the reference. -/
def realBlocks : List CoherentAction :=
  [.swapbuffer 0 onesBlock, .swapbuffer 1 minusOnesBlock, .swapbuffer 1 minusOnesBlock]

/-- An iteration with the noise enabled and the next one with the noise disabled. -/
theorem phasecorr_of_run_realReceiver :
    ∃ s₁ s₂, Run (CoherentState.step realReceiver) EstimatesUnderNoise (init realReceiver true)
        (realBlocks ++ List.replicate 19 .loop ++ [.setState false]) s₁ ∧
      Run (CoherentState.step realReceiver)
        (fun s a => EstimatesUnderNoise s a ∧ a.enables = false) s₁
        ([.swapbuffer 0 onesBlock] ++ List.replicate 13 .loop) s₂ ∧
      (s₁.dsp 1).phasecorr = 0 ∧ (s₂.dsp 1).phasecorr = (s₁.dsp 1).phasecorr := by
  obtain ⟨s₁, hrun, hs⟩ := Run.exists_of_exec (CoherentState.step realReceiver) EstimatesUnderNoise
    (init realReceiver true) (realBlocks ++ List.replicate 19 .loop ++ [.setState false])
    (fun s => s.noise = false ∧ (s.dsp 1).phasecorr = 0 ∧
      (exec (CoherentState.step realReceiver)
        (fun s a => EstimatesUnderNoise s a ∧ a.enables = false) s
        ([.swapbuffer 0 onesBlock] ++ List.replicate 13 .loop)).any (fun _ => true) = true)
    (by decide +kernel)
  obtain ⟨hoff, hp, hnext⟩ := of_decide_eq_true hs
  obtain ⟨s₂, hrun', -⟩ := Run.exists_of_exec _ _ s₁ _ _ hnext
  exact ⟨s₁, s₂, hrun, hrun', hp, phasecorr_of_run rfl hrun hoff hrun' 1⟩

/-- `phase` is given after the noise has been disabled. -/
theorem not_phasecorr_frozen :
    ¬ ∀ tr s₁ tr' s₂,
      Run (CoherentState.step realReceiver) anyStep (init realReceiver true)
        (tr ++ [.setState false]) s₁ →
      Run (CoherentState.step realReceiver) (fun _ a => a.enables = false) s₁ tr' s₂ →
      (s₂.dsp 1).phasecorr = (s₁.dsp 1).phasecorr := by
  intro hall
  obtain ⟨s₁, hrun, hs⟩ := Run.exists_of_exec (CoherentState.step realReceiver) anyStep
    (init realReceiver true) (realBlocks ++ [.loop, .loop] ++ [.setState false])
    (fun s => (s.dsp 1).phasecorr = 1 ∧ (exec (CoherentState.step realReceiver)
      (fun _ a => a.enables = false) s [.cmdphaseConv 1, .cmdphaseEst 1]).any
        (fun s => (s.dsp 1).phasecorr = 0) = true)
    (by decide +kernel)
  obtain ⟨hone, hnext⟩ := of_decide_eq_true hs
  obtain ⟨s₂, hrun', hzero⟩ := Run.exists_of_exec _ _ s₁ _ _ hnext
  have hsame : (s₂.dsp 1).phasecorr = (s₁.dsp 1).phasecorr := hall _ s₁ _ s₂ hrun hrun'
  rw [hone, of_decide_eq_true hzero] at hsame
  cases hsame

/-! ## The estimates of an iteration -/

/-- What an estimate is made from. -/
structure Estimate (C : Type*) where
  samples : Nat → C
  ref : Nat → C
  /-- The block that the samples were last converted from, since the loop came to the device. -/
  block : Mem
  /-- The block of the reference in this iteration. -/
  refBlock : Mem

/-- The samples are those of the blocks. -/
def Estimate.Fresh (cfg : CoherentConfig C R) (e : Estimate C) : Prop :=
  ∀ j < cfg.blocksize.toNat >>> 1, e.samples j = Csdrdevice.sample cfg.cf e.block j ∧
    e.ref j = Csdrdevice.sample cfg.cf e.refBlock j

/-- What the current iteration has done about the coefficients. -/
structure CalibrationRecord (C : Type*) where
  /-- The noise has been enabled throughout the iteration. -/
  noisy : Bool
  block : Mem
  refBlock : Mem
  /-- The estimate for the device that the loop has come to. -/
  est : Option (Estimate C)

/-- What a step adds to the record. -/
def CalibrationRecord.observe (cfg : CoherentConfig C R) (s : CoherentState C R)
    (a : CoherentAction) (_ : CoherentState C R) (h : CalibrationRecord C) : CalibrationRecord C :=
  match a, s.pc with
  | .loop, .refRead => { h with noisy := s.noise }
  | .loop, .refConv => { h with refBlock := s.blockOf 0 }
  | .loop, .dev _ i _ .conv => { h with block := s.blockOf i, est := none }
  | .loop, .dev _ i _ .est =>
    { h with est := some ⟨(s.dsp i).sfloat, s.refSamples cfg, h.block, h.refBlock⟩ }
  | .cmdphaseConv k, .dev _ i _ _ => if k = i then { h with block := s.blockOf i } else h
  | .setState on, _ => { h with noisy := h.noisy && on }
  | _, _ => h

/-- What the record says about the state. -/
def CalibrationInv (cfg : CoherentConfig C R) (s : CoherentState C R) (h : CalibrationRecord C) :
    LoopPc → Prop
  | .refRead => True
  | .refConv => h.noisy = true → s.noise = true
  | .dev a i _ p => (h.noisy = true → s.noise = true) ∧ RefConverted cfg s h.refBlock ∧
      (p.converted = true → Converted cfg s i h.block) ∧
      (p = .phase → h.noisy = true →
        if a then h.est = none else ∃ e, h.est = some e ∧ e.Fresh cfg)
  | _ => (h.noisy = true → s.noise = true) ∧ RefConverted cfg s h.refBlock

section
omit [Star C] [Field R] [DecidableEq R]

/-- Where the block of the device is not converted, the record has nothing to say about it. -/
theorem CalibrationInv.dev {h : CalibrationRecord C} {a : Bool} {i c : Nat} {p : DevPc}
    (hp : p.converted = false) (hn : h.noisy = true → s.noise = true)
    (hr : RefConverted cfg s h.refBlock) : CalibrationInv cfg s h (.dev a i c p) := by
  refine ⟨hn, hr, fun hc => ?_, fun hphase => ?_⟩
  · rw [hp] at hc
    cases hc
  · subst hphase
    cases hp

theorem CalibrationInv.nextDev {ndev i c : Nat} {a : Bool} {h : CalibrationRecord C}
    (hn : h.noisy = true → s.noise = true) (hr : RefConverted cfg s h.refBlock) :
    CalibrationInv cfg s h (nextDev ndev a i c) := by
  unfold Aegir.nextDev
  split
  · exact .dev rfl hn hr
  · exact ⟨hn, hr⟩

/-- What the other threads may do in between. -/
theorem CalibrationInv.of_frame {h h' : CalibrationRecord C} {pc : LoopPc}
    (hi : CalibrationInv cfg s h pc) (hn : (h.noisy = true → s.noise = true) →
      h'.noisy = true → s'.noise = true) (hle : h'.noisy = true → h.noisy = true)
    (hr : s'.refSamples cfg = s.refSamples cfg) (hb : h'.refBlock = h.refBlock)
    (he : h'.est = h.est) (hc : ∀ a i c p, pc = .dev a i c p → Converted cfg s i h.block →
      Converted cfg s' i h'.block) : CalibrationInv cfg s' h' pc := by
  have href : RefConverted cfg s h.refBlock → RefConverted cfg s' h'.refBlock := by
    unfold RefConverted
    rw [hr, hb]
    exact id
  cases pc with
  | refRead => trivial
  | refConv => exact hn hi
  | dev a i c p =>
    obtain ⟨h₁, h₂, h₃, h₄⟩ := hi
    refine ⟨hn h₁, href h₂, fun hp => hc a i c p rfl (h₃ hp), fun hp hnoisy => ?_⟩
    rw [he]
    exact h₄ hp (hle hnoisy)
  | _ => exact ⟨hn hi.1, href hi.2⟩

end

theorem loop_calibrationInv {h : CalibrationRecord C} (hcopy : s.pc.InCopy)
    (hi : CalibrationInv cfg s h s.pc) (hs : LoopStep cfg s s') :
    CalibrationInv cfg s' (h.observe cfg s .loop s') s'.pc := by
  have href : s.pc ≠ .refConv → RefConverted cfg s h.refBlock → RefConverted cfg s' h.refBlock :=
    fun hpc hr => by unfold RefConverted; rwa [hs.refSamples_eq.resolve_right hpc]
  have hnoise : (h.noisy = true → s.noise = true) → h.noisy = true → s'.noise = true :=
    fun hn hh => hs.noise_eq.trans (hn hh)
  cases hs with
  | refRead hpc =>
    simp only [CalibrationRecord.observe, hpc]
    exact id
  | refConv hpc =>
    simp only [CalibrationRecord.observe, hpc] at hi ⊢
    refine ⟨hi, fun j hj => ?_⟩
    simp only [CoherentState.refSamples, setDsp, Function.update_self]
    exact Csdrdevice.refConvtofloat_add hj
  | refQueue hpc | refWrite hpc | refConsume hpc | syncNext hpc | lag hpc | noLag hpc =>
    simp only [CalibrationRecord.observe, hpc] at hi href ⊢
    exact ⟨hnoise hi.1, href (by simp) hi.2⟩
  | syncEnd a hpc =>
    simp only [CalibrationRecord.observe, hpc] at hi href ⊢
    exact .nextDev hi.1 (href (by simp) hi.2)
  | @read a i c d hpc | @ready a i c hpc | @phase a i c hpc | @write a i c hpc | @debug a i c hpc =>
    simp only [CalibrationRecord.observe, hpc] at hi href ⊢
    exact .dev rfl hi.1 (href (by simp) hi.2.1)
  | @notReady a i c hpc | @consume a i c hpc =>
    simp only [CalibrationRecord.observe, hpc] at hi href ⊢
    exact .nextDev hi.1 (href (by simp) hi.2.1)
  | @conv a i c hpc =>
    simp only [CalibrationRecord.observe, hpc] at hi href ⊢
    refine ⟨hi.1, href (by simp) hi.2.1, fun _ j hj => ?_, fun hp _ => ?_⟩
    · simp only [setDsp, Function.update_self]
      exact Csdrdevice.convtofloat_of_lt hj
    · cases a with
      | true => rfl
      | false => cases hp
  | @lagtest a i c hpc =>
    simp only [CalibrationRecord.observe, hpc] at hi href ⊢
    refine ⟨hi.1, href (by simp) hi.2.1, fun _ => hi.2.2.1 rfl, fun hp _ => ?_⟩
    cases hr : (s.dsp i).lagrequested <;> simp [hr] at hp
  | @queue a i c hpc =>
    simp only [CalibrationRecord.observe, hpc] at hi href ⊢
    refine ⟨hnoise hi.1, href (by simp) hi.2.1, fun _ j hj => ?_, fun hp => ?_⟩
    · rw [queuelag_dsp]
      exact hi.2.2.1 rfl j hj
    · cases hp
  | @noise a i c hpc =>
    simp only [CalibrationRecord.observe, hpc] at hi href ⊢
    refine ⟨hi.1, href (by simp) hi.2.1, fun _ => hi.2.2.1 rfl, fun hp hnoisy => ?_⟩
    simp [hi.1 hnoisy] at hp
  | @est a i c hpc =>
    rw [hpc] at hi hcopy
    simp only [CalibrationRecord.observe, hpc] at href ⊢
    obtain ⟨hn, hr, hc, -⟩ := hi
    refine ⟨hn, href (by simp) hr, fun _ j hj => ?_, fun _ _ => ?_⟩
    · simp only [setDsp, Function.update_self]
      exact hc rfl j hj
    · cases a with
      | true => exact absurd rfl hcopy.2.2.2
      | false => exact ⟨_, rfl, fun j hj => ⟨hc rfl j hj, hr j hj⟩⟩
  | notify hpc =>
    simp only [CalibrationRecord.observe, hpc]
    trivial

theorem step_calibrationInv {h : CalibrationRecord C} {a : CoherentAction} (hcopy : s.pc.InCopy)
    (hi : CalibrationInv cfg s h s.pc) (hs : s.step cfg a = some s') :
    CalibrationInv cfg s' (h.observe cfg s a s') s'.pc := by
  cases a with
  | loop => exact loop_calibrationInv hcopy hi (loopStep_cases hs)
  | setState on =>
    cases hs
    refine hi.of_frame (fun _ hh => ?_) (fun hh => ?_) rfl rfl rfl fun _ _ _ _ _ => id
    · exact (Bool.and_eq_true_iff.mp hh).2
    · exact (Bool.and_eq_true_iff.mp hh).1
  | cmdphaseConv k =>
    have hn : s'.noise = s.noise := step_noise_eq hs nofun
    have hr : s'.refSamples cfg = s.refSamples cfg := step_refSamples hs nofun
    rw [step_pc hs nofun]
    cases hpc : s.pc with
    | dev a i c p =>
      rw [hpc] at hi
      simp only [CalibrationRecord.observe, hpc]
      split
      · -- the console has converted the block of the device that the loop has come to
        rename_i hk
        subst hk
        refine hi.of_frame (hn ▸ id) id hr rfl rfl ?_
        rintro _ _ _ _ ⟨⟩ hc j hj
        rw [(cmdphaseConv_dsp hs).2]
        exact Csdrdevice.convtofloat_of_lt hj
      · rename_i hk
        refine hi.of_frame (hn ▸ id) id hr rfl rfl ?_
        rintro _ _ _ _ ⟨⟩ hc j hj
        rw [step_sfloat hs nofun fun h => hk (by cases h; rfl)]
        exact hc j hj
    | _ =>
      rw [hpc] at hi
      simp only [CalibrationRecord.observe, hpc]
      exact hi.of_frame (hn ▸ id) id hr rfl rfl nofun
  | _ =>
    rw [step_pc hs nofun]
    refine hi.of_frame (step_noise_eq hs nofun ▸ id) id (step_refSamples hs nofun) rfl rfl ?_
    intro _ i _ _ _ hc j hj
    rw [step_sfloat hs nofun nofun]
    exact hc j hj

/-- Whenever the loop comes to `phasecorrect` of a device in an iteration in which the noise has been
enabled throughout: the coefficient has been estimated from the samples of this iteration if and only
if the loop did not take the copy of its body for synchronized devices. -/
theorem estimated_iff {p₀ p : CoherentState C R × CalibrationRecord C} {tr : List CoherentAction}
    {a : Bool} {i c : Nat} (h₀ : p₀.1.pc = .refRead)
    (h : Run (observed (CoherentState.step cfg) (CalibrationRecord.observe cfg)) anyStep p₀ tr p)
    (hpc : p.1.pc = .dev a i c .phase) (hnoisy : p.2.noisy = true) :
    (∃ e, p.2.est = some e ∧ e.Fresh cfg) ↔ a = false := by
  have hi : p.1.pc.InCopy ∧ CalibrationInv cfg p.1 p.2 p.1.pc := by
    refine h.invariant (I := fun p => p.1.pc.InCopy ∧ CalibrationInv cfg p.1 p.2 p.1.pc)
      (by rw [h₀]; exact ⟨trivial, trivial⟩) fun p a p' ⟨hcopy, hi⟩ _ hs => ?_
    obtain ⟨hs, hrec⟩ := observed_eq_some.mp hs
    rw [hrec]
    exact ⟨step_inCopy hs hcopy, step_calibrationInv hcopy hi hs⟩
  rw [hpc] at hi
  have hest := hi.2.2.2.2 rfl hnoisy
  cases a with
  | false => exact ⟨fun _ => rfl, fun _ => hest⟩
  | true =>
    constructor
    · rintro ⟨e, he, -⟩
      rw [show p.2.est = none from hest] at he
      cases he
    · nofun

/-- A record without entries. -/
def emptyRecord : CalibrationRecord ℚ := ⟨false, fun _ => 0, fun _ => 0, none⟩

/-- The first iteration of a receiver whose device is not synchronized. -/
theorem estimated_iff_realReceiver :
    ∃ p, Run (observed (CoherentState.step realReceiver) (CalibrationRecord.observe realReceiver))
        anyStep (init realReceiver true, emptyRecord) (realBlocks ++ List.replicate 13 .loop) p ∧
      p.1.pc = .dev false 1 1 .phase ∧ p.2.noisy = true ∧
      ((∃ e, p.2.est = some e ∧ e.Fresh realReceiver) ↔ false = false) := by
  obtain ⟨p, hrun, hp⟩ := Run.exists_of_exec
    (observed (CoherentState.step realReceiver) (CalibrationRecord.observe realReceiver))
    anyStep (init realReceiver true, emptyRecord) (realBlocks ++ List.replicate 13 .loop)
    (fun p => p.1.pc = .dev false 1 1 .phase ∧ p.2.noisy = true) (by decide +kernel)
  obtain ⟨hpc, hnoisy⟩ := of_decide_eq_true hp
  exact ⟨p, hrun, hpc, hnoisy, estimated_iff rfl hrun hpc hnoisy⟩

/-- The device is synchronized, and its block is corrected with the coefficient of the constructor. -/
theorem not_estimated :
    ¬ ∀ tr p a i c,
      Run (observed (CoherentState.step realReceiver) (CalibrationRecord.observe realReceiver))
        anyStep (init realReceiver true, emptyRecord) tr p →
      p.1.pc = .dev a i c .phase → p.2.noisy = true →
      ∃ e, p.2.est = some e ∧ e.Fresh realReceiver := by
  intro hall
  obtain ⟨p, hrun, hp⟩ := Run.exists_of_exec
    (observed (CoherentState.step realReceiver) (CalibrationRecord.observe realReceiver))
    anyStep (init realReceiver true, emptyRecord)
    (realBlocks ++ [.setSynchronized 1 true] ++ List.replicate 10 .loop)
    (fun p => p.1.pc = .dev true 1 1 .phase ∧ p.2.noisy = true ∧ p.2.est.isNone = true)
    (by decide +kernel)
  obtain ⟨hpc, hnoisy, hnone⟩ := of_decide_eq_true hp
  obtain ⟨e, he, -⟩ := hall _ p _ _ _ hrun hpc hnoisy
  rw [he] at hnone
  cases hnone

end CoherentState
end Aegir
