import Aegir.Verify.Calibration

/-!
# What is written for a device

Between `convtofloat` and `write` the samples of a device are in its own buffer, which the console's
`phase` converts anew. When it does not do so between `phasecorrect` and `write`, and before that only
with the bytes that the loop has converted, the loop writes the samples of the block times the
coefficient (`published_of_run`).
-/

namespace Aegir

/-- The action is a conversion by `phase`. -/
def CoherentAction.converts : CoherentAction → Bool
  | .cmdphaseConv _ => true
  | _ => false

namespace CoherentState

/-- What the loop has done with the block of the device that it has come to. -/
structure Correction (C : Type*) where
  /-- What `convtofloat` has converted. -/
  block : Mem
  /-- What `phasecorrect` has multiplied with. -/
  coeff : C

variable {C R : Type*}

/-- What a step adds to the record. -/
def Correction.observe (s : CoherentState C R) (a : CoherentAction) (_ : CoherentState C R)
    (h : Correction C) : Correction C :=
  match a, s.pc with
  | .loop, .dev _ i _ .conv => { h with block := s.blockOf i }
  | .loop, .dev _ i _ .phase => { h with coeff := (s.dsp i).phasecorr }
  | _, _ => h

/-- `phase` does not convert a device that the loop has corrected and not yet written, and one that it
has converted only from the same bytes. -/
def KeepsSamples (p : CoherentState C R × Correction C) : CoherentAction → Prop
  | .cmdphaseConv k => ∀ a c q, p.1.pc = .dev a k c q →
      q ≠ .write ∧ (q.converted = true → p.1.blockOf k = p.2.block)
  | _ => True

theorem KeepsSamples.of_not_converts {p : CoherentState C R × Correction C} {a : CoherentAction}
    (ha : a.converts = false) : KeepsSamples p a := by
  cases a with
  | cmdphaseConv => cases ha
  | _ => trivial

variable [Field C]

/-- What the record says about the samples. -/
def CorrectionInv (cfg : CoherentConfig C R) (s : CoherentState C R) (h : Correction C) :
    LoopPc → Prop
  | .dev _ i _ p => (p.converted = true → Converted cfg s i h.block) ∧
      (p = .write → ∀ j < cfg.blocksize.toNat >>> 1,
        (s.dsp i).sfloat j = Csdrdevice.sample cfg.cf h.block j * h.coeff)
  | _ => True

/-- Where the block of the device is not converted and not corrected, the record has nothing to say. -/
theorem CorrectionInv.dev {cfg : CoherentConfig C R} {s : CoherentState C R} {a : Bool} {i c : Nat}
    {p : DevPc} {h : Correction C} (hp : p.converted = false) (hw : p ≠ .write) :
    CorrectionInv cfg s h (.dev a i c p) := by
  refine ⟨fun hc => ?_, fun hp => absurd hp hw⟩
  rw [hp] at hc
  cases hc

theorem CorrectionInv.nextDev {cfg : CoherentConfig C R} {s : CoherentState C R} {ndev i c : Nat}
    {a : Bool} {h : Correction C} : CorrectionInv cfg s h (nextDev ndev a i c) := by
  unfold Aegir.nextDev
  split
  · exact .dev rfl (by decide)
  · trivial

theorem CorrectionInv.of_sfloat {cfg : CoherentConfig C R} {s s' : CoherentState C R}
    {h : Correction C} {pc : LoopPc} (hi : CorrectionInv cfg s h pc)
    (hsame : ∀ a i c p, pc = .dev a i c p → (s'.dsp i).sfloat = (s.dsp i).sfloat) :
    CorrectionInv cfg s' h pc := by
  cases pc with
  | dev a i c p =>
    simp only [CorrectionInv, Converted, hsame a i c p rfl]
    exact hi
  | _ => trivial

variable [Star C] [Field R] [DecidableEq R] {cfg : CoherentConfig C R} {s s' : CoherentState C R}
  {h : Correction C}

theorem loop_correctionInv (hi : CorrectionInv cfg s h s.pc) (hs : LoopStep cfg s s') :
    CorrectionInv cfg s' (h.observe s .loop s') s'.pc := by
  cases hs with
  | syncEnd | notReady | consume => exact .nextDev
  | read | ready | write | debug => exact .dev rfl (by decide)
  | @conv a i c hpc =>
    simp only [Correction.observe, hpc]
    refine ⟨fun _ j hj => ?_, fun hp => ?_⟩
    · simp only [setDsp, Function.update_self]
      exact Csdrdevice.convtofloat_of_lt hj
    · cases a <;> cases hp
  | @lagtest a i c hpc =>
    simp only [Correction.observe, hpc] at hi ⊢
    refine ⟨fun _ => hi.1 rfl, fun hp => ?_⟩
    cases hr : (s.dsp i).lagrequested <;> simp [hr] at hp
  | @queue a i c hpc =>
    simp only [Correction.observe, hpc] at hi ⊢
    refine ⟨fun _ j hj => ?_, fun hp => ?_⟩
    · rw [queuelag_dsp]
      exact hi.1 rfl j hj
    · cases hp
  | @noise a i c hpc =>
    simp only [Correction.observe, hpc] at hi ⊢
    refine ⟨fun _ => hi.1 rfl, fun hp => ?_⟩
    cases hn : s.noise <;> simp [hn] at hp
  | @est a i c hpc =>
    simp only [Correction.observe, hpc] at hi ⊢
    refine ⟨fun _ j hj => ?_, fun hp => ?_⟩
    · simp only [setDsp, Function.update_self]
      exact hi.1 rfl j hj
    · cases hp
  | @phase a i c hpc =>
    simp only [Correction.observe, hpc] at hi ⊢
    refine ⟨fun hp => ?_, fun _ j hj => ?_⟩
    · cases hp
    · simp only [setDsp, Function.update_self]
      rw [Csdrdevice.phasecorrect_of_lt hj, hi.1 rfl j hj]
  | _ => trivial

theorem step_correctionInv {a : CoherentAction} (hi : CorrectionInv cfg s h s.pc)
    (hok : KeepsSamples (s, h) a) (hs : s.step cfg a = some s') :
    CorrectionInv cfg s' (h.observe s a s') s'.pc := by
  cases a with
  | loop => exact loop_correctionInv hi (loopStep_cases hs)
  | cmdphaseConv k =>
    rw [step_pc hs nofun]
    by_cases hk : ∃ a c p, s.pc = .dev a k c p
    · obtain ⟨a, c, p, hpc⟩ := hk
      obtain ⟨hw, hsame⟩ := hok a c p hpc
      rw [hpc]
      refine ⟨fun hp j hj => ?_, fun hp => absurd hp hw⟩
      rw [(cmdphaseConv_dsp hs).2, show s.blockOf k = h.block from hsame hp]
      exact Csdrdevice.convtofloat_of_lt hj
    · -- the loop is not at this device
      refine hi.of_sfloat fun a i c p hpc => step_sfloat hs nofun fun h => ?_
      cases h
      exact hk ⟨a, c, p, hpc⟩
  | _ =>
    rw [step_pc hs nofun]
    exact hi.of_sfloat fun _ _ _ _ _ => step_sfloat hs nofun nofun

/-- When `phase` does not touch a device between its correction and its write, nor before it after the
driver has replaced the block: every write for a signal device is of the samples of the block that the
loop has converted, each times the coefficient. -/
theorem published_of_run {p₀ p : CoherentState C R × Correction C} {tr : List CoherentAction}
    {a : Bool} {i c : Nat} (h₀ : p₀.1.pc = .refRead)
    (h : Run (observed (CoherentState.step cfg) Correction.observe) KeepsSamples p₀ tr p)
    (hpc : p.1.pc = .dev a i c .write) :
    ∃ s' w, p.1.step cfg .loop = some s' ∧ s'.hist.writes = p.1.hist.writes ++ [w] ∧ w.dev = i ∧
      ∀ j < cfg.blocksize.toNat >>> 1,
        w.samples j = p.2.coeff * Csdrdevice.sample cfg.cf p.2.block j := by
  have hi : CorrectionInv cfg p.1 p.2 p.1.pc := by
    refine h.invariant (I := fun p => CorrectionInv cfg p.1 p.2 p.1.pc) (by rw [h₀]; trivial)
      fun p a p' hi hok hs => ?_
    obtain ⟨hs, hrec⟩ := observed_eq_some.mp hs
    rw [hrec]
    exact step_correctionInv hi hok hs
  rw [hpc] at hi
  have hstep : p.1.step cfg .loop =
      some (p.1.withCore ((p.1.write i c (p.1.dsp i).sfloat).goto (.dev a i c .debug))) := by
    simp only [step, loopStep, hpc, devStep]
  have hwrites : (p.1.withCore ((p.1.write i c (p.1.dsp i).sfloat).goto
      (.dev a i c .debug))).hist.writes = p.1.hist.writes ++ [_] := rfl
  refine ⟨_, _, hstep, hwrites, rfl, fun j hj => ?_⟩
  rw [mul_comm]
  exact hi.2 rfl j hj

/-- A run without `phase`. -/
theorem published_of_run_realReceiver :
    ∃ p, Run (observed (CoherentState.step realReceiver) Correction.observe) KeepsSamples
        (init realReceiver true, ⟨fun _ => 0, 0⟩) (realBlocks ++ List.replicate 14 .loop) p ∧
      p.1.pc = .dev false 1 1 .write ∧
      ∃ s' w, p.1.step realReceiver .loop = some s' ∧ s'.hist.writes = p.1.hist.writes ++ [w] ∧
        w.dev = 1 ∧ ∀ j < realReceiver.blocksize.toNat >>> 1,
          w.samples j = p.2.coeff * Csdrdevice.sample realReceiver.cf p.2.block j := by
  obtain ⟨p, hrun, hp⟩ := Run.exists_of_exec
    (observed (CoherentState.step realReceiver) Correction.observe) (fun _ a => a.converts = false)
    (init realReceiver true, ⟨fun _ => 0, 0⟩) (realBlocks ++ List.replicate 14 .loop)
    (fun p => p.1.pc = .dev false 1 1 .write) (by decide +kernel)
  have hrun : Run _ KeepsSamples _ _ p := hrun.mono fun _ _ => .of_not_converts
  have hpc : p.1.pc = .dev false 1 1 .write := of_decide_eq_true hp
  exact ⟨p, hrun, hpc, published_of_run rfl hrun hpc⟩

/-- `phase` converts the device after the loop has corrected it with the coefficient `0`. -/
theorem not_published :
    ¬ ∀ tr p a i c, Run (observed (CoherentState.step realReceiver) Correction.observe) anyStep
        (init realReceiver true, ⟨fun _ => 0, 0⟩) tr p →
      p.1.pc = .dev a i c .write →
      ∃ s' w, p.1.step realReceiver .loop = some s' ∧ s'.hist.writes = p.1.hist.writes ++ [w] ∧
        ∀ j < realReceiver.blocksize.toNat >>> 1,
          w.samples j = p.2.coeff * Csdrdevice.sample realReceiver.cf p.2.block j := by
  intro hall
  obtain ⟨p, hrun, hp⟩ := Run.exists_of_exec
    (observed (CoherentState.step realReceiver) Correction.observe) anyStep
    (init realReceiver true, ⟨fun _ => 0, 0⟩)
    (realBlocks ++ List.replicate 14 .loop ++ [.cmdphaseConv 1])
    (fun p => p.1.pc = .dev false 1 1 .write ∧ p.2.coeff = 0 ∧
      (p.1.step realReceiver .loop).any (fun s => s.hist.writes.map (·.samples 0) == [1, -1]) = true ∧
      p.1.hist.writes.map (·.samples 0) = [1])
    (by decide +kernel)
  obtain ⟨hpc, hcoeff, hwritten, hbefore⟩ := of_decide_eq_true hp
  obtain ⟨s', w, hs, hw, hsamples⟩ := hall _ p _ _ _ hrun hpc
  rw [hs] at hwritten
  have hlast : [1, w.samples 0] = [1, -1] := by
    simpa [hw, hbefore] using hwritten
  have hzero := hsamples 0 (by decide)
  rw [hcoeff, zero_mul] at hzero
  rw [hzero] at hlast
  simp at hlast

end CoherentState
end Aegir
