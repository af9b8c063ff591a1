import Aegir.Verify.Iteration
import Aegir.Verify.SampleBuffers

/-!
# The phase coefficients after a sequence of estimates

`est_phasecorrect` turns the conjugate of the correlation to the unit circle and takes the mean of it
and the coefficient before. Where all correlations point in one direction, the distance to the
conjugate of the direction is halved by each call (`estimates_of_direction`). The mean of two points of
the unit circle is on the circle only if they are equal, so starting at `1` the coefficient stays on it
if and only if all correlations are positive real numbers (`rotation_iff`). Numbers are complex, and an
estimate is only made where the correlation is not zero, by the absolute value of which it divides.
-/

namespace Aegir

open Complex ComplexConjugate

/-- Complex numbers as `std::complex<float>`. -/
noncomputable def exactComplex : ComplexFloat ℂ := ⟨I, fun z => ‖z‖⟩

/-- What a call of `est_phasecorrect` sees: the samples of the device, and the buffer of the reference
device, the samples of which are in the second half. -/
structure PhaseBlock where
  sfloat : ℕ → ℂ
  refSfloat : ℕ → ℂ

namespace PhaseBlock

variable (b : PhaseBlock) (blocksize : ℕ)

/-- The argument of the call: `refdev->get_samplepointer() + (blocksize >> 1)`. -/
def ref : ℕ → ℂ := advance b.refSfloat (blocksize >>> 1)

/-- The correlation that the call computes. -/
noncomputable def correlation : ℂ :=
  Csdrdevice.conjDotproduct b.sfloat (b.ref blocksize) (blocksize >>> 1)

end PhaseBlock

/-- The correlation of a block is a positive multiple of `u`. -/
def PhaseBlock.Points (blocksize : ℕ) (u : ℂ) (b : PhaseBlock) : Prop :=
  ∃ t : ℝ, 0 < t ∧ b.correlation blocksize = t * u

namespace Csdrdevice

variable {R : Type*} {blocksize : ℕ} {d d' : Csdrdevice ℂ R} {b : PhaseBlock} {u : ℂ}
  {blocks : List PhaseBlock}

open Classical in
/-- A call of `est_phasecorrect`, if it does not divide by zero. -/
noncomputable def estimate (blocksize : ℕ) (d : Csdrdevice ℂ R) (b : PhaseBlock) :
    Option (Csdrdevice ℂ R) :=
  if exactComplex.abs (b.correlation blocksize) = 0 then none
  else some ({ d with sfloat := b.sfloat }.estPhasecorrect exactComplex blocksize (b.ref blocksize))

/-- A sequence of calls. -/
noncomputable def estimates (blocksize : ℕ) (d : Csdrdevice ℂ R) (blocks : List PhaseBlock) :
    Option (Csdrdevice ℂ R) :=
  blocks.foldlM (estimate blocksize) d

theorem estimates_concat :
    d.estimates blocksize (blocks ++ [b]) =
      (d.estimates blocksize blocks).bind (estimate blocksize · b) := by
  simp [estimates, List.foldlM_append]

/-- The estimate of the loop is one of these calls. -/
theorem estimate_of_devStep {cfg : CoherentConfig ℂ R} {s s' : CoherentState ℂ R} {a : Bool}
    {i c : ℕ} (hcf : cfg.cf = exactComplex)
    (hne : PhaseBlock.correlation ⟨(s.dsp i).sfloat, (s.dsp 0).sfloat⟩ cfg.blocksize.toNat ≠ 0)
    (hs : s.devStep cfg a i c .est = some s') :
    (s.dsp i).estimate cfg.blocksize.toNat ⟨(s.dsp i).sfloat, (s.dsp 0).sfloat⟩ =
      some (s'.dsp i) := by
  have href : s.refSamples cfg = PhaseBlock.ref ⟨(s.dsp i).sfloat, (s.dsp 0).sfloat⟩
      cfg.blocksize.toNat := by
    funext j
    simp only [CoherentState.refSamples, PhaseBlock.ref, advance_apply, Nat.add_comm]
  have hnorm : exactComplex.abs (PhaseBlock.correlation ⟨(s.dsp i).sfloat, (s.dsp 0).sfloat⟩
      cfg.blocksize.toNat) ≠ 0 := ofReal_ne_zero.mpr (norm_ne_zero_iff.mpr hne)
  cases hs
  simp only [estimate, if_neg hnorm, CoherentState.setDsp, Function.update_self, hcf, href]

/-! ## One call -/

theorem estimate_eq_none (h : b.correlation blocksize = 0) : d.estimate blocksize b = none := by
  simp [estimate, exactComplex, h]

/-- What a call does: the mean of the conjugate of the direction and the coefficient before. -/
theorem estimate_eq_some (h : b.correlation blocksize ≠ 0) :
    ∃ d', d.estimate blocksize b = some d' ∧ d'.sfloat = b.sfloat ∧
      d'.phasecorr = (conj (b.correlation blocksize) / ‖b.correlation blocksize‖ +
        d.phasecorrprev) / 2 ∧ d'.phasecorrprev = d'.phasecorr := by
  have hnorm : exactComplex.abs (b.correlation blocksize) ≠ 0 :=
    ofReal_ne_zero.mpr (norm_ne_zero_iff.mpr h)
  refine ⟨_, if_neg hnorm, rfl, ?_, rfl⟩
  show (0.5 : ℂ) * (star (b.correlation blocksize) * (1 / (‖b.correlation blocksize‖ : ℂ))) +
    (1 - 0.5) * d.phasecorrprev = _
  rw [← starRingEnd_apply]
  norm_num
  ring

/-- The direction of a correlation that is a positive multiple of `u`. -/
theorem conj_div_norm (hu : ‖u‖ = 1) (h : b.Points blocksize u) :
    conj (b.correlation blocksize) / ‖b.correlation blocksize‖ = conj u := by
  obtain ⟨t, ht, hc⟩ := h
  have htC : (t : ℂ) ≠ 0 := ofReal_ne_zero.mpr ht.ne'
  rw [hc, map_mul, conj_ofReal, norm_mul, hu, mul_one, norm_real, Real.norm_of_nonneg ht.le,
    mul_div_cancel_left₀ _ htC]

theorem correlation_ne_zero (hu : ‖u‖ = 1) (h : b.Points blocksize u) :
    b.correlation blocksize ≠ 0 := by
  obtain ⟨t, ht, hc⟩ := h
  have hne : u ≠ 0 := norm_ne_zero_iff.mp (hu ▸ one_ne_zero)
  rw [hc]
  exact mul_ne_zero (ofReal_ne_zero.mpr ht.ne') hne

/-! ## Correlations in one direction -/

/-- Each call halves the distance of the coefficient from the conjugate of the direction. -/
theorem estimates_of_direction (hu : ‖u‖ = 1) (h : ∀ b ∈ blocks, b.Points blocksize u) :
    ∃ d', d.estimates blocksize blocks = some d' ∧
      d'.phasecorrprev = conj u + (1 / 2) ^ blocks.length * (d.phasecorrprev - conj u) ∧
      (blocks ≠ [] → d'.phasecorr = d'.phasecorrprev) := by
  induction blocks using List.reverseRecOn with
  | nil => exact ⟨d, rfl, by simp, fun h => absurd rfl h⟩
  | append_singleton blocks b ih =>
    obtain ⟨d₁, hd₁, hprev, -⟩ := ih fun b hb => h b (List.mem_append_left _ hb)
    have hb := h b (List.mem_append_right _ (List.mem_singleton_self b))
    obtain ⟨d', hd', -, hcorr, hprev'⟩ := estimate_eq_some (d := d₁) (correlation_ne_zero hu hb)
    refine ⟨d', by rw [estimates_concat, hd₁]; exact hd', ?_, fun _ => hprev'.symm⟩
    rw [hprev', hcorr, conj_div_norm hu hb, hprev, List.length_append, List.length_singleton, pow_succ]
    ring

/-- A block that is turned by the conjugate of its direction is in phase with the reference. -/
theorem correlation_phasecorrect {t : ℝ} (hu : ‖u‖ = 1) (hc : b.correlation blocksize = t * u)
    (hd : d.phasecorr = conj u) :
    conjDotproduct ({ d with sfloat := b.sfloat }.phasecorrect blocksize).sfloat (b.ref blocksize)
      (blocksize >>> 1) = t := by
  have hunit : u * conj u = 1 := by rw [mul_conj, normSq_eq_norm_sq, hu]; norm_num
  have hsum : conjDotproduct ({ d with sfloat := b.sfloat }.phasecorrect blocksize).sfloat
      (b.ref blocksize) (blocksize >>> 1) = b.correlation blocksize * conj u := by
    rw [PhaseBlock.correlation, conjDotproduct, conjDotproduct, Finset.sum_mul]
    refine Finset.sum_congr rfl fun i hi => ?_
    rw [phasecorrect_of_lt (Finset.mem_range.mp hi), hd]
    ring
  rw [hsum, hc, mul_assoc, hunit, mul_one]

/-- For every start, every direction and every sequence of blocks whose correlations have the
direction: the coefficient after the sequence, and the correlation of a block that is corrected with
the conjugate of its direction. -/
theorem phasecorr_converges (hu : ‖u‖ = 1) (h : ∀ b ∈ blocks, b.Points blocksize u) :
    (∃ d', d.estimates blocksize blocks = some d' ∧
      d'.phasecorrprev = conj u + (2 : ℂ) ^ (-(blocks.length : ℤ)) * (d.phasecorrprev - conj u) ∧
      (blocks ≠ [] → d'.phasecorr = d'.phasecorrprev)) ∧
    ∀ (d' : Csdrdevice ℂ R) (b : PhaseBlock), d'.phasecorr = conj u → b.Points blocksize u →
      ∃ t : ℝ, 0 < t ∧
        conjDotproduct ({ d' with sfloat := b.sfloat }.phasecorrect blocksize).sfloat
          (b.ref blocksize) (blocksize >>> 1) = t := by
  constructor
  · have hpow : (2 : ℂ) ^ (-(blocks.length : ℤ)) = (1 / 2) ^ blocks.length := by
      rw [zpow_neg, zpow_natCast, one_div, inv_pow]
    rw [hpow]
    exact estimates_of_direction hu h
  · rintro d' b hd' ⟨t, ht, hc⟩
    exact ⟨t, ht, correlation_phasecorrect hu hc hd'⟩

/-- One sample, a quarter turn ahead of the reference. -/
noncomputable def quarterBlock : PhaseBlock :=
  ⟨fun i => if i = 0 then I else 0, fun i => if i = 1 then 1 else 0⟩

theorem correlation_quarterBlock : quarterBlock.correlation 2 = I := by
  simp [PhaseBlock.correlation, conjDotproduct, PhaseBlock.ref, quarterBlock]

theorem points_quarterBlock : quarterBlock.Points 2 I :=
  ⟨1, one_pos, by rw [correlation_quarterBlock, ofReal_one, one_mul]⟩

theorem phasecorr_converges_quarterBlock :
    (∃ d', (init : Csdrdevice ℂ ℝ).estimates 2 [quarterBlock, quarterBlock] = some d' ∧
      d'.phasecorrprev = conj I + (2 : ℂ) ^ (-([quarterBlock, quarterBlock].length : ℤ)) *
        ((init : Csdrdevice ℂ ℝ).phasecorrprev - conj I) ∧
      ([quarterBlock, quarterBlock] ≠ [] → d'.phasecorr = d'.phasecorrprev)) ∧
    ∀ (d' : Csdrdevice ℂ ℝ) (b : PhaseBlock), d'.phasecorr = conj I → b.Points 2 I →
      ∃ t : ℝ, 0 < t ∧ conjDotproduct ({ d' with sfloat := b.sfloat }.phasecorrect 2).sfloat
        (b.ref 2) (2 >>> 1) = t :=
  phasecorr_converges norm_I (by
    intro b hb
    simp only [List.mem_cons, List.not_mem_nil, or_false, or_self] at hb
    exact hb ▸ points_quarterBlock)

/-! ## Rotations -/

/-- A coefficient of absolute value one keeps the magnitude of every sample. -/
theorem norm_phasecorrect (h : ‖d.phasecorr‖ = 1) (i : ℕ) :
    ‖(d.phasecorrect blocksize).sfloat i‖ = ‖d.sfloat i‖ := by
  rcases Nat.lt_or_ge i (blocksize >>> 1) with hi | hi
  · rw [phasecorrect_of_lt hi, norm_mul, h, mul_one]
  · rw [phasecorrect_of_ge hi]

/-- The mean of two points of the unit circle is on it only if they are equal. -/
theorem eq_of_norm_mean {v w : ℂ} (hv : ‖v‖ = 1) (hw : ‖w‖ = 1) (h : ‖(v + w) / 2‖ = 1) :
    v = w := by
  refine eq_of_norm_eq_of_norm_add_eq (hv.trans hw.symm) ?_
  rw [norm_div, RCLike.norm_ofNat] at h
  rw [hv, hw]
  linarith

/-- A correlation whose direction is `1` is a positive real number. -/
theorem points_one_of_conj_div_norm (hne : b.correlation blocksize ≠ 0)
    (h : conj (b.correlation blocksize) / ‖b.correlation blocksize‖ = 1) : b.Points blocksize 1 := by
  have hnorm : (‖b.correlation blocksize‖ : ℂ) ≠ 0 := ofReal_ne_zero.mpr (norm_ne_zero_iff.mpr hne)
  refine ⟨‖b.correlation blocksize‖, norm_pos_iff.mpr hne, ?_⟩
  rw [mul_one, ← conj_conj (b.correlation blocksize), (div_eq_one_iff_eq hnorm).mp h, conj_ofReal,
    norm_real, norm_norm]

/-- After every call the coefficient is defined and has absolute value one, so that the samples keep
their magnitudes. -/
def Rotates (blocksize : ℕ) (d : Csdrdevice ℂ R) (blocks : List PhaseBlock) : Prop :=
  ∀ m, 0 < m → m ≤ blocks.length → ∃ d', d.estimates blocksize (blocks.take m) = some d' ∧
    ‖d'.phasecorr‖ = 1 ∧ ∀ i, ‖(d'.phasecorrect blocksize).sfloat i‖ = ‖d'.sfloat i‖

theorem Rotates.of_concat (h : d.Rotates blocksize (blocks ++ [b])) : d.Rotates blocksize blocks := by
  intro m hm hle
  obtain ⟨d', hd', hrot⟩ := h m hm (by rw [List.length_append]; omega)
  exact ⟨d', by rwa [List.take_append_of_le_length hle] at hd', hrot⟩

/-- From the constructor on, for every sequence of blocks: after every call the coefficient is well
defined and of absolute value one if and only if all correlations are positive real numbers. -/
theorem rotation_iff [Zero R] (blocksize : ℕ) (blocks : List PhaseBlock) :
    (Csdrdevice.init : Csdrdevice ℂ R).Rotates blocksize blocks ↔
      ∀ b ∈ blocks, ∃ t : ℝ, 0 < t ∧ b.correlation blocksize = t := by
  have hpoints : ∀ b : PhaseBlock,
      (∃ t : ℝ, 0 < t ∧ b.correlation blocksize = t) ↔ b.Points blocksize 1 := by
    intro b
    simp only [PhaseBlock.Points, mul_one]
  simp only [hpoints]
  constructor
  · intro h
    induction blocks using List.reverseRecOn with
    | nil => simp
    | append_singleton blocks b ih =>
      have hblocks := ih h.of_concat
      -- the coefficient before the last call is `1`
      obtain ⟨d₁, hd₁, hprev, -⟩ := estimates_of_direction (d := (init : Csdrdevice ℂ R)) norm_one hblocks
      have hone : d₁.phasecorrprev = 1 := by rw [hprev]; simp [init]
      obtain ⟨d', hd', hnorm, -⟩ := h (blocks ++ [b]).length (by simp) le_rfl
      rw [List.take_length, estimates_concat, hd₁] at hd'
      have hne : b.correlation blocksize ≠ 0 := by
        intro hzero
        rw [Option.bind_some, estimate_eq_none hzero] at hd'
        cases hd'
      obtain ⟨d₂, hd₂, -, hcorr, -⟩ := estimate_eq_some (d := d₁) hne
      cases Option.some_injective _ (hd₂.symm.trans hd')
      have hunit : ‖conj (b.correlation blocksize) / (‖b.correlation blocksize‖ : ℂ)‖ = 1 := by
        rw [norm_div, RCLike.norm_conj, norm_real, norm_norm, div_self (norm_ne_zero_iff.mpr hne)]
      have hb : b.Points blocksize 1 := by
        refine points_one_of_conj_div_norm hne (eq_of_norm_mean hunit norm_one ?_)
        rw [hcorr, hone] at hnorm
        exact hnorm
      intro b' hb'
      rcases List.mem_append.mp hb' with hb' | hb'
      · exact hblocks b' hb'
      · rwa [List.mem_singleton.mp hb']
  · intro h m hm hle
    obtain ⟨d', hd', hprev, hcorr⟩ := estimates_of_direction (d := (init : Csdrdevice ℂ R)) norm_one
      fun b hb => h b (List.mem_of_mem_take hb)
    have hne : blocks.take m ≠ [] := by
      rw [Ne, List.take_eq_nil_iff]
      rintro (rfl | rfl)
      · omega
      · simp at hle; omega
    have hone : d'.phasecorr = 1 := by rw [hcorr hne, hprev]; simp [init]
    have hnorm : ‖d'.phasecorr‖ = 1 := by rw [hone, norm_one]
    exact ⟨d', hd', hnorm, norm_phasecorrect hnorm⟩

/-- A quarter turn ahead of the reference: the coefficient is the mean of `-i` and `1`. -/
theorem not_rotation :
    ¬ ∀ (blocksize : ℕ) (blocks : List PhaseBlock),
      (Csdrdevice.init : Csdrdevice ℂ ℝ).Rotates blocksize blocks := by
  intro h
  obtain ⟨d', hd', hnorm, -⟩ := h 2 [quarterBlock] 1 one_pos le_rfl
  have hne : quarterBlock.correlation 2 ≠ 0 := by rw [correlation_quarterBlock]; exact I_ne_zero
  obtain ⟨d₂, hd₂, -, hcorr, -⟩ := estimate_eq_some (d := (init : Csdrdevice ℂ ℝ)) hne
  have hd' : (init : Csdrdevice ℂ ℝ).estimates 2 ([] ++ [quarterBlock]) = some d' := hd'
  rw [estimates_concat] at hd'
  cases Option.some_injective _ (hd₂.symm.trans hd')
  rw [hcorr, correlation_quarterBlock, norm_I, ofReal_one, div_one, conj_I] at hnorm
  have hone : -I = 1 := eq_of_norm_mean (by rw [norm_neg, norm_I]) norm_one hnorm
  have := congrArg re hone
  simp at this

end Csdrdevice
end Aegir
