import Aegir.Std.Parabola
import Aegir.Verify.CrossCorrelation

/-!
# The fraction of a peak

`computelag` divides by `-y1 - 2*y2 + y3`, where the parabola through the peak has `y1 - 2*y2 + y3`.
Around a maximum the divisor is not zero, and the fraction is that of the vertex if and only if `y1`
is zero or equal to `y3` (`lagpoint_vertex_iff`).
-/

namespace Aegir

variable {K : Type*} [Field K] [LinearOrder K] {y1 y2 y3 : K}

/-- The values around a peak: squared magnitudes, none larger than the middle one, and not all of
them equal. -/
structure Peak (y1 y2 y3 : K) : Prop where
  left : 0 ≤ y1
  right : 0 ≤ y3
  left_le : y1 ≤ y2
  right_le : y3 ≤ y2
  ne : ¬ (y1 = y2 ∧ y3 = y2)

namespace Peak

theorem mirror (h : Peak y1 y2 y3) : Peak y3 y2 y1 :=
  ⟨h.right, h.left, h.right_le, h.left_le, fun he => h.ne he.symm⟩

/-- One of the neighbours is smaller than the peak. -/
theorem lt_or_lt (h : Peak y1 y2 y3) : y1 < y2 ∨ y3 < y2 := by
  rcases h.left_le.lt_or_eq with h1 | h1
  · exact .inl h1
  · rcases h.right_le.lt_or_eq with h3 | h3
    · exact .inr h3
    · exact absurd ⟨h1, h3⟩ h.ne

variable [IsStrictOrderedRing K]

/-- The parabola through the peak opens downwards. -/
theorem opens (h : Peak y1 y2 y3) : 0 < 2 * y2 - y1 - y3 := by
  have := h.left_le
  have := h.right_le
  rcases h.lt_or_lt with hlt | hlt <;> linarith

/-- The divisor of the code is not zero. -/
theorem divisor_pos (h : Peak y1 y2 y3) : 0 < y1 + 2 * y2 - y3 := by
  have := h.left
  have := h.right
  have := h.left_le
  have := h.right_le
  rcases h.lt_or_lt with hlt | hlt <;> linarith

/-- The fraction that the code computes. -/
theorem fraction_eq (h : Peak y1 y2 y3) :
    fraction y1 y2 y3 = some ((y3 - y1) / (2 * (y1 + 2 * y2 - y3))) := by
  have htwo : (2.0 : K) = 2 := by norm_num
  have ha : -y1 - 2.0 * y2 + y3 = -(y1 + 2 * y2 - y3) := by rw [htwo]; ring
  have hb : -(-0.5 * y1 + 0.5 * y3) = -((y3 - y1) / 2) := by ring
  have hne : -(y1 + 2 * y2 - y3) ≠ 0 := neg_ne_zero.mpr h.divisor_pos.ne'
  simp only [fraction, ha, hb, if_pos hne, divide_of_ne hne]
  rw [neg_div_neg_eq, div_div]

/-- The fraction is that of the vertex if and only if the value before the peak is zero or the peak
is symmetric. -/
theorem fraction_eq_vertex_iff (h : Peak y1 y2 y3) :
    (y3 - y1) / (2 * (y1 + 2 * y2 - y3)) = vertex y1 y2 y3 ↔ y1 = 0 ∨ y1 = y3 := by
  have hne : 2 * (y1 + 2 * y2 - y3) ≠ 0 := mul_ne_zero two_ne_zero h.divisor_pos.ne'
  have hne' : 2 * (2 * y2 - y1 - y3) ≠ 0 := mul_ne_zero two_ne_zero h.opens.ne'
  have hprod : (y3 - y1) * (2 * (2 * y2 - y1 - y3)) - (y3 - y1) * (2 * (y1 + 2 * y2 - y3)) =
      4 * (y1 * (y1 - y3)) := by ring
  rw [vertex_eq, div_eq_div_iff hne hne', ← sub_eq_zero, hprod, mul_eq_zero, mul_eq_zero, sub_eq_zero]
  simp

/-- Exchanging the neighbours changes the sign of the fraction if and only if they are equal. -/
theorem fraction_mirror_iff (h : Peak y1 y2 y3) :
    (y1 - y3) / (2 * (y3 + 2 * y2 - y1)) = -((y3 - y1) / (2 * (y1 + 2 * y2 - y3))) ↔ y1 = y3 := by
  have hne : 2 * (y1 + 2 * y2 - y3) ≠ 0 := mul_ne_zero two_ne_zero h.divisor_pos.ne'
  have hne' : 2 * (y3 + 2 * y2 - y1) ≠ 0 := mul_ne_zero two_ne_zero h.mirror.divisor_pos.ne'
  have hprod : (y1 - y3) * (2 * (y1 + 2 * y2 - y3)) - (y1 - y3) * (2 * (y3 + 2 * y2 - y1)) =
      4 * ((y1 - y3) * (y1 - y3)) := by ring
  rw [← neg_div, neg_sub, div_eq_div_iff hne' hne, ← sub_eq_zero, hprod, mul_eq_zero,
    mul_self_eq_zero, sub_eq_zero]
  simp

end Peak

section
variable [IsStrictOrderedRing K] {C : Type*} {ker : LagKernels C K} {smagsqr : ℕ → K} {n k idx : ℕ}

/-- The lag that `computelag` reports for a maximum inside of the block. -/
theorem lagpoint_of_peak (hidx : Cdsp.indexofmax ker (advance smagsqr (k * n)) n = idx)
    (h1 : 1 < idx) (hn : idx < n - 1)
    (hpeak : Peak (smagsqr (k * n + idx - 1)) (smagsqr (k * n + idx)) (smagsqr (k * n + idx + 1))) :
    ∃ p D, lagpoint ker n smagsqr k = some p ∧ p.lag = idx + D - (n / 2 : ℕ) ∧
      fraction (smagsqr (k * n + idx - 1)) (smagsqr (k * n + idx)) (smagsqr (k * n + idx + 1)) =
        some D := by
  have hdiv : ((n / 2 : ℕ) : K) ≠ 0 := Nat.cast_ne_zero.mpr (by omega)
  have hD := hpeak.fraction_eq
  simp only [lagpoint, hidx, Nat.shiftRight_one, divide_of_ne hdiv, Option.bind_eq_bind,
    Option.bind_some, if_pos (And.intro h1 hn), hD, Option.map_some]
  exact ⟨_, _, rfl, rfl, rfl⟩

/-- A block of squared magnitudes with its maximum inside, where the values around it are not all
equal: the lag is the place of the vertex of the parabola through them if and only if the value before
the maximum is zero or equal to the one behind it. Exchanging the two mirrors the fraction if and only
if they are equal. -/
theorem lagpoint_vertex_iff (hidx : Cdsp.indexofmax ker (advance smagsqr (k * n)) n = idx)
    (hnonneg : ∀ i < n, 0 ≤ smagsqr (k * n + i))
    (hmax : ∀ i < n, smagsqr (k * n + i) ≤ smagsqr (k * n + idx)) (h1 : 1 < idx) (hn : idx < n - 1)
    (y1 y2 y3 : K) (hy1 : smagsqr (k * n + idx - 1) = y1) (hy2 : smagsqr (k * n + idx) = y2)
    (hy3 : smagsqr (k * n + idx + 1) = y3) (hne : ¬ (y1 = y2 ∧ y3 = y2)) :
    ∃ p D, lagpoint ker n smagsqr k = some p ∧ p.lag = idx + D - (n / 2 : ℕ) ∧
      fraction y1 y2 y3 = some D ∧
      (p.lag = idx - (n / 2 : ℕ) + (y3 - y1) / (2 * (2 * y2 - y1 - y3)) ↔ y1 = 0 ∨ y1 = y3) ∧
      ((∀ x, parabola y1 y2 y3 x ≤ parabola y1 y2 y3 D) ↔ y1 = 0 ∨ y1 = y3) ∧
      (fraction y3 y2 y1 = some (-D) ↔ y1 = y3) := by
  have hprev : k * n + idx - 1 = k * n + (idx - 1) := by omega
  have hpeak : Peak y1 y2 y3 := by
    refine ⟨?_, ?_, ?_, ?_, hne⟩
    · rw [← hy1, hprev]; exact hnonneg _ (by omega)
    · rw [← hy3]; exact hnonneg (idx + 1) (by omega)
    · rw [← hy1, ← hy2, hprev]; exact hmax _ (by omega)
    · rw [← hy3, ← hy2]; exact hmax (idx + 1) (by omega)
  obtain ⟨p, D, hp, hlag, hD⟩ := lagpoint_of_peak hidx h1 hn (by rwa [hy1, hy2, hy3])
  rw [hy1, hy2, hy3] at hD
  cases hD.symm.trans hpeak.fraction_eq
  refine ⟨p, _, hp, hlag, hD, ?_, ?_, ?_⟩
  · rw [← hpeak.fraction_eq_vertex_iff, hlag, vertex_eq]
    constructor <;> intro h <;> linarith
  · rw [parabola_le_iff hpeak.opens, hpeak.fraction_eq_vertex_iff]
  · rw [hpeak.mirror.fraction_eq, Option.some_inj, hpeak.fraction_mirror_iff]

end

/-- Kernels for blocks of rational numbers, of which only the search for the maximum matters here. -/
def searchKernels : LagKernels ℚ ℚ where
  forward _ x := x
  backward _ x := x
  magnitudeSquared x := x * x
  indexMax := CoherentState.firstMax
  sqrt x := x

/-- A block whose maximum has different neighbours. -/
def skewBlock (i : ℕ) : ℚ := [0, 1, 4, 3, 0, 0].getD i 0

theorem skewBlock_nonneg : ∀ i < 6, 0 ≤ skewBlock (0 * 6 + i) := by decide +kernel

theorem skewBlock_le : ∀ i < 6, skewBlock (0 * 6 + i) ≤ skewBlock (0 * 6 + 2) := by decide +kernel

theorem indexofmax_skewBlock :
    Cdsp.indexofmax searchKernels (advance skewBlock (0 * 6)) 6 = 2 := by decide +kernel

theorem lagpoint_vertex_iff_skewBlock :
    ∃ p D, lagpoint searchKernels 6 skewBlock 0 = some p ∧ p.lag = (2 : ℕ) + D - (6 / 2 : ℕ) ∧
      fraction 1 4 3 = some D ∧
      (p.lag = (2 : ℕ) - (6 / 2 : ℕ) + (3 - 1) / (2 * (2 * 4 - 1 - 3)) ↔ (1 : ℚ) = 0 ∨ (1 : ℚ) = 3) ∧
      ((∀ x : ℚ, parabola 1 4 3 x ≤ parabola 1 4 3 D) ↔ (1 : ℚ) = 0 ∨ (1 : ℚ) = 3) ∧
      (fraction 3 4 1 = some (-D) ↔ (1 : ℚ) = 3) :=
  lagpoint_vertex_iff indexofmax_skewBlock skewBlock_nonneg skewBlock_le (by decide) (by decide)
    1 4 3 rfl rfl rfl (by norm_num)

/-- The lag of the block is `-5/6`, and the vertex is at `-3/4`. -/
theorem not_vertex :
    ¬ ∀ (ker : LagKernels ℚ ℚ) (smagsqr : ℕ → ℚ) (n k idx : ℕ),
      Cdsp.indexofmax ker (advance smagsqr (k * n)) n = idx →
      (∀ i < n, 0 ≤ smagsqr (k * n + i)) →
      (∀ i < n, smagsqr (k * n + i) ≤ smagsqr (k * n + idx)) → 1 < idx → idx < n - 1 →
      ∀ y1 y2 y3, smagsqr (k * n + idx - 1) = y1 → smagsqr (k * n + idx) = y2 →
      smagsqr (k * n + idx + 1) = y3 → ¬ (y1 = y2 ∧ y3 = y2) →
      ∃ p, lagpoint ker n smagsqr k = some p ∧
        p.lag = idx - (n / 2 : ℕ) + (y3 - y1) / (2 * (2 * y2 - y1 - y3)) := by
  intro h
  obtain ⟨p, hp, hlag⟩ := h searchKernels skewBlock 6 0 2 indexofmax_skewBlock skewBlock_nonneg
    skewBlock_le (by decide) (by decide) 1 4 3 rfl rfl rfl (by norm_num)
  have hpeak : Peak (1 : ℚ) 4 3 := by constructor <;> norm_num
  obtain ⟨p', D, hp', hlag', hD⟩ := lagpoint_of_peak indexofmax_skewBlock (by decide) (by decide) hpeak
  cases hp.symm.trans hp'
  cases hD.symm.trans hpeak.fraction_eq
  rw [hlag] at hlag'
  norm_num at hlag'

end Aegir
