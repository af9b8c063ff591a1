import Mathlib

/-!
# The parabola through three points

The parabola with given values at `-1`, `0` and `1`, and its vertex. Where the middle value is above
the mean of the others, the parabola opens downwards and the vertex is the only place of its maximum
(`parabola_le_iff`).
-/

namespace Aegir

variable {K : Type*} [Field K] {y1 y2 y3 x : K}

/-- The parabola with the values `y1`, `y2` and `y3` at `-1`, `0` and `1`. -/
def parabola (y1 y2 y3 x : K) : K :=
  y2 + (y3 - y1) / (2 : ℕ) * x - ((2 : ℕ) * y2 - y1 - y3) / (2 : ℕ) * x ^ 2

/-- The abscissa of its vertex. -/
def vertex (y1 y2 y3 : K) : K := (y3 - y1) / ((2 : ℕ) * ((2 : ℕ) * y2 - y1 - y3))

theorem vertex_eq : vertex y1 y2 y3 = (y3 - y1) / (2 * (2 * y2 - y1 - y3)) := by
  rw [vertex, Nat.cast_ofNat]

@[simp] theorem parabola_zero : parabola y1 y2 y3 0 = y2 := by simp [parabola]

section
variable [NeZero (2 : K)]

@[simp] theorem parabola_neg_one : parabola y1 y2 y3 (-1) = y1 := by
  have := NeZero.ne (2 : K)
  rw [parabola, Nat.cast_ofNat]
  field_simp
  ring

@[simp] theorem parabola_one : parabola y1 y2 y3 1 = y3 := by
  have := NeZero.ne (2 : K)
  rw [parabola, Nat.cast_ofNat]
  field_simp
  ring

/-- The distance from the value at the vertex. -/
theorem parabola_vertex_sub (h : 2 * y2 - y1 - y3 ≠ 0) :
    parabola y1 y2 y3 (vertex y1 y2 y3) - parabola y1 y2 y3 x =
      (2 * y2 - y1 - y3) / 2 * (x - vertex y1 y2 y3) ^ 2 := by
  have := NeZero.ne (2 : K)
  simp only [parabola, vertex, Nat.cast_ofNat]
  generalize 2 * y2 - y1 - y3 = s at h ⊢
  generalize y3 - y1 = t
  field_simp
  ring

end

variable [LinearOrder K] [IsStrictOrderedRing K]

/-- The maximum is at the vertex, and nowhere else. -/
theorem parabola_le_iff (h : 0 < 2 * y2 - y1 - y3) :
    (∀ z, parabola y1 y2 y3 z ≤ parabola y1 y2 y3 x) ↔ x = vertex y1 y2 y3 := by
  have hsub := fun z => parabola_vertex_sub (x := z) h.ne'
  constructor
  · intro hmax
    have hle := hmax (vertex y1 y2 y3)
    have hsq : (2 * y2 - y1 - y3) / 2 * (x - vertex y1 y2 y3) ^ 2 ≤ 0 := by
      rw [← hsub x]
      exact sub_nonpos.mpr hle
    have hzero : (x - vertex y1 y2 y3) ^ 2 = 0 :=
      le_antisymm (nonpos_of_mul_nonpos_right hsq (half_pos h)) (sq_nonneg _)
    exact sub_eq_zero.mp (pow_eq_zero_iff two_ne_zero |>.mp hzero)
  · rintro rfl z
    rw [← sub_nonneg, hsub z]
    exact mul_nonneg (half_pos h).le (sq_nonneg _)

end Aegir
