import Aegir.Model.Device

/-!
# The computation of the lags

`ccoherent::computelag` without the queue: the transforms of the queued blocks, the product of each
with the conjugate of the first one, the transforms back, and for each block the place of the maximum
with its fraction. The FFTW plans and the VOLK kernels are members of `LagKernels`; samples and lags
are elements of fields, computed exactly. A division is only made where the divisor is not zero
(`divide`).
-/

namespace Aegir

/-- What the computation calls outside of the repository: the two plans for a block of `n` elements,
`volk_32fc_magnitude_squared_32f` for one element, `volk_32f_index_max_32u` and `sqrt`. -/
structure LagKernels (C R : Type*) where
  forward : Nat → (Nat → C) → Nat → C
  backward : Nat → (Nat → C) → Nat → C
  magnitudeSquared : C → R
  indexMax : (Nat → R) → Nat → Nat
  sqrt : R → R

/-! ## `cdsp` -/

namespace Cdsp

variable {C R : Type*} (ker : LagKernels C R)

/-- `cdsp::fft`: the plan is for `nfft` blocks of `n` elements, one after the other. -/
def fft (out inp : Nat → C) (plan : (Nat → C) → Nat → C) (n nfft : Nat) : Nat → C :=
  overwrite out 0 (n * nfft) fun i => plan (advance inp (i / n * n)) (i % n)

/-- `cdsp::conjugatemul`, into `out` from the element `start` on. -/
def conjugatemul [Mul C] [Star C] (out : Nat → C) (start : Nat) (in1 in2 : Nat → C) (n : Nat) :
    Nat → C :=
  overwrite out start n fun i => in1 i * star (in2 i)

/-- `cdsp::magsquared`, into `out` from the element `start` on. -/
def magsquared (out : Nat → R) (start : Nat) (inp : Nat → C) (n : Nat) : Nat → R :=
  overwrite out start n fun i => ker.magnitudeSquared (inp i)

/-- `cdsp::indexofmax`. -/
def indexofmax (inp : Nat → R) (n : Nat) : Nat := ker.indexMax inp n

end Cdsp

/-! ## `computelag` -/

/-- The buffers of `ccoherent`, each of `nfft` blocks. -/
structure LagBuffers (C R : Type*) where
  sfloat : Nat → C
  sfft : Nat → C
  sconv : Nat → C
  sifft : Nat → C
  smagsqr : Nat → R

/-- The part of `ccoherent::computelag` before the loop over the lags; `len` is the size of the
queue. -/
def LagBuffers.transform {C R : Type*} [Mul C] [Star C] (ker : LagKernels C R)
    (blocksize nfft len : Nat) (b : LagBuffers C R) : LagBuffers C R :=
  let sfft := Cdsp.fft b.sfft b.sfloat (ker.forward blocksize) blocksize nfft
  let sconv := (List.range' 1 (len - 1)).foldl (fun sconv k =>
    Cdsp.conjugatemul sconv (k * blocksize) (advance sfft (k * blocksize)) sfft blocksize) b.sconv
  let sifft := Cdsp.fft b.sifft sconv (ker.backward blocksize) blocksize nfft
  let smagsqr := Cdsp.magsquared ker b.smagsqr blocksize (advance sifft blocksize)
    (blocksize * (nfft - 1))
  { b with sfft, sconv, sifft, smagsqr }

section
variable {C R : Type*} [Field R] [DecidableEq R]

/-- A division, which is not made when the divisor is zero. -/
def divide (x y : R) : Option R := if y = 0 then none else some (x / y)

theorem divide_of_ne {x y : R} (h : y ≠ 0) : divide x y = some (x / y) := if_neg h

/-- The fraction `D` of a maximum `y2` between `y1` and `y3`. -/
def fraction (y1 y2 y3 : R) : Option R :=
  let a := -y1 - 2.0 * y2 + y3
  let b := -0.5 * y1 + 0.5 * y3
  if a ≠ 0 then divide (-b) a else some 0

/-- One round of the loop of `ccoherent::computelag`: what it passes to `set_lag` for the block `k`
of the queue. -/
def lagpoint (ker : LagKernels C R) (blocksize : Nat) (smagsqr : Nat → R) (k : Nat) :
    Option (Lagpoint R) := do
  let idx := Cdsp.indexofmax ker (advance smagsqr (k * blocksize)) blocksize
  let ptr := k * blocksize + idx
  let mag := ker.sqrt (← divide (smagsqr ptr) (blocksize >>> 1 : Nat))
  let lag ← if 1 < idx ∧ idx < blocksize - 1 then
      (fraction (smagsqr (ptr - 1)) (smagsqr ptr) (smagsqr (ptr + 1))).map ((idx : R) + ·)
    else some (idx : R)
  return ⟨lag - (blocksize >>> 1 : Nat), mag⟩

end

/-! ## The accesses -/

/-- The buffers of `ccoherent`. -/
inductive LagBuffer
  | sfloat | sfft | sconv | sifft | smagsqr
  deriving DecidableEq, Repr

/-- The elements of a buffer that a call or an expression reads or writes. -/
structure Access where
  buffer : LagBuffer
  first : Nat
  count : Nat
  deriving DecidableEq, Repr

/-- The accesses of the calls of `queuelag` and of `computelag`, for a queue of `len` devices; `idx` is
what `indexofmax` returns for a block. Their offsets and lengths are all the products that the code
takes. -/
def lagAccesses (blocksize nfft : Nat) (idx : Nat → Nat) (len : Nat) : List Access :=
  -- `memcpy` in `queuelag`
  (List.range len).map (fun k => ⟨.sfloat, k * blocksize, blocksize⟩) ++
  [⟨.sfloat, 0, blocksize * nfft⟩, ⟨.sfft, 0, blocksize * nfft⟩] ++
  (List.range' 1 (len - 1)).flatMap (fun k => [⟨.sconv, k * blocksize, blocksize⟩,
    ⟨.sfft, k * blocksize, blocksize⟩, ⟨.sfft, 0, blocksize⟩]) ++
  [⟨.sconv, 0, blocksize * nfft⟩, ⟨.sifft, 0, blocksize * nfft⟩] ++
  [⟨.smagsqr, blocksize, blocksize * (nfft - 1)⟩, ⟨.sifft, blocksize, blocksize * (nfft - 1)⟩] ++
  -- the loop over the lags
  (List.range' 1 (len - 1)).flatMap fun k =>
    let ptr := k * blocksize + idx k
    [⟨.smagsqr, k * blocksize, blocksize⟩, ⟨.smagsqr, ptr, 1⟩] ++
      if 1 < idx k ∧ idx k < blocksize - 1 then [⟨.smagsqr, ptr - 1, 1⟩, ⟨.smagsqr, ptr + 1, 1⟩]
      else []

end Aegir
