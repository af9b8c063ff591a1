import Mathlib

/-!
# Arrays and byte memory

An array is a function of the index, and `overwrite` stores a block of elements. A byte buffer is an
array of bytes, addressed from its first byte. `Mem.blit` is `memcpy` from memory that does not
overlap; the stores of integers of the C++ code are blits of their bytes in the byte order of the
machine. Every operation has a lemma for an address inside what it stores and one for an address
outside, so that proofs never unfold it.
-/

namespace Aegir

/-! ## Arrays -/

section
variable {α : Type*} {m src : Nat → α} {a n i : Nat}

/-- Store the first `n` elements of `src` from the index `a` on. -/
def overwrite (m : Nat → α) (a n : Nat) (src : Nat → α) : Nat → α :=
  fun i => if a ≤ i ∧ i < a + n then src (i - a) else m i

theorem overwrite_add (h : i < n) : overwrite m a n src (a + i) = src i := by
  simp [overwrite, h]

theorem overwrite_of_lt (h : i < a) : overwrite m a n src i = m i := by
  simp [overwrite, Nat.not_le.mpr h]

theorem overwrite_of_ge (h : a + n ≤ i) : overwrite m a n src i = m i := by
  simp [overwrite, Nat.not_lt.mpr h]

theorem overwrite_zero (h : i < n) : overwrite m 0 n src i = src i := by
  simp [overwrite, h]

/-- The array from the index `k` on. -/
def advance (m : Nat → α) (k : Nat) : Nat → α := fun i => m (k + i)

@[simp] theorem advance_apply : advance m a i = m (a + i) := rfl

@[simp] theorem advance_zero : advance m 0 = m := by
  funext i
  rw [advance_apply, Nat.zero_add]

end

/-! ## Bytes -/

/-- Byte order of a machine. -/
inductive ByteOrder
  | little | big
  deriving DecidableEq, Repr

/-- The significance of the byte at offset `i` of an integer of `n` bytes. -/
def ByteOrder.place : ByteOrder → Nat → Nat → Nat
  | .little, _, i => i
  | .big, n, i => n - 1 - i

theorem ByteOrder.place_lt {o : ByteOrder} {n i : Nat} (h : i < n) : o.place n i < n := by
  cases o <;> simp only [place] <;> omega

theorem ByteOrder.place_place {o : ByteOrder} {n i : Nat} (h : i < n) : o.place n (o.place n i) = i := by
  cases o <;> simp only [place]
  omega

/-- The bytes of a buffer. -/
abbrev Mem := Nat → UInt8

/-- The byte of significance `i` of `w`. -/
def byteOf (w i : Nat) : UInt8 := UInt8.ofNat (w / 256 ^ i)

theorem byteOf_xor {v w i : Nat} : byteOf (v ^^^ w) i = byteOf v i ^^^ byteOf w i := by
  have hpow : 256 ^ i = 2 ^ (8 * i) := by rw [Nat.pow_mul]
  rw [byteOf, byteOf, byteOf, hpow, Nat.xor_div_two_pow, UInt8.ofNat_xor]

namespace Mem

variable {o : ByteOrder} {m m' : Mem} {a b n i : Nat}

/-- Store the first `n` bytes of `src` from address `a` on. -/
def blit (m : Mem) (a n : Nat) (src : Nat → UInt8) : Mem := overwrite m a n src

theorem blit_add {src : Nat → UInt8} (h : i < n) : m.blit a n src (a + i) = src i :=
  overwrite_add h

theorem blit_of_lt {src : Nat → UInt8} (h : i < a) : m.blit a n src i = m i := overwrite_of_lt h

theorem blit_of_ge {src : Nat → UInt8} (h : a + n ≤ i) : m.blit a n src i = m i :=
  overwrite_of_ge h

theorem blit_of_disjoint {src : Nat → UInt8} (h : i < a ∨ a + n ≤ i) :
    m.blit a n src i = m i :=
  h.elim blit_of_lt blit_of_ge

theorem blit_congr {src : Nat → UInt8} (h : m i = m' i) :
    m.blit a n src i = m'.blit a n src i := by
  simp only [blit, overwrite, h]

/-- Store a 32-bit integer. -/
def store32 (o : ByteOrder) (m : Mem) (a : Nat) (w : UInt32) : Mem :=
  m.blit a 4 fun i => byteOf w.toNat (o.place 4 i)

/-- Load a 32-bit integer. -/
def load32 (o : ByteOrder) (m : Mem) (a : Nat) : UInt32 :=
  .ofNat ((m (a + o.place 4 0)).toNat + 256 * (m (a + o.place 4 1)).toNat +
    65536 * (m (a + o.place 4 2)).toNat + 16777216 * (m (a + o.place 4 3)).toNat)

/-- Store a 64-bit integer. -/
def store64 (o : ByteOrder) (m : Mem) (a : Nat) (w : UInt64) : Mem :=
  m.blit a 8 fun i => byteOf w.toNat (o.place 8 i)

/-- Load a 64-bit integer. -/
def load64 (o : ByteOrder) (m : Mem) (a : Nat) : UInt64 :=
  .ofNat ((List.range 8).foldl (fun w i => w + 256 ^ i * (m (a + o.place 8 i)).toNat) 0)

theorem store32_of_disjoint {w : UInt32} (h : i < a ∨ a + 4 ≤ i) : store32 o m a w i = m i :=
  blit_of_disjoint h

theorem load32_congr (h : ∀ i < 4, m (a + i) = m' (a + i)) : load32 o m a = load32 o m' a := by
  simp only [load32, h _ (ByteOrder.place_lt (by decide : 0 < 4)),
    h _ (ByteOrder.place_lt (by decide : 1 < 4)), h _ (ByteOrder.place_lt (by decide : 2 < 4)),
    h _ (ByteOrder.place_lt (by decide : 3 < 4))]

@[simp] theorem load32_store32 {w : UInt32} : load32 o (store32 o m a w) a = w := by
  have hw := w.toNat_lt
  apply UInt32.toNat_inj.mp
  cases o <;>
    simp only [load32, store32, ByteOrder.place, blit_add (by decide : 0 < 4),
      blit_add (by decide : 1 < 4), blit_add (by decide : 2 < 4), blit_add (by decide : 3 < 4),
      byteOf, UInt32.toNat_ofNat', UInt8.toNat_ofNat', Nat.reduceSub] <;>
    omega

theorem load32_store32_of_disjoint {w : UInt32} (h : b + 4 ≤ a ∨ a + 4 ≤ b) :
    load32 o (store32 o m a w) b = load32 o m b :=
  load32_congr fun i hi => store32_of_disjoint (by omega)

/-- The bytes of a 64-bit integer in memory. -/
theorem byteOf_load64 (h : i < 8) : byteOf (load64 o m a).toNat i = m (a + o.place 8 i) := by
  have hb : ∀ j, (m (a + o.place 8 j)).toNat < 256 := fun j => (m (a + o.place 8 j)).toNat_lt
  have h0 := hb 0
  have h1 := hb 1
  have h2 := hb 2
  have h3 := hb 3
  have h4 := hb 4
  have h5 := hb 5
  have h6 := hb 6
  have h7 := hb 7
  apply UInt8.toNat_inj.mp
  simp only [load64, byteOf, List.range, List.range.loop, List.foldl_cons, List.foldl_nil,
    UInt64.toNat_ofNat', UInt8.toNat_ofNat', Nat.reducePow]
  interval_cases i <;> omega

/-- A 32-bit integer determines its bytes. -/
theorem load32_inj (h : load32 o m a = load32 o m' a) : ∀ i < 4, m (a + i) = m' (a + i) := by
  have hb : ∀ (m : Mem) i, (m (a + i)).toNat < 256 := fun m i => (m (a + i)).toNat_lt
  have hw := congrArg UInt32.toNat h
  intro i hi
  apply UInt8.toNat_inj.mp
  cases o <;>
    simp only [load32, ByteOrder.place, UInt32.toNat_ofNat', Nat.reduceSub, Nat.reducePow] at hw <;>
    have h0 := hb m 0 <;> have h1 := hb m 1 <;> have h2 := hb m 2 <;> have h3 := hb m 3 <;>
    have k0 := hb m' 0 <;> have k1 := hb m' 1 <;> have k2 := hb m' 2 <;> have k3 := hb m' 3 <;>
    interval_cases i <;> omega

/-- The `n` bytes from address `a` on. -/
def read (m : Mem) (a n : Nat) : List UInt8 := (List.range n).map fun i => m (a + i)

@[simp] theorem length_read : (m.read a n).length = n := by simp [read]

theorem getElem?_read (h : i < n) : (m.read a n)[i]? = some (m (a + i)) := by
  simp [read, h]

theorem read_eq_map {f : Nat → UInt8} (h : ∀ i < n, m (a + i) = f i) :
    m.read a n = (List.range n).map f :=
  List.map_congr_left fun i hi => h i (List.mem_range.mp hi)

theorem read_add (k : Nat) : m.read a (n + k) = m.read a n ++ m.read (a + n) k := by
  simp only [read, List.range_add, List.map_append, List.map_map, Function.comp_def, Nat.add_assoc]

/-- Consecutive blocks of one size, read one after the other. -/
theorem read_mul (c k : Nat) :
    m.read a (c * k) = (List.range c).flatMap fun j => m.read (a + j * k) k := by
  induction c with
  | zero => rw [Nat.zero_mul]; rfl
  | succ c ih =>
    rw [Nat.succ_mul, read_add, ih, List.range_succ, List.flatMap_append, List.flatMap_singleton]

end Mem

/-- A property that one operation of a sequence establishes and every other one keeps holds
after the sequence, wherever the operation stands in it. -/
theorem foldl_established {σ ω : Type*} {f : σ → ω → σ} {P : σ → Prop} {ops : List ω} {x : ω}
    (hx : x ∈ ops) (est : ∀ s, P (f s x)) (keep : ∀ y ∈ ops, y ≠ x → ∀ s, P s → P (f s y))
    (s : σ) : P (ops.foldl f s) := by
  have kept : ∀ ops' : List ω, (∀ y ∈ ops', y ∈ ops) → ∀ s, P s → P (ops'.foldl f s) := by
    intro ops' hsub
    induction ops' with
    | nil => exact fun s h => h
    | cons y ops' ih =>
      intro s hs
      refine ih (fun z hz => hsub z (List.mem_cons_of_mem _ hz)) _ ?_
      by_cases hy : y = x
      · exact hy ▸ est s
      · exact keep y (hsub y List.mem_cons_self) hy s hs
  obtain ⟨pre, post, rfl⟩ := List.append_of_mem hx
  rw [List.foldl_append, List.foldl_cons]
  exact kept post (fun y hy => by simp [hy]) _ (est _)

/-- A property that every operation of a sequence keeps holds after it, when none of them fails. -/
theorem foldlM_invariant {σ ω : Type*} {f : σ → ω → Option σ} {P : σ → Prop} {ops : List ω}
    {s s' : σ} (keep : ∀ s x s', P s → f s x = some s' → P s') (hs : P s)
    (h : ops.foldlM f s = some s') : P s' := by
  induction ops generalizing s with
  | nil => cases h; exact hs
  | cons x ops ih =>
    rw [List.foldlM_cons] at h
    obtain ⟨s₁, h₁, h⟩ := Option.bind_eq_some_iff.mp h
    exact ih (keep _ _ _ hs h₁) h

end Aegir
