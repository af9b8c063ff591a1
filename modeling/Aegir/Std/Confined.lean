import Aegir.Std.Mem

/-!
# Operations confined to a buffer

An operation on byte memory is confined to the first `n` bytes when it changes no other byte and when
what it leaves in these bytes depends on nothing else. Such an operation can be carried out on a buffer
of `n` bytes, whatever lies behind it. Stores and copies inside the buffer are confined, and so is every
sequence of confined operations.
-/

namespace Aegir.Mem

variable {n a b k : Nat} {f g : Mem → Mem} {o : ByteOrder}

/-- The operation reads and writes no byte from the address `n` on. -/
structure Confined (n : Nat) (f : Mem → Mem) : Prop where
  outside : ∀ m i, n ≤ i → f m i = m i
  inside : ∀ m m' : Mem, (∀ i < n, m i = m' i) → ∀ i < n, f m i = f m' i

namespace Confined

theorem id : Confined n id where
  outside _ _ _ := rfl
  inside _ _ h := h

theorem comp (hg : Confined n g) (hf : Confined n f) : Confined n fun m => g (f m) where
  outside m i hi := (hg.outside _ i hi).trans (hf.outside m i hi)
  inside _ _ h := hg.inside _ _ (hf.inside _ _ h)

theorem ite {c : Prop} [Decidable c] (hf : c → Confined n f) (hg : ¬c → Confined n g) :
    Confined n fun m => if c then f m else g m := by
  by_cases h : c
  · simpa only [if_pos h] using hf h
  · simpa only [if_neg h] using hg h

theorem foldl {ω : Type*} {f : Mem → ω → Mem} {l : List ω}
    (h : ∀ x ∈ l, Confined n fun m => f m x) : Confined n fun m => l.foldl f m := by
  induction l with
  | nil => exact id
  | cons x l ih =>
    have hrest := ih fun y hy => h y (List.mem_cons_of_mem _ hy)
    exact hrest.comp (h x List.mem_cons_self)

theorem blit (h : a + k ≤ n) (src : Nat → UInt8) : Confined n fun m => m.blit a k src where
  outside _ i hi := blit_of_ge (by omega)
  inside _ _ hm i hi := blit_congr (hm i hi)

/-- A copy from one place of the buffer to another. -/
theorem copy (ha : a + k ≤ n) (hb : b + k ≤ n) :
    Confined n fun m => m.blit a k fun i => m (b + i) where
  outside _ i hi := blit_of_ge (by omega)
  inside m m' hm i hi := by
    by_cases hin : a ≤ i ∧ i < a + k
    · obtain ⟨j, rfl⟩ := Nat.exists_eq_add_of_le hin.1
      have hj : j < k := by omega
      rw [blit_add hj, blit_add hj]
      exact hm _ (by omega)
    · rw [blit_of_disjoint (by omega), blit_of_disjoint (by omega)]
      exact hm i hi

theorem store32 (h : a + 4 ≤ n) (w : UInt32) : Confined n fun m => m.store32 o a w := blit h _

/-- The bytes read inside the buffer. -/
theorem read_congr {m m' : Mem} (h : ∀ i < n, m i = m' i) (hk : a + k ≤ n) :
    m.read a k = m'.read a k := by
  refine List.map_congr_left fun i hi => h _ ?_
  have := List.mem_range.mp hi
  omega

end Confined
end Aegir.Mem
