import Mathlib

/-!
# A ring of slots without overflow check

A producer stores the values number `0, 1, 2, …` into the slots `0, …, N - 1` in turn, whether the
consumer has read the slot or not. `RingHolds` says what the slots contain after `n` stores: the
last `N` values. A consumer that reads the slot for the value number `c` gets the newest value with
that slot (`RingHolds.read`), which is the one it asks for as long as at most `N` values wait.
-/

namespace Aegir

variable {β : Type*} {N n c : Nat} {slot val : Nat → β}

/-- After `n` stores, each of the last `N` values is in its slot. -/
def RingHolds (N n : Nat) (slot val : Nat → β) : Prop :=
  ∀ b < n, n ≤ b + N → slot (b % N) = val b

/-- The newest of `n` values in the slot of the value number `c`. -/
def newest (N n c : Nat) : Nat := c + N * ((n - 1 - c) / N)

theorem newest_lt (h : c < n) : newest N n c < n := by
  have := Nat.mul_div_le (n - 1 - c) N
  unfold newest
  omega

theorem le_newest_add (hN : 0 < N) (h : c < n) : n ≤ newest N n c + N := by
  have := Nat.lt_mul_div_succ (n - 1 - c) hN
  rw [Nat.mul_add] at this
  unfold newest
  omega

theorem newest_eq_self (h : n ≤ c + N) (hc : c < n) : newest N n c = c := by
  rw [newest, Nat.div_eq_of_lt (by omega), Nat.mul_zero, Nat.add_zero]

namespace RingHolds

theorem zero : RingHolds N 0 slot val := fun b hb => absurd hb (Nat.not_lt_zero b)

theorem store (h : RingHolds N n slot val) :
    RingHolds N (n + 1) (Function.update slot (n % N) (val n)) val := by
  intro b hb hle
  by_cases he : b = n
  · subst he; exact Function.update_self ..
  · have hne : b % N ≠ n % N := by
      intro hmod
      have hdvd : N ∣ n - b := (Nat.modEq_iff_dvd' (by omega)).mp hmod
      have := Nat.le_of_dvd (by omega) hdvd
      omega
    rw [Function.update_of_ne hne]
    exact h b (by omega) (by omega)

/-- Only the values stored so far matter. -/
theorem congr {val' : Nat → β} (h : RingHolds N n slot val) (hval : ∀ b < n, val b = val' b) :
    RingHolds N n slot val' := fun b hb hle => (h b hb hle).trans (hval b hb)

theorem read (h : RingHolds N n slot val) (hN : 0 < N) (hc : c < n) :
    slot (c % N) = val (newest N n c) := by
  have hmod : newest N n c % N = c % N := by rw [newest, Nat.add_mul_mod_self_left]
  rw [← hmod]
  exact h _ (newest_lt hc) (le_newest_add hN hc)

end RingHolds

/-- The values read for consecutive numbers increase if and only if the laps by which the producer
was ahead do not decrease. -/
theorem add_mul_lt_iff {a a' : Nat} (hN : 0 < N) : c + N * a < c + 1 + N * a' ↔ a ≤ a' := by
  constructor
  · intro h
    by_contra hlt
    have := Nat.mul_le_mul_left N (Nat.succ_le_of_lt (Nat.not_le.mp hlt))
    rw [Nat.mul_succ] at this
    omega
  · intro h
    have := Nat.mul_le_mul_left N h
    omega

end Aegir
