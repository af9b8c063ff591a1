import Mathlib

/-!
# Strings as C reads them

A string is the list of its characters. C code that is handed the address of the first character
reads up to the first NUL.
-/

namespace Aegir

/-- The characters of a literal. It is irreducible because literals are compared only by `decide`. -/
@[irreducible] def chars (s : String) : List Char := s.toList

/-- The characters before the first NUL. -/
def cstring (l : List Char) : List Char := l.takeWhile (· ≠ '\x00')

variable {l l' : List Char}

theorem cstring_of_notMem (h : '\x00' ∉ l) : cstring l = l :=
  List.takeWhile_eq_self_iff.mpr fun _ hc => decide_eq_true fun h0 => h (h0 ▸ hc)

theorem notMem_cstring : '\x00' ∉ cstring l := fun h => by
  have := List.mem_takeWhile_imp h
  simp at this

theorem cstring_chars {s : String} (h : '\x00' ∉ s.toList) : cstring (chars s) = chars s := by
  unfold chars
  exact cstring_of_notMem h

theorem chars_inj {s t : String} : chars s = chars t ↔ s = t := by
  unfold chars
  exact String.toList_inj

@[simp] theorem cstring_cstring : cstring (cstring l) = cstring l := cstring_of_notMem notMem_cstring

/-- Behind a string without NUL, what follows is read too. -/
theorem cstring_append (h : '\x00' ∉ l) : cstring (l ++ l') = l ++ cstring l' := by
  rw [cstring, List.takeWhile_append_of_pos]
  · rfl
  · exact fun c hc => decide_eq_true fun h0 => h (h0 ▸ hc)

end Aegir
