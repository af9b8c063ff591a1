import Aegir.Model.Console

/-!
# Command lines

Three handlers read a number with `stof`, and two commands wait. A line is harmless (`Harmless`) when it
has no number for the three, or one that survives: the integer part of the `float` must exist in the type
that it is converted to, and the two handlers that catch `std::invalid_argument` only must not be given
a number for which `stof` throws `std::out_of_range`. `request lag` must find the coherent thread
answering every signal device, and `log` something to read. The console dispatches just these lines to
their end (`dispatch_ok_iff`).
-/

namespace Aegir

variable {erange : ℚ → Bool} {r : Receiver} {word word' opt opt' line : List Char}

/-! ## The first space -/

theorem findIdx?_space_of_notMem (h : ' ' ∉ line) : line.findIdx? (· = ' ') = none := by
  rw [List.findIdx?_eq_none_iff]
  exact fun c hc => decide_eq_false fun hsp => h (hsp ▸ hc)

theorem findIdx?_space_append (h : ' ' ∉ word) :
    (word ++ ' ' :: opt).findIdx? (· = ' ') = some word.length := by
  rw [List.findIdx?_append, findIdx?_space_of_notMem h, List.findIdx?_cons]
  simp

theorem parsecmd_append (h : ' ' ∉ word) :
    parsecmd (word ++ ' ' :: opt) = (commandCodes.lookup word).getD .nop := by
  rw [parsecmd, findIdx?_space_append h]
  simp

theorem getoptionstr_append (h : ' ' ∉ word) : getoptionstr (word ++ ' ' :: opt) = opt := by
  rw [getoptionstr, findIdx?_space_append h]
  simp

theorem dispatch_append (h : ' ' ∉ word) :
    dispatch erange r (word ++ ' ' :: opt) =
      execute erange r ((commandCodes.lookup word).getD .nop) opt := by
  rw [dispatch, parsecmd_append h, getoptionstr_append h]

section
variable {ρ σ : Type*} {stof : List Char → Except StofError FloatValue} {x : ρ} (f : ρ → σ)

/-- What the state is plays no part in how the number is read. -/
theorem cmdfsWith_map {set : UInt32 → ρ} :
    (cmdfsWith stof x set opt).map f = cmdfsWith stof (f x) (f ∘ set) opt := by
  simp only [cmdfsWith]
  split
  · rfl
  cases stof opt with
  | error e => rfl
  | ok fs_ => cases hfs : fs_.toUint32 <;> simp [hfs, Except.map]

theorem cmdretuneWith_map {set : UInt32 → ρ} :
    (cmdretuneWith stof x set opt).map f = cmdretuneWith stof (f x) (f ∘ set) opt := by
  simp only [cmdretuneWith]
  split
  · rfl
  cases stof opt with
  | error e => cases e <;> rfl
  | ok fcenter => cases hfc : fcenter.toUint32 <;> simp [hfc, Except.map, apply_ite f]

end

theorem lookup_of_mem {cmd : CommandCode} (h : (word, cmd) ∈ commandCodes) :
    commandCodes.lookup word = some cmd := by
  have huniq : ∀ p ∈ commandCodes, commandCodes.lookup p.1 = some p.2 := by decide +kernel
  exact huniq _ h

/-- A command with an option behind one space. -/
theorem dispatch_command {cmd : CommandCode} (h : (word, cmd) ∈ commandCodes) :
    dispatch erange r (word ++ ' ' :: opt) = execute erange r cmd opt := by
  have hword : ∀ p ∈ commandCodes, ' ' ∉ p.1 := by decide +kernel
  rw [dispatch_append (hword _ h), lookup_of_mem h, Option.getD_some]

/-- A receiver with one signal channel, as it is before the first command. -/
def Receiver.idle : Receiver where
  refdev := ⟨0, 0, 0, false, true⟩
  devices := [⟨0, 0, 0, false, true⟩]
  refnoise := false
  biasTee := .replicate 5 false
  logReadable := true

/-- The signal channel is synchronized, so that the coherent thread answers no request
(`CoherentState.unanswered_of_run`), and there is nothing to read on the standard input. -/
def Receiver.settled : Receiver where
  refdev := ⟨0, 0, 0, false, true⟩
  devices := [⟨0, 0, 0, true, false⟩]
  refnoise := false
  biasTee := .replicate 5 false
  logReadable := false

end Aegir
