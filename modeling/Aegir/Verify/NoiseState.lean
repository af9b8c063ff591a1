import Aegir.Model.Noise

/-!
# The recorded state of the noise source

`enabled` is to be what the last command says that left the program. `set_state` stores its argument
before it knows whether a command leaves, and only one of the three constructions stores anything.
After every sequence of calls, the two agree if and only if the file is open, or the GPIO is used and
has been set once, or `enabled` is false (`isenabled_recorded_iff`).
-/

namespace Aegir
namespace Crefnoise

variable {r : Crefnoise} {s : Bool}

/-- The noise source is recorded as enabled exactly when the last command enabled it. -/
def Recorded (r : Crefnoise) : Prop := r.isenabled = true ↔ r.issued.getLast?.any (·.enables) = true

/-- Commands leave the program. -/
def connected (r : Crefnoise) : Bool := r.hasRefDev || r.good

/-- What `set_state` sends. -/
def command (r : Crefnoise) (s : Bool) : NoiseCommand :=
  if r.hasRefDev then .gpio (if s then 1 else 0) else .char (if s then 'x' else 'o')

theorem enables_command : (r.command s).enables = s := by
  unfold command
  split <;> cases s <;> rfl

/-- What a call of `set_state` does. -/
theorem setState_eq : r.setState s =
    { r with enabled := s, issued := r.issued ++ if r.connected then [r.command s] else [] } := by
  cases hd : r.hasRefDev <;> cases hg : r.good <;>
    simp [setState, put, setReferenceNoiseState, issue, connected, command, hd, hg]

/-- Calls of `set_state`. -/
def setStates (r : Crefnoise) (calls : List Bool) : Crefnoise := calls.foldl setState r

theorem setStates_concat (calls : List Bool) :
    r.setStates (calls ++ [s]) = (r.setStates calls).setState s := by
  simp [setStates]

theorem setStates_connected (calls : List Bool) : (r.setStates calls).connected = r.connected := by
  induction calls using List.reverseRecOn with
  | nil => rfl
  | append_singleton calls s ih => rw [setStates_concat, setState_eq]; exact ih

/-- The last call is recorded, or the member keeps its value. -/
theorem setStates_enabled (calls : List Bool) :
    (r.setStates calls).isenabled = calls.getLastD r.enabled := by
  induction calls using List.reverseRecOn with
  | nil => rfl
  | append_singleton calls s => rw [setStates_concat, setState_eq]; simp [isenabled]

/-- Without a connection no command leaves. -/
theorem setStates_issued_of_not_connected (h : r.connected = false) (calls : List Bool) :
    (r.setStates calls).issued = r.issued := by
  induction calls using List.reverseRecOn with
  | nil => rfl
  | append_singleton calls s ih =>
    have hc : (r.setStates calls).connected = false := (setStates_connected calls).trans h
    rw [setStates_concat, setState_eq, hc]
    simpa using ih

theorem Recorded.setState (h : r.connected = true) : (r.setState s).Recorded := by
  rw [setState_eq, h]
  simp [Recorded, isenabled, enables_command]

/-- With a connection, one call is enough to record the state. -/
theorem recorded_setStates (h : r.connected = true) {calls : List Bool}
    (h₀ : calls ≠ [] ∨ r.Recorded) : (r.setStates calls).Recorded := by
  rcases List.eq_nil_or_concat calls with rfl | ⟨l, s, rfl⟩
  · rcases h₀ with h₀ | h₀
    · exact absurd rfl h₀
    · exact h₀
  · rw [List.concat_eq_append, setStates_concat]
    exact .setState ((setStates_connected l).trans h)

/-- As long as no command has left, a true record is wrong. -/
theorem recorded_iff_of_issued_nil (h : r.issued = []) : r.Recorded ↔ r.isenabled = false := by
  simp [Recorded, h]

theorem recorded_ofDevice {uninitialized : Bool} : (ofDevice true uninitialized).Recorded := by
  simp [Recorded, ofDevice, put, issue, isenabled, NoiseCommand.enables]

/-- After every construction and every sequence of calls: the record is right if and only if the
device was opened, or the GPIO is used and has been set once, or the record says that the noise is
off. -/
theorem isenabled_recorded_iff (control : NoiseControl) (uninitialized : Bool) (calls : List Bool) :
    ((control.construct uninitialized).setStates calls).Recorded ↔
      control = .device true ∨ control = .refDev ∧ calls ≠ [] ∨
        calls.getLastD uninitialized = false := by
  cases control with
  | device good =>
    cases good with
    | true => exact iff_of_true (recorded_setStates rfl (.inr recorded_ofDevice)) (.inl rfl)
    | false =>
      have hnil := setStates_issued_of_not_connected (r := ofDevice false uninitialized) rfl calls
      have henabled := setStates_enabled (r := ofDevice false uninitialized) calls
      rw [NoiseControl.construct, recorded_iff_of_issued_nil hnil, henabled]
      simp [ofDevice]
  | refDev =>
    by_cases hcalls : calls = []
    · subst hcalls
      simp [NoiseControl.construct, setStates, recorded_iff_of_issued_nil, ofRefDev, isenabled]
    · exact iff_of_true (recorded_setStates rfl (.inl hcalls)) (.inr (.inl ⟨rfl, hcalls⟩))

/-- A KrakenSDR whose uninitialized member is true: the noise is recorded as enabled before any
command. -/
theorem not_isenabled_recorded :
    ¬ ∀ (control : NoiseControl) (uninitialized : Bool) (calls : List Bool),
      ((control.construct uninitialized).setStates calls).Recorded := by
  intro h
  have := (recorded_iff_of_issued_nil rfl).mp (h .refDev true [])
  cases this

end Crefnoise
end Aegir
