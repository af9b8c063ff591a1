import Mathlib

/-!
# Runs of a guarded step function

A system is a partial step function `step : σ → α → Option σ`: `step s a = none` says that the
action `a` is not enabled in `s` (a thread that waits, a call that another thread excludes).
`Run step ok s₀ tr s` is a run that performs the actions `tr` in order and takes every one of
them in a state where the guard `ok` allows it. Runs grow at the end, so that an invariant may
speak of the actions performed so far (`Run.history`).
-/

namespace Aegir

/-- Performing the actions `tr` from `s₀` leads to `s`, every action taken where `ok` allows. -/
inductive Run {σ α : Type*} (step : σ → α → Option σ) (ok : σ → α → Prop) (s₀ : σ) :
    List α → σ → Prop
  | nil : Run step ok s₀ [] s₀
  | snoc : Run step ok s₀ tr s → ok s a → step s a = some s' → Run step ok s₀ (tr ++ [a]) s'

variable {σ α : Type*}

/-- The guard that allows every action. -/
def anyStep (_ : σ) (_ : α) : Prop := True

/-- Run a list of actions, stopping at the first that is not enabled or not allowed. -/
def exec (step : σ → α → Option σ) (ok : σ → α → Prop) [∀ s a, Decidable (ok s a)] :
    σ → List α → Option σ
  | s, [] => some s
  | s, a :: tr => if ok s a then (step s a).bind (exec step ok · tr) else none

instance (s : σ) (a : α) : Decidable (anyStep s a) := .isTrue trivial

namespace Run

variable {step : σ → α → Option σ} {ok ok' : σ → α → Prop} {s₀ s s' : σ} {tr tr' : List α} {a : α}

/-- A property of the first state that every allowed step preserves holds after every run. -/
theorem invariant {I : σ → Prop} (h₀ : I s₀)
    (hstep : ∀ s a s', I s → ok s a → step s a = some s' → I s')
    (h : Run step ok s₀ tr s) : I s := by
  induction h with
  | nil => exact h₀
  | snoc _ hok hs ih => exact hstep _ _ _ ih hok hs

/-- The invariant rule for a property of the state and the actions performed so far. -/
theorem history {I : List α → σ → Prop} (h₀ : I [] s₀)
    (hstep : ∀ tr s a s', I tr s → ok s a → step s a = some s' → I (tr ++ [a]) s')
    (h : Run step ok s₀ tr s) : I tr s := by
  induction h with
  | nil => exact h₀
  | snoc _ hok hs ih => exact hstep _ _ _ _ ih hok hs

theorem mono (hok : ∀ s a, ok s a → ok' s a) (h : Run step ok s₀ tr s) :
    Run step ok' s₀ tr s := by
  induction h with
  | nil => exact .nil
  | snoc _ h hs ih => exact .snoc ih (hok _ _ h) hs

theorem append (h : Run step ok s₀ tr s) (h' : Run step ok s tr' s') :
    Run step ok s₀ (tr ++ tr') s' := by
  induction h' with
  | nil => simpa using h
  | snoc _ hok hs ih => rw [← List.append_assoc]; exact .snoc ih hok hs

theorem head (hok : ok s₀ a) (hs : step s₀ a = some s) (h : Run step ok s tr s') :
    Run step ok s₀ (a :: tr) s' :=
  have h₁ : Run step ok s₀ [a] s := .snoc .nil hok hs
  h₁.append h

/-- A run begins with a run of the first actions. -/
theorem split (h : Run step ok s₀ (tr ++ tr') s) :
    ∃ s₁, Run step ok s₀ tr s₁ ∧ Run step ok s₁ tr' s := by
  generalize hall : tr ++ tr' = l at h
  induction h generalizing tr' with
  | nil =>
    obtain ⟨rfl, rfl⟩ := List.append_eq_nil_iff.mp hall
    exact ⟨s₀, .nil, .nil⟩
  | @snoc l s a s' h hok hs ih =>
    rcases List.eq_nil_or_concat tr' with rfl | ⟨tr', a', rfl⟩
    · rw [List.append_nil] at hall
      subst hall
      exact ⟨s', h.snoc hok hs, .nil⟩
    · rw [List.concat_eq_append, ← List.append_assoc] at hall
      obtain ⟨rfl, hlast⟩ := List.append_inj' hall rfl
      cases hlast
      obtain ⟨s₁, h₁, h₂⟩ := ih rfl
      exact ⟨s₁, h₁, by rw [List.concat_eq_append]; exact h₂.snoc hok hs⟩

/-- A run of no actions stays. -/
theorem eq_of_nil (h : Run step ok s₀ [] s) : s = s₀ := by
  generalize hnil : ([] : List α) = l at h
  cases h with
  | nil => rfl
  | snoc => simp at hnil

theorem singleton_iff : Run step ok s₀ [a] s ↔ ok s₀ a ∧ step s₀ a = some s := by
  constructor
  · intro h
    generalize hone : [a] = l at h
    cases h with
    | nil => cases hone
    | @snoc l s₁ a' s h hok hs =>
      have hone : [] ++ [a] = l ++ [a'] := hone
      obtain ⟨rfl, hlast⟩ := List.append_inj' hone rfl
      cases hlast
      cases eq_of_nil h
      exact ⟨hok, hs⟩
  · rintro ⟨hok, hs⟩
    exact .snoc .nil hok hs

/-- The actions determine the state. -/
theorem unique (h : Run step ok s₀ tr s) (h' : Run step ok' s₀ tr s') : s = s' := by
  induction h generalizing s' with
  | nil => exact (eq_of_nil h').symm
  | snoc _ _ hs ih =>
    obtain ⟨s₂, h₂, hlast⟩ := split h'
    cases ih h₂
    exact Option.some_injective _ (hs.symm.trans (singleton_iff.mp hlast).2)

/-- The invariant rule where another property holds after every run. -/
theorem invariant_of {I J : σ → Prop} (hJ : ∀ tr s, Run step ok s₀ tr s → J s) (h₀ : I s₀)
    (hstep : ∀ s a s', J s → J s' → I s → ok s a → step s a = some s' → I s')
    (h : Run step ok s₀ tr s) : I s := by
  induction h with
  | nil => exact h₀
  | snoc h hok hs ih => exact hstep _ _ _ (hJ _ _ h) (hJ _ _ (.snoc h hok hs)) ih hok hs

/-- A guard gives way to one that it implies in the states of the run. -/
theorem mono_of {I : σ → Prop} (h₀ : I s₀)
    (hstep : ∀ s a s', I s → ok s a → step s a = some s' → I s')
    (hok : ∀ s a, I s → ok s a → ok' s a) (h : Run step ok s₀ tr s) : Run step ok' s₀ tr s := by
  induction h with
  | nil => exact .nil
  | snoc h h' hs ih => exact ih.snoc (hok _ _ (h.invariant h₀ hstep) h') hs

/-- A run of a system is a run of a part of it, when each step either is a step of the part or leaves
it alone. -/
theorem project {τ β : Type*} {step₂ : τ → β → Option τ} {ok₂ : τ → β → Prop} (f : σ → τ)
    (hstep : ∀ s a s', ok s a → step s a = some s' →
      f s' = f s ∨ ∃ b, ok₂ (f s) b ∧ step₂ (f s) b = some (f s'))
    (h : Run step ok s₀ tr s) : ∃ tr₂, Run step₂ ok₂ (f s₀) tr₂ (f s) := by
  induction h with
  | nil => exact ⟨[], .nil⟩
  | snoc _ hok hs ih =>
    obtain ⟨tr₂, ih⟩ := ih
    rcases hstep _ _ _ hok hs with heq | ⟨b, hb, hs₂⟩
    · exact ⟨tr₂, heq ▸ ih⟩
    · exact ⟨tr₂ ++ [b], ih.snoc hb hs₂⟩

/-- A relation that every step keeps carries a run over to another system, action by action. -/
theorem simulate {τ : Type*} {step₂ : τ → α → Option τ} {ok₂ : τ → α → Prop} {R : σ → τ → Prop} {t₀ : τ}
    (h₀ : R s₀ t₀)
    (hstep : ∀ s t a s', R s t → ok s a → step s a = some s' →
      ∃ t', ok₂ t a ∧ step₂ t a = some t' ∧ R s' t')
    (h : Run step ok s₀ tr s) : ∃ t, Run step₂ ok₂ t₀ tr t ∧ R s t := by
  induction h with
  | nil => exact ⟨t₀, .nil, h₀⟩
  | snoc _ hok hs ih =>
    obtain ⟨t, ht, hR⟩ := ih
    obtain ⟨t', hok₂, hs₂, hR'⟩ := hstep _ _ _ _ hR hok hs
    exact ⟨t', ht.snoc hok₂ hs₂, hR'⟩

theorem of_exec [∀ s a, Decidable (ok s a)] (h : exec step ok s₀ tr = some s) :
    Run step ok s₀ tr s := by
  induction tr generalizing s₀ with
  | nil => cases h; exact .nil
  | cons a tr ih =>
    simp only [exec] at h
    split at h
    · rename_i hok
      obtain ⟨s₁, hs, h⟩ := Option.bind_eq_some_iff.mp h
      exact head hok hs (ih h)
    · cases h

/-- A run to a state with a property that evaluation decides. -/
theorem exists_of_exec (step : σ → α → Option σ) (ok : σ → α → Prop)
    [∀ s a, Decidable (ok s a)] (s₀ : σ) (tr : List α) (p : σ → Bool)
    (h : (exec step ok s₀ tr).any p = true) : ∃ s, Run step ok s₀ tr s ∧ p s = true := by
  cases hs : exec step ok s₀ tr with
  | none => simp [hs] at h
  | some s => exact ⟨s, of_exec hs, by simpa [hs] using h⟩

end Run

/-! ## Observers -/

section
variable {η : Type*} {step : σ → α → Option σ} {ok : σ → α → Prop} {obs : σ → α → σ → η → η}

/-- The steps with an observer beside them, who notes down what each step does: the state before it,
the action, the state after it. -/
def observed (step : σ → α → Option σ) (obs : σ → α → σ → η → η) (p : σ × η) (a : α) :
    Option (σ × η) :=
  (step p.1 a).map fun s' => (s', obs p.1 a s' p.2)

theorem observed_eq_some {p p' : σ × η} {a : α} :
    observed step obs p a = some p' ↔ step p.1 a = some p'.1 ∧ p'.2 = obs p.1 a p'.1 p.2 := by
  obtain ⟨s', h'⟩ := p'
  simp only [observed, Option.map_eq_some_iff, Prod.mk.injEq]
  constructor
  · rintro ⟨s, hs, rfl, rfl⟩
    exact ⟨hs, rfl⟩
  · rintro ⟨hs, rfl⟩
    exact ⟨s', hs, rfl, rfl⟩

/-- An observer does not act. -/
theorem Run.of_observed {p₀ p : σ × η} {tr : List α}
    (h : Run (observed step obs) (fun p a => ok p.1 a) p₀ tr p) : Run step ok p₀.1 tr p.1 := by
  induction h with
  | nil => exact .nil
  | snoc _ hok hs ih => exact .snoc ih hok (observed_eq_some.mp hs).1

/-- Every run can be observed. -/
theorem Run.observed {s₀ s : σ} {tr : List α} (h : Run step ok s₀ tr s) (h₀ : η) :
    ∃ h', Run (Aegir.observed step obs) (fun p a => ok p.1 a) (s₀, h₀) tr (s, h') := by
  induction h with
  | nil => exact ⟨h₀, .nil⟩
  | @snoc tr s a s' _ hok hs ih =>
    obtain ⟨h', ih⟩ := ih
    exact ⟨obs s a s' h', ih.snoc hok (observed_eq_some.mpr ⟨hs, rfl⟩)⟩

end
end Aegir
