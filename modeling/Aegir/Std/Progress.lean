import Aegir.Std.Run

/-!
# How many steps a run can take

A potential that some of the actions lower, and no action raises, bounds how often those actions occur in
a run (`Run.countP_le`).
-/

namespace Aegir.Run

variable {σ α : Type*} {step : σ → α → Option σ} {ok : σ → α → Prop} {s₀ s : σ} {tr : List α}

/-- The actions that `p` counts are paid for by the potential `Φ`. -/
theorem countP_le {p : α → Bool} (Φ : σ → ℤ) {I : σ → Prop} (h₀ : I s₀)
    (hstep : ∀ s a s', I s → ok s a → step s a = some s' →
      I s' ∧ Φ s' + (if p a then 1 else 0) ≤ Φ s)
    (h : Run step ok s₀ tr s) : tr.countP p + Φ s ≤ Φ s₀ := by
  have hall : I s ∧ tr.countP p + Φ s ≤ Φ s₀ := by
    refine h.history (I := fun tr s => I s ∧ tr.countP p + Φ s ≤ Φ s₀) ⟨h₀, by simp⟩ ?_
    intro tr s a s' ⟨hi, hle⟩ hok hs
    obtain ⟨hi', hpay⟩ := hstep s a s' hi hok hs
    refine ⟨hi', ?_⟩
    rw [List.countP_append, List.countP_singleton, Nat.cast_add, Nat.cast_ite]
    push_cast
    linarith
  exact hall.2

end Aegir.Run
