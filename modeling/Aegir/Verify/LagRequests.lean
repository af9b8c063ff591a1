import Aegir.Model.Sync

/-!
# A blocked request is pending

`requestfftblocking` stores `lagrequested` before it clears `lagready`, and `set_lag` stores both
without regard to a requester that is between its two stores. When `set_lag` takes back the request
(`setRequested`) only while `lagready` is still true and no requester is there, a blocked requester
always has its request pending (`blocked_of_run`).
-/

namespace Aegir.SyncState

variable {L : Type*} {big : L → Bool} {s s' : SyncState L}

/-- `set_lag` stores `lagrequested = false` only while the `lagready` that it has just stored is still
true and no thread stands between the two stores of `requestfftblocking`. -/
def RequestsStand (s : SyncState L) : SyncAction L → Prop
  | .setRequested => s.lagready = true ∧ ∀ c, s.req c ≠ .requested
  | _ => True

instance (p : Caller → Prop) [DecidablePred p] : Decidable (∀ c, p c) :=
  decidable_of_iff (p .controller ∧ p .console)
    ⟨fun ⟨h₁, h₂⟩ c => by cases c <;> assumption, fun h => ⟨h _, h _⟩⟩

instance (a : SyncAction L) : Decidable (RequestsStand s a) :=
  match a with
  | .setRequested => inferInstanceAs (Decidable (_ ∧ ∀ c, s.req c ≠ _))
  | .wake | .retest | .request _ | .clearReady _ | .block _ | .ret _ | .readLag | .correct
  | .synchronize | .clear | .test | .storeLag _ | .setReady => .isTrue trivial

/-- Without a lag to fetch, the request is pending, and so is one that is being made. -/
structure RequestInv (s : SyncState L) : Prop where
  pending : s.lagready = false → s.lagrequested = true
  made : ∀ c, s.req c = .requested → s.lagrequested = true

/-- What a step can do to the flags of a request. -/
theorem step_request_flags {a : SyncAction L} (h : s.step big a = some s') :
    (s'.lagrequested = s.lagrequested ∨ s'.lagrequested = true ∨ a = .setRequested) ∧
      (s'.lagready = s.lagready ∨ s'.lagready = true ∨
        ∃ c, a = .clearReady c ∧ s.req c = .requested ∧ s'.lagrequested = s.lagrequested) ∧
      ∀ c, s'.req c = .requested → s.req c = .requested ∨ s'.lagrequested = true := by
  have hreq : ∀ {c c' : Caller} {pc : ReqPc}, pc ≠ .requested →
      Function.update s.req c pc c' = .requested → s.req c' = .requested := by
    intro c c' pc hne h
    by_cases hc : c' = c
    · subst hc; rw [Function.update_self] at h; exact absurd h hne
    · rwa [Function.update_of_ne hc] at h
  cases a <;> simp only [step] at h
  case request c =>
    split at h <;> cases h
    exact ⟨.inr (.inl rfl), .inl rfl, fun _ _ => .inr rfl⟩
  case clearReady c =>
    split at h <;> cases h
    exact ⟨.inl rfl, .inr (.inr ⟨c, rfl, ‹_›, rfl⟩), fun _ h => .inl (hreq (by decide) h)⟩
  case block c =>
    split at h <;> cases h
    exact ⟨.inl rfl, .inl rfl, fun _ h => .inl (hreq (by decide) h)⟩
  case ret c =>
    split at h <;> cases h
    exact ⟨.inl rfl, .inl rfl, fun _ h => .inl (hreq (by decide) h)⟩
  case setReady =>
    split at h <;> cases h
    exact ⟨.inl rfl, .inr (.inl rfl), fun _ h => .inl h⟩
  case setRequested =>
    split at h <;> cases h
    exact ⟨.inr (.inr rfl), .inl rfl, fun _ h => .inl h⟩
  all_goals
    (repeat' split at h) <;> cases h <;> exact ⟨.inl rfl, .inl rfl, fun _ h => .inl h⟩

theorem RequestInv.init (lag : L) : RequestInv (init lag) where
  pending _ := rfl
  made _ := nofun

theorem RequestInv.step {a : SyncAction L} (hi : RequestInv s) (hok : RequestsStand s a)
    (h : s.step big a = some s') : RequestInv s' := by
  obtain ⟨hrequested, hready, hmade⟩ := step_request_flags h
  have hstay : (s.lagrequested = true → s'.lagrequested = true) ∨
      (a = .setRequested ∧ s'.lagrequested = false) := by
    rcases hrequested with h | h | h
    · exact .inl fun h' => h ▸ h'
    · exact .inl fun _ => h
    · cases hs : s'.lagrequested with
      | true => exact .inl fun _ => rfl
      | false => exact .inr ⟨h, rfl⟩
  rcases hstay with hstay | ⟨rfl, hfalse⟩
  · refine ⟨fun hr => ?_, fun c hc => ?_⟩
    · rcases hready with h | h | ⟨c, -, hc, -⟩
      · exact hstay (hi.pending (h ▸ hr))
      · exact absurd hr (by simp [h])
      · exact hstay (hi.made c hc)
    · rcases hmade c hc with h | h
      · exact hstay (hi.made c h)
      · exact h
  · -- the request is taken back: the guard says that nothing waits for it
    obtain ⟨htrue, hnone⟩ := hok
    refine ⟨fun hr => ?_, fun c hc => ?_⟩
    · rcases hready with h | h | ⟨c, h, -⟩
      · simp [h, htrue] at hr
      · simp [h] at hr
      · cases h
    · rcases hmade c hc with h | h
      · exact absurd h (hnone c)
      · exact h

/-- When no request is taken back that a thread has made or waits for, every blocked thread has its
request pending. -/
theorem blocked_of_run {lag : L} {tr : List (SyncAction L)}
    (h : Run (SyncState.step big) RequestsStand (SyncState.init lag) tr s) :
    ∀ c, s.req c = .blocked → s.lagready = false → s.lagrequested = true := by
  have hi : RequestInv s := h.invariant (.init lag) fun _ _ _ hi hok hs => hi.step hok hs
  exact fun _ _ => hi.pending

/-- The controller asks for a lag, and waits for it before the coherent thread has tested the flag. -/
def pendingTrace : List (SyncAction Int) :=
  [.wake, .retest, .request .controller, .clearReady .controller, .block .controller]

theorem blocked_pendingTrace :
    ∃ s, Run (SyncState.step exceeds) RequestsStand (SyncState.init 0) pendingTrace s ∧
      s.req .controller = .blocked ∧ s.lagready = false ∧
      ∀ c, s.req c = .blocked → s.lagready = false → s.lagrequested = true := by
  obtain ⟨s, hrun, hs⟩ := Run.exists_of_exec (SyncState.step exceeds) RequestsStand (SyncState.init 0)
    pendingTrace (fun s => s.req .controller = .blocked ∧ s.lagready = false) (by decide)
  obtain ⟨hb, hr⟩ := of_decide_eq_true hs
  exact ⟨s, hrun, hb, hr, blocked_of_run hrun⟩

/-- The coherent thread answers the request of the constructor while the controller makes its first
one: `set_lag` stores both of its flags between the two stores of `requestfftblocking`. -/
def forgottenTrace : List (SyncAction Int) :=
  [.test, .wake, .retest, .request .controller, .storeLag 0, .setReady, .setRequested,
    .clearReady .controller, .block .controller]

/-- The controller is blocked, and nothing asks the coherent thread to wake it up. -/
theorem not_blocked_requested :
    ¬ ∀ (L : Type) (big : L → Bool) (lag : L) (tr : List (SyncAction L)) (s : SyncState L),
      Run (SyncState.step big) anyStep (SyncState.init lag) tr s →
      ∀ c, s.req c = .blocked → s.lagready = false → s.lagrequested = true := by
  intro hclaim
  obtain ⟨s, hrun, hs⟩ := Run.exists_of_exec (SyncState.step exceeds) anyStep (SyncState.init 0)
    forgottenTrace
    (fun s => s.req .controller = .blocked ∧ s.lagready = false ∧ s.lagrequested = false) (by decide)
  obtain ⟨hb, hr, hf⟩ := of_decide_eq_true hs
  have := hclaim Int exceeds 0 forgottenTrace s hrun .controller hb hr
  simp [hf] at this

end Aegir.SyncState
