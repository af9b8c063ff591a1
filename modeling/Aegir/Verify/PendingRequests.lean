import Aegir.Verify.Controller
import Aegir.Verify.LagRequests

/-!
# A controller that waits for a lag gets one

The corrections of the controller and its exit leave the flags of a request to the steps that these
take, but for `synced`, so that an invariant of the flags holds in every run of the controller
(`flags_invariant`). Where no request is taken back that a thread has made (`RequestsStand`), every wait
in `requestfftblocking` therefore ends after at most one more answer of the coherent thread, and a
controller that has been asked to exit is never stuck (`returns_of_run`).
-/

namespace Aegir

variable {L K : Type*} {big : L → Bool}

namespace SyncState

variable {s : SyncState L}

/-- What the coherent thread does to answer a request. -/
def answer (lag : L) : List (SyncAction L) := [.test, .storeLag lag, .setReady, .setRequested]

theorem ofController_of_answer {a : SyncAction L} {lag : L} (h : a ∈ answer lag) :
    a.ofController = false := by
  simp only [answer, List.mem_cons, List.not_mem_nil, or_false] at h
  rcases h with rfl | rfl | rfl | rfl <;> rfl

/-- A pending request is answered, from wherever the coherent thread stands. -/
theorem RequestInv.exists_answer (big : L → Bool) (hi : RequestInv s)
    (hnext : s.coherent = .readied → s.lagready = true) (lag : L) :
    ∃ tr t, tr <:+ answer lag ∧ Run (SyncState.step big) anyStep s tr t ∧
      t.req = s.req ∧ t.coherent ≠ .readied ∧ t.lagready = true := by
  let done : SyncState L :=
    { s with lagp := lag, lagready := true, lagrequested := false, coherent := .idle }
  cases hc : s.coherent with
  | idle =>
    cases hr : s.lagready with
    | true => exact ⟨[], s, List.nil_suffix, .nil, rfl, by simp [hc], hr⟩
    | false =>
      -- nothing has been computed for the requester yet, but the request stands
      have hq := hi.pending hr
      exact ⟨answer lag, done, List.suffix_refl _,
        Run.of_exec (by simp [exec, answer, SyncState.step, anyStep, hc, hq, done]), rfl, by simp [done], rfl⟩
  | queued =>
    exact ⟨(answer lag).drop 1, done, List.drop_suffix _ _,
      Run.of_exec (by simp [exec, answer, SyncState.step, anyStep, hc, done]), rfl, by simp [done], rfl⟩
  | stored =>
    exact ⟨(answer lag).drop 2, { done with lagp := s.lagp }, List.drop_suffix _ _,
      Run.of_exec (by simp [exec, answer, SyncState.step, anyStep, hc, done]), rfl, by simp [done], rfl⟩
  | readied =>
    have hr := hnext hc
    exact ⟨(answer lag).drop 3, { s with lagrequested := false, coherent := .idle },
      List.drop_suffix _ _, Run.of_exec (by simp [exec, answer, SyncState.step, anyStep, hc]), rfl,
      by simp, hr⟩

end SyncState

namespace ControllerState

open SyncState

/-- What a step does to the flags meets the guard `ok`. -/
def OnFlags (ok : SyncState L → SyncAction L → Prop) (s : ControllerState L K) :
    ControllerAction L → Prop
  | .sync a => ok s.sync a
  | .setCorrection _ => s.pc = .resetting → ok s.sync .correct
  | .synchronize => ok s.sync .synchronize
  | .loopTest | .wakeUp | .exit => True

instance (ok : SyncState L → SyncAction L → Prop) [∀ s a, Decidable (ok s a)]
    (s : ControllerState L K) (a : ControllerAction L) : Decidable (OnFlags ok s a) :=
  match a with
  | .sync a => inferInstanceAs (Decidable (ok s.sync a))
  | .setCorrection _ => inferInstanceAs (Decidable (s.pc = .resetting → ok s.sync .correct))
  | .synchronize => inferInstanceAs (Decidable (ok s.sync .synchronize))
  | .loopTest | .wakeUp | .exit => .isTrue trivial

variable [Zero K] {rate : L → K} {s : ControllerState L K} {tr : List (ControllerAction L)}

/-- What the steps of the flags preserve, and the exit of the controller too, holds in every run. -/
theorem flags_invariant {ok : SyncState L → SyncAction L → Prop} {I : SyncState L → Prop} {lag : L}
    (h₀ : I (.init lag)) (hstep : ∀ s a t, I s → ok s a → s.step big a = some t → I t)
    (hexit : ∀ s, I s → I { s with synced := false })
    (h : Run (step big rate) (OnFlags ok) (init lag) tr s) : I s.sync := by
  refine h.invariant (I := fun s => I s.sync) h₀ fun s a s' hi hok hs => ?_
  cases step_cases hs with
  | sync _ _ ht => exact hstep _ _ _ hi hok ht
  | reset accepted hp ht => exact hstep _ _ _ hi (hok hp) ht
  | synchronize _ ht => exact hstep _ _ _ hi hok ht
  | correct | small => simpa using hi
  | desynchronize => exact hexit _ hi
  | loopTest | wakeUp | storeDoExit | storeDevExit => exact hi

/-- The steps of the other threads do not wait for the controller. -/
theorem run_of_flags {tr : List (SyncAction L)} {t : SyncState L}
    (htr : ∀ a ∈ tr, a.ofController = false) (h : Run (SyncState.step big) anyStep s.sync tr t) :
    Run (step big rate) anyStep s (tr.map .sync) { s with sync := t } := by
  induction h with
  | nil => exact .nil
  | @snoc tr t a t' _ _ hs ih =>
    have ha : a.ofController = false := htr a (by simp)
    have hbody : a.endsBody = false := by cases a <;> first | rfl | cases ha
    have hpc : ∀ u : ControllerState L K, u.afterSync a = u.pc := by
      cases a <;> first | exact fun _ => rfl | cases ha
    rw [List.map_append]
    refine (ih fun b hb => htr b (by simp [hb])).snoc trivial ?_
    simp [step, syncStep, ha, hbody, hs, hpc]

omit [Zero K] in
theorem Controls.body_of_req (h : Controls big s) (hr : s.sync.req .controller ≠ .out) :
    s.pc = .body := by
  have hc := h.request hr
  cases hp : s.pc with
  | body => rfl
  | test => exact nomatch hc.symm.trans (h.outside (.inl hp))
  | finished => exact nomatch hc.symm.trans (h.outside (.inr hp))
  | sleeping =>
    obtain ⟨lag, hb, -⟩ := h.correcting (.inl hp)
    exact nomatch hc.symm.trans hb
  | resetting =>
    obtain ⟨lag, hb, -⟩ := h.correcting (.inr hp)
    exact nomatch hc.symm.trans hb
  | synchronizing =>
    obtain ⟨lag, hb, -⟩ := h.synchronizing hp
    exact nomatch hc.symm.trans hb

/-- A thread that waits for a lag returns when there is one. -/
theorem Controls.ret_isSome (h : Controls big s) {c : Caller}
    (hw : s.sync.req c = .cleared ∨ s.sync.req c = .blocked) (hc : s.sync.coherent ≠ .readied)
    (hr : s.sync.lagready = true) : (s.step big rate (.sync (.ret c))).isSome := by
  have hbody : (SyncAction.ret c : SyncAction L).ofController = true → s.pc = .body := fun hc => by
    obtain rfl : c = .controller := of_decide_eq_true hc
    exact h.body_of_req (by rcases hw with hw | hw <;> simp [hw])
  simpa [ControllerState.step, syncStep, SyncAction.endsBody, SyncState.step, hw, hc, hr] using hbody

/-- When no request is taken back that a thread has made or waits for, what is left of one answer of
the coherent thread brings every thread that waits for a lag to where it can return; and it brings a
controller that has been asked to exit to where it can move, if it has not come to its end. -/
theorem returns_of_run {lag₀ : L} (h : Run (step big rate) (OnFlags RequestsStand) (init lag₀) tr s)
    (hnext : s.sync.coherent = .readied → s.sync.lagready = true) (lag : L) :
    ∃ tr' s', tr' <:+ answer lag ∧ Run (step big rate) anyStep s (tr'.map .sync) s' ∧
      (∀ c, s.sync.req c = .cleared ∨ s.sync.req c = .blocked →
        (s'.step big rate (.sync (.ret c))).isSome) ∧
      (s.exit = .desynchronized ∨ s.exit = .done → s.pc = .finished ∨ CanMove big rate s') := by
  have hi : RequestInv s.sync := flags_invariant (.init lag₀) (fun _ _ _ hi hok hs => hi.step hok hs)
    (fun _ hi => ⟨hi.pending, hi.made⟩) h
  obtain ⟨tr', t, hsuffix, hrun, hreq, hcoherent, hready⟩ := hi.exists_answer big hnext lag
  have hrun' : Run (step big rate) anyStep s (tr'.map .sync) { s with sync := t } :=
    run_of_flags (fun a ha => ofController_of_answer (hsuffix.subset ha)) hrun
  have hctl : Controls big { s with sync := t } :=
    controls_of_run ((h.mono fun _ _ _ => trivial).append hrun')
  refine ⟨tr', _, hsuffix, hrun', fun c hw => hctl.ret_isSome (hreq ▸ hw) hcoherent hready, fun he => ?_⟩
  rcases hctl.progress rate he with hfin | hmove | ⟨-, -, hawait | hawait⟩
  · exact .inl hfin
  · exact .inr hmove
  · exact absurd hawait hcoherent
  · exact nomatch hawait.symm.trans hready

/-- The controller waits for its first lag when `main` asks it to exit. -/
def waitTrace : List (ControllerAction Int) :=
  .loopTest :: pendingTrace.map .sync ++ [.exit, .exit]

theorem returns_of_run_waiting :
    ∃ s : ControllerState Int Int,
      Run (step exceeds id) (OnFlags RequestsStand) (init 0) waitTrace s ∧
      s.sync.req .controller = .blocked ∧ s.sync.lagready = false ∧
      ∃ tr' s', tr' <:+ answer 3 ∧ Run (step exceeds id) anyStep s (tr'.map .sync) s' ∧
        (∀ c, s.sync.req c = .cleared ∨ s.sync.req c = .blocked →
          (s'.step exceeds id (.sync (.ret c))).isSome) ∧
        (s.exit = .desynchronized ∨ s.exit = .done → s.pc = .finished ∨ CanMove exceeds id s') := by
  obtain ⟨s, h, hs⟩ := Run.exists_of_exec (step (L := Int) (K := Int) exceeds id)
    (OnFlags RequestsStand) (init 0) waitTrace
    (fun s => s.sync.req .controller = .blocked ∧ s.sync.lagready = false ∧ s.sync.coherent = .idle)
    (by decide +kernel)
  obtain ⟨hb, hr, hc⟩ := of_decide_eq_true hs
  exact ⟨s, h, hb, hr, returns_of_run h (by simp [hc]) 3⟩

end ControllerState
end Aegir
