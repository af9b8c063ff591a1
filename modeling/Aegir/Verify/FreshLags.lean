import Aegir.Model.Measure
import Aegir.Verify.LagRequests

/-!
# Whether a request gets a lag of its own

`set_lag` answers whoever waits, with the samples that were queued when `lagrequested` was tested. A
call of `requestfftblocking` that clears `lagready` while the device is in the queue with samples from
before the call gets the lag of these samples (`exists_stale_ret`); if no call does, the lag of every
call that returns is computed from samples queued after the call began (`fresh_of_run`).
-/

namespace Aegir

/-! ## The flags -/

namespace SyncState

variable {L : Type*} {big : L → Bool} {s s' : SyncState L}

/-- What a step other than the test can do to `lagready` and to the positions of the callers and the
coherent thread. -/
inductive FlagStep (s : SyncState L) : SyncAction L → SyncState L → Prop
  | request {c t} : t.req = Function.update s.req c .requested → t.coherent = s.coherent →
      t.lagready = s.lagready → FlagStep s (.request c) t
  | clearReady {c t} : s.req c = .requested → t.req = Function.update s.req c .cleared →
      t.coherent = s.coherent → t.lagready = false → FlagStep s (.clearReady c) t
  | block {c t} : s.req c = .cleared → t.req = Function.update s.req c .blocked →
      t.coherent = s.coherent → t.lagready = s.lagready → FlagStep s (.block c) t
  | ret {c t} : s.req c = .cleared ∨ s.req c = .blocked → s.lagready = true →
      t.req = Function.update s.req c .out → t.coherent = s.coherent →
      t.lagready = s.lagready → FlagStep s (.ret c) t
  | storeLag {lag t} : s.coherent = .queued → t.coherent = .stored → t.req = s.req →
      t.lagready = s.lagready → FlagStep s (.storeLag lag) t
  | setReady {t} : s.coherent = .stored → t.coherent = .readied → t.req = s.req →
      FlagStep s .setReady t
  | setRequested {t} : s.coherent = .readied → t.coherent = .idle → t.req = s.req →
      t.lagready = s.lagready → FlagStep s .setRequested t
  | other {a t} : (∀ c, a ≠ .request c) → (∀ lag, a ≠ .storeLag lag) → a ≠ .setRequested →
      t.req = s.req → t.coherent = s.coherent → t.lagready = s.lagready → FlagStep s a t

theorem flagStep {a : SyncAction L} (hne : a ≠ .test) (h : s.step big a = some s') :
    FlagStep s a s' := by
  cases a <;> simp only [step] at h
  case test => exact absurd rfl hne
  case request c =>
    split at h <;> cases h
    exact .request rfl rfl rfl
  case clearReady c =>
    split at h <;> cases h
    exact .clearReady ‹_› rfl rfl rfl
  case block c =>
    split at h <;> cases h
    next hc => exact .block hc.1 rfl rfl rfl
  case ret c =>
    split at h <;> cases h
    next hc => exact .ret hc.1 hc.2.2 rfl rfl rfl
  case storeLag lag =>
    split at h <;> cases h
    exact .storeLag ‹_› rfl rfl rfl
  case setReady =>
    split at h <;> cases h
    exact .setReady ‹_› rfl rfl
  case setRequested =>
    split at h <;> cases h
    exact .setRequested ‹_› rfl rfl rfl
  all_goals
    (repeat' split at h) <;> cases h <;> exact .other (by simp) (by simp) (by simp) rfl rfl rfl

end SyncState

namespace MeasureState

variable {L : Type*} {big : L → Bool} {s s' : MeasureState L}

/-! ## The flags without the history -/

/-- Between the test and `queuelag` the coherent thread has done nothing else, and the request
stands. -/
def TestedIdle (s : MeasureState L) : Prop :=
  s.tested = true → s.sync.coherent = .idle ∧ s.sync.lagrequested = true

theorem TestedIdle.step {a : MeasureAction L} (hi : s.TestedIdle) (h : s.step big a = some s') :
    s'.TestedIdle := by
  cases stepped h with
  | test hidle => exact fun hrequested => ⟨hidle, hrequested⟩
  | queue | full => exact fun h => by cases h
  | @sync a t hne ht =>
    intro htested
    have htested : (s.record a).tested = true := htested
    rw [record_tested] at htested
    obtain ⟨hidle, hrequested⟩ := hi htested
    have hcoherent : t.coherent = .idle := by
      cases SyncState.flagStep hne ht with
      | request _ hcoherent | clearReady _ _ hcoherent | block _ _ hcoherent | ret _ _ _ hcoherent
      | other _ _ _ _ hcoherent => exact hcoherent.trans hidle
      | storeLag hs | setReady hs | setRequested hs => exact absurd (hidle.symm.trans hs) nofun
    refine ⟨hcoherent, ?_⟩
    rcases (SyncState.step_request_flags ht).1 with heq | htrue | rfl
    · exact heq.trans hrequested
    · exact htrue
    · cases SyncState.flagStep hne ht with
      | setRequested hs => exact absurd (hidle.symm.trans hs) nofun
      | other _ _ hne => exact absurd rfl hne

/-- The test of `lagrequested` and `queuelag` together are the test of `SyncState`. -/
theorem sync_of_run {lag : L} {tr : List (MeasureAction L)}
    (h : Run (MeasureState.step big) anyStep (MeasureState.init lag) tr s) :
    s.TestedIdle ∧ ∃ tr', Run (SyncState.step big) anyStep (SyncState.init lag) tr' s.sync := by
  induction h with
  | nil => exact ⟨fun h => (by cases h), [], .nil⟩
  | @snoc tr s a s' _ _ hs ih =>
    obtain ⟨hi, tr', hrun⟩ := ih
    refine ⟨hi.step hs, ?_⟩
    cases stepped hs with
    | test | full => exact ⟨tr', hrun⟩
    | queue htested =>
      obtain ⟨hidle, hrequested⟩ := hi htested
      have htest : s.sync.step big .test = some { s.sync with coherent := .queued } := by
        simp [SyncState.step, hidle, hrequested]
      exact ⟨_, hrun.snoc trivial htest⟩
    | sync _ ht => exact ⟨_, hrun.snoc trivial ht⟩

theorem record_eq {a : SyncAction L} (hrequest : ∀ c, a ≠ .request c)
    (hstore : ∀ lag, a ≠ .storeLag lag) : s.record a = s := by
  cases a with
  | request c => exact absurd rfl (hrequest c)
  | storeLag lag => exact absurd rfl (hstore lag)
  | _ => rfl

/-- The lag that is stored is that of the samples in the queue. -/
theorem lagAt_of_run {lag : L} {tr : List (MeasureAction L)}
    (h : Run (MeasureState.step big) anyStep (MeasureState.init lag) tr s)
    (hstored : s.sync.coherent = .stored) : s.lagAt = s.queuedAt := by
  refine h.invariant (I := fun s => s.sync.coherent = .stored → s.lagAt = s.queuedAt)
    (fun h => by cases h) ?_ hstored
  intro s a s' hi _ hs hstored
  cases stepped hs with
  | test hidle => exact hi hstored
  | queue => cases hstored
  | full => exact hi hstored
  | @sync a t hne ht =>
    have hstored : t.coherent = .stored := hstored
    cases SyncState.flagStep hne ht with
    | request _ hcoherent | clearReady _ _ hcoherent | block _ _ hcoherent
    | ret _ _ _ hcoherent => exact hi (hcoherent ▸ hstored)
    | storeLag => rfl
    | setReady _ hreadied => exact absurd (hreadied.symm.trans hstored) nofun
    | setRequested _ hidle => exact absurd (hidle.symm.trans hstored) nofun
    | other hrequest hstore _ _ hcoherent =>
      show (s.record a).lagAt = (s.record a).queuedAt
      rw [record_eq hrequest hstore]
      exact hi (hcoherent ▸ hstored)

/-! ## When a call clears `lagready` -/

/-- The device is in the queue, or its lag is stored and `lagready` is not. -/
def UnderWay (s : MeasureState L) : Prop := s.sync.coherent = .queued ∨ s.sync.coherent = .stored

/-- The caller has cleared `lagready` and waits for it. -/
def Waiting (s : MeasureState L) (c : Caller) : Prop :=
  s.sync.req c = .cleared ∨ s.sync.req c = .blocked

/-- `lagready` is cleared only while no measurement is under way the samples of which were queued
before the call of `requestfftblocking` began. -/
def FreshClear (s : MeasureState L) : MeasureAction L → Prop
  | .sync (.clearReady c) => s.UnderWay → s.began c < s.queuedAt
  | _ => True

instance (s : MeasureState L) : Decidable s.UnderWay := inferInstanceAs (Decidable (_ ∨ _))

instance (a : MeasureAction L) : Decidable (FreshClear s a) :=
  match a with
  | .sync (.clearReady c) => inferInstanceAs (Decidable (s.UnderWay → s.began c < s.queuedAt))
  | .test | .queue | .full | .sync .wake | .sync .retest | .sync (.request _) | .sync (.block _)
  | .sync (.ret _) | .sync .readLag | .sync .correct | .sync .synchronize | .sync .clear
  | .sync .test | .sync (.storeLag _) | .sync .setReady | .sync .setRequested => .isTrue trivial

/-! ## Every call gets a lag of its own -/

/-- The samples that a waiting caller can get were queued after its call began. -/
structure FreshInv (s : MeasureState L) : Prop where
  began : ∀ c, s.sync.req c ≠ .out → s.began c < s.now
  underWay : s.UnderWay → ∀ c, s.Waiting c → s.began c < s.queuedAt
  ready : s.sync.lagready = true → ∀ c, s.Waiting c → s.began c < s.lagAt

theorem FreshInv.init (lag : L) : FreshInv (init lag) where
  began _ h := absurd rfl h
  underWay h := by rcases h with h | h <;> cases h
  ready h := by cases h

/-- A step by which no caller clears `lagready` and no samples move. -/
theorem FreshInv.of_waiting (hi : FreshInv s) (hnow : s'.now = s.now + 1)
    (hqueuedAt : s'.queuedAt = s.queuedAt) (hlagAt : s'.lagAt = s.lagAt)
    (hcoherent : s'.sync.coherent = s.sync.coherent)
    (hready : s'.sync.lagready = true → s.sync.lagready = true)
    (hcall : ∀ c, s'.sync.req c ≠ .out →
      s'.began c = s.now ∨ s.sync.req c ≠ .out ∧ s'.began c = s.began c)
    (hwait : ∀ c, s'.Waiting c → s.Waiting c ∧ s'.began c = s.began c) : FreshInv s' where
  began c hc := by
    rw [hnow]
    rcases hcall c hc with hb | ⟨hc, hb⟩
    · exact hb ▸ s.now.lt_succ_self
    · exact hb ▸ (hi.began c hc).trans s.now.lt_succ_self
  underWay hu c hc := by
    obtain ⟨hc, hb⟩ := hwait c hc
    rw [hb, hqueuedAt]
    exact hi.underWay (by rwa [UnderWay, ← hcoherent]) c hc
  ready hr c hc := by
    obtain ⟨hc, hb⟩ := hwait c hc
    rw [hb, hlagAt]
    exact hi.ready (hready hr) c hc

theorem FreshInv.sync {a : SyncAction L} {t : SyncState L} (hi : FreshInv s)
    (hlag : s.sync.coherent = .stored → s.lagAt = s.queuedAt) (hok : FreshClear s (.sync a))
    (h : SyncState.FlagStep s.sync a t) :
    FreshInv { s.record a with sync := t, now := s.now + 1 } := by
  cases h with
  | @request c _ hreq hcoherent hready =>
    -- the caller has not cleared `lagready` yet
    refine hi.of_waiting rfl rfl rfl hcoherent (hready ▸ id) (fun c' hc => ?_) fun c' hc => ?_
    · rcases eq_or_ne c' c with rfl | hne
      · exact .inl (Function.update_self ..)
      · rw [hreq, Function.update_of_ne hne] at hc
        exact .inr ⟨hc, Function.update_of_ne hne ..⟩
    · rcases eq_or_ne c' c with rfl | hne
      · rw [Waiting, hreq, Function.update_self] at hc
        rcases hc with hc | hc <;> cases hc
      · rw [Waiting, hreq, Function.update_of_ne hne] at hc
        exact ⟨hc, Function.update_of_ne hne ..⟩
  | @clearReady c _ hrequested hreq hcoherent hready =>
    refine ⟨fun c' hc => ?_, fun hu c' hc => ?_, fun hr => ?_⟩
    · refine (hi.began c' ?_).trans s.now.lt_succ_self
      rcases eq_or_ne c' c with rfl | hne
      · rw [hrequested]
        nofun
      · rwa [hreq, Function.update_of_ne hne] at hc
    · rw [UnderWay, hcoherent] at hu
      rcases eq_or_ne c' c with rfl | hne
      · exact hok hu
      · rw [Waiting, hreq, Function.update_of_ne hne] at hc
        exact hi.underWay hu c' hc
    · exact absurd (hready.symm.trans hr) nofun
  | @block c _ hcleared hreq hcoherent hready =>
    refine hi.of_waiting rfl rfl rfl hcoherent (hready ▸ id) (fun c' hc => ?_) fun c' hc => ?_
    all_goals rcases eq_or_ne c' c with rfl | hne
    · exact .inr ⟨by rw [hcleared]; nofun, rfl⟩
    · rw [hreq, Function.update_of_ne hne] at hc
      exact .inr ⟨hc, rfl⟩
    · exact ⟨.inl hcleared, rfl⟩
    · rw [Waiting, hreq, Function.update_of_ne hne] at hc
      exact ⟨hc, rfl⟩
  | @ret c _ hwaiting htrue hreq hcoherent hready =>
    refine hi.of_waiting rfl rfl rfl hcoherent (hready ▸ id) (fun c' hc => ?_) fun c' hc => ?_
    all_goals rcases eq_or_ne c' c with rfl | hne
    · exact absurd (by rw [hreq, Function.update_self]) hc
    · rw [hreq, Function.update_of_ne hne] at hc
      exact .inr ⟨hc, rfl⟩
    · rw [Waiting, hreq, Function.update_self] at hc
      rcases hc with hc | hc <;> cases hc
    · rw [Waiting, hreq, Function.update_of_ne hne] at hc
      exact ⟨hc, rfl⟩
  | storeLag hqueued hstored hreq hready =>
    have hwait : ∀ c, (t.req c = .cleared ∨ t.req c = .blocked) → s.began c < s.queuedAt :=
      fun c hc => hi.underWay (.inl hqueued) c (by rwa [Waiting, ← hreq])
    exact ⟨fun c hc => (hi.began c (hreq ▸ hc)).trans s.now.lt_succ_self, fun _ => hwait,
      fun _ => hwait⟩
  | setReady hstored hreadied hreq =>
    -- the lag is that of the measurement under way
    refine ⟨fun c hc => (hi.began c (hreq ▸ hc)).trans s.now.lt_succ_self, fun hu => ?_,
      fun _ c hc => ?_⟩
    · rcases hu with hu | hu <;> exact absurd (hreadied.symm.trans hu) nofun
    · show s.began c < s.lagAt
      rw [hlag hstored]
      exact hi.underWay (.inr hstored) c (by rwa [Waiting, ← hreq])
  | setRequested hreadied hidle hreq hready =>
    refine ⟨fun c hc => (hi.began c (hreq ▸ hc)).trans s.now.lt_succ_self, fun hu => ?_,
      fun hr c hc => hi.ready (hready ▸ hr) c (by rwa [Waiting, ← hreq])⟩
    rcases hu with hu | hu <;> exact absurd (hidle.symm.trans hu) nofun
  | other hrequest hstore _ hreq hcoherent hready =>
    rw [record_eq hrequest hstore]
    exact hi.of_waiting rfl rfl rfl hcoherent (hready ▸ id) (fun c hc => .inr ⟨hreq ▸ hc, rfl⟩)
      fun c hc => ⟨by rwa [Waiting, ← hreq], rfl⟩

theorem FreshInv.step {a : MeasureAction L} (hi : FreshInv s)
    (hlag : s.sync.coherent = .stored → s.lagAt = s.queuedAt) (hok : FreshClear s a)
    (h : s.step big a = some s') : FreshInv s' := by
  cases stepped h with
  | test => exact hi.of_waiting rfl rfl rfl rfl id (fun _ hc => .inr ⟨hc, rfl⟩) fun _ hc => ⟨hc, rfl⟩
  | queue =>
    have hout : ∀ c, s.Waiting c → s.sync.req c ≠ .out := by
      rintro c (hc | hc) <;> rw [hc] <;> nofun
    exact ⟨fun c hc => (hi.began c hc).trans s.now.lt_succ_self,
      fun _ c hc => hi.began c (hout c hc), hi.ready⟩
  | full => exact hi.of_waiting rfl rfl rfl rfl id (fun _ hc => .inr ⟨hc, rfl⟩) fun _ hc => ⟨hc, rfl⟩
  | sync hne ht => exact hi.sync hlag hok (SyncState.flagStep hne ht)

theorem freshInv_of_run {lag : L} {tr : List (MeasureAction L)}
    (h : Run (MeasureState.step big) FreshClear (MeasureState.init lag) tr s) : FreshInv s := by
  induction h with
  | nil => exact .init lag
  | snoc hrun hok hs ih => exact ih.step (lagAt_of_run (hrun.mono fun _ _ _ => trivial)) hok hs

/-- When a call returns. -/
theorem step_ret {c : Caller} (h : s.step big (.sync (.ret c)) = some s') :
    s.Waiting c ∧ s.sync.lagready = true ∧ s'.began = s.began ∧ s'.lagAt = s.lagAt ∧
      s'.sync.lagp = s.sync.lagp := by
  obtain ⟨s₁, hact, rfl⟩ := Option.map_eq_some_iff.mp h
  obtain ⟨t, ht, rfl⟩ := Option.map_eq_some_iff.mp hact
  obtain ⟨⟨hwaiting, -, hready⟩, heq⟩ := Option.ite_none_right_eq_some.mp ht
  cases heq
  exact ⟨hwaiting, hready, rfl, rfl, rfl⟩

/-- If no call of `requestfftblocking` clears `lagready` while a measurement with samples from before
the call is under way, then whenever a call returns, the lag in `lagp` is computed from samples that
were queued after the call began. -/
theorem fresh_of_run {lag : L} {tr : List (MeasureAction L)} {c : Caller}
    (h : Run (MeasureState.step big) FreshClear (MeasureState.init lag) tr s)
    (hret : s.step big (.sync (.ret c)) = some s') : s'.began c < s'.lagAt := by
  obtain ⟨hwaiting, hready, hbegan, hlagAt, -⟩ := step_ret hret
  rw [hbegan, hlagAt]
  exact (freshInv_of_run h).ready hready c hwaiting

/-- The controller asks for a lag and gets it. -/
def freshTrace : List (MeasureAction ℤ) :=
  [.sync .wake, .sync .retest, .sync (.request .controller), .sync (.clearReady .controller), .test,
    .queue, .sync (.storeLag 7), .sync .setReady, .sync .setRequested]

theorem fresh_freshTrace :
    ∃ s s', Run (MeasureState.step SyncState.exceeds) FreshClear (MeasureState.init 0) freshTrace s ∧
      s.step SyncState.exceeds (.sync (.ret .controller)) = some s' ∧
      s'.began .controller < s'.lagAt := by
  obtain ⟨s, hrun, hs⟩ := Run.exists_of_exec (MeasureState.step SyncState.exceeds) FreshClear
    (MeasureState.init 0) freshTrace
    (fun s => (s.step SyncState.exceeds (.sync (.ret .controller))).isSome) (by decide)
  obtain ⟨s', hret⟩ := Option.isSome_iff_exists.mp hs
  exact ⟨s, s', hrun, hret, fresh_of_run hrun hret⟩

/-! ## A call that gets the lag of an earlier measurement -/

/-- The device that the constructor asks to measure is in the queue before the controller makes its
first request, which the measurement answers. -/
def staleTrace : List (MeasureAction ℤ) :=
  [.test, .queue, .sync .wake, .sync .retest, .sync (.request .controller),
    .sync (.clearReady .controller), .sync (.storeLag 7), .sync .setReady, .sync .setRequested]

theorem not_fresh :
    ¬ ∀ (L : Type) (big : L → Bool) (lag : L) (tr : List (MeasureAction L)) (s s' : MeasureState L)
        (c : Caller), Run (MeasureState.step big) anyStep (MeasureState.init lag) tr s →
      s.step big (.sync (.ret c)) = some s' → s'.began c < s'.lagAt := by
  intro hclaim
  obtain ⟨s, hrun, hs⟩ := Run.exists_of_exec (MeasureState.step SyncState.exceeds) anyStep
    (MeasureState.init 0) staleTrace
    (fun s => (s.step SyncState.exceeds (.sync (.ret .controller))).any fun s' =>
      s'.lagAt ≤ s'.began .controller) (by decide)
  cases hret : s.step SyncState.exceeds (.sync (.ret .controller)) with
  | none => simp [hret] at hs
  | some s' =>
    rw [hret] at hs
    exact (hclaim ℤ SyncState.exceeds 0 staleTrace s s' .controller hrun hret).not_ge
      (of_decide_eq_true hs)

/-- A measurement under way can be brought to its end. -/
theorem exists_setRequested (hu : s.UnderWay)
    (hstored : s.sync.coherent = .stored → s.lagAt = s.queuedAt) :
    ∃ tr s', Run (MeasureState.step big) anyStep s tr s' ∧ s'.sync.coherent = .idle ∧
      s'.sync.lagready = true ∧ s'.sync.req = s.sync.req ∧ s'.began = s.began ∧
      s'.lagAt = s.queuedAt := by
  have hend : ∀ {s : MeasureState L}, s.sync.coherent = .stored → ∃ s',
      Run (MeasureState.step big) anyStep s [.sync .setReady, .sync .setRequested] s' ∧
        s'.sync.coherent = .idle ∧ s'.sync.lagready = true ∧ s'.sync.req = s.sync.req ∧
        s'.began = s.began ∧ s'.lagAt = s.lagAt := by
    intro s hs
    have hready : s.step big (.sync .setReady) = some { s with
        sync := { s.sync with lagready := true, coherent := .readied }, now := s.now + 1 } := by
      simp [MeasureState.step, act, SyncState.step, hs, record]
    refine ⟨_, (Run.snoc .nil trivial hready).snoc trivial rfl, rfl, rfl, rfl, rfl, rfl⟩
  rcases hu with hs | hs
  · have hstore : s.step big (.sync (.storeLag s.sync.lagp)) = some { s with
        sync := { s.sync with coherent := .stored }, lagAt := s.queuedAt, now := s.now + 1 } := by
      simp [MeasureState.step, act, SyncState.step, hs, record]
    obtain ⟨s', hrun, hidle, hready, hreq, hbegan, hlag⟩ := hend (s := { s with
      sync := { s.sync with coherent := .stored }, lagAt := s.queuedAt, now := s.now + 1 }) rfl
    exact ⟨_, s', hrun.head trivial hstore, hidle, hready, hreq, hbegan, hlag⟩
  · obtain ⟨s', hrun, hidle, hready, hreq, hbegan, hlag⟩ := hend hs
    exact ⟨_, s', hrun, hidle, hready, hreq, hbegan, hlag.trans (hstored hs)⟩

theorem step_clearReady {c : Caller} (h : s.step big (.sync (.clearReady c)) = some s') :
    s'.sync.coherent = s.sync.coherent ∧ s'.sync.req c = .cleared ∧ s'.began = s.began ∧
      s'.queuedAt = s.queuedAt := by
  obtain ⟨s₁, hact, rfl⟩ := Option.map_eq_some_iff.mp h
  obtain ⟨t, ht, rfl⟩ := Option.map_eq_some_iff.mp hact
  obtain ⟨-, heq⟩ := Option.ite_none_right_eq_some.mp ht
  cases heq
  exact ⟨rfl, Function.update_self .., rfl, rfl⟩

/-- A call that clears `lagready` while a measurement with samples from before the call is under way
can return with the lag of this measurement. -/
theorem exists_stale_ret {lag : L} {tr : List (MeasureAction L)} {c : Caller}
    (h : Run (MeasureState.step big) anyStep (MeasureState.init lag) tr s)
    (hclear : s.step big (.sync (.clearReady c)) = some s')
    (hstale : ¬FreshClear s (.sync (.clearReady c))) :
    ∃ tr' s₁ s₂, Run (MeasureState.step big) anyStep s' tr' s₁ ∧
      s₁.step big (.sync (.ret c)) = some s₂ ∧ s₂.lagAt ≤ s₂.began c := by
  obtain ⟨hu, hle⟩ := Classical.not_imp.mp hstale
  obtain ⟨hcoherent, hcleared, hbegan, hqueuedAt⟩ := step_clearReady hclear
  have hu' : s'.UnderWay := by rwa [UnderWay, hcoherent]
  obtain ⟨tr', s₁, hrun, hidle, hready, hreq, hbegan₁, hlag⟩ :=
    exists_setRequested hu' (lagAt_of_run (h.snoc trivial hclear))
  have hret : (s₁.step big (.sync (.ret c))).isSome := by
    simp [MeasureState.step, act, SyncState.step, hreq, hcleared, hidle, hready]
  obtain ⟨s₂, hret⟩ := Option.isSome_iff_exists.mp hret
  obtain ⟨-, -, hbegan₂, hlag₂, -⟩ := step_ret hret
  refine ⟨tr', s₁, s₂, hrun, hret, ?_⟩
  rw [hlag₂, hlag, hqueuedAt, hbegan₂, hbegan₁, hbegan]
  exact not_lt.mp hle

end MeasureState
end Aegir
