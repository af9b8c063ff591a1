import Aegir.Model.Sync

/-!
# The measurements of a device

The flags of `Aegir.Model.Sync` with the steps of the coherent thread that lie between its test of
`lagrequested` and `set_lag`: a device that asks for a lag is passed to `queuelag`, which copies its
samples into the queue or, when the queue is full, leaves it out; `computelag` then computes the lag
that it passes to `set_lag` from the samples in the queue. A history tells when the samples were
queued and when the calls of `requestfftblocking` began. Without the history the system is the one of
`SyncState` (`sync_of_run`).
-/

namespace Aegir

/-- The flags of the device, the position of the threads, and the history. Times are numbers of
steps. -/
structure MeasureState (L : Type*) where
  sync : SyncState L
  /-- `is_lagrequested` was true, the call of `queuelag` is next. -/
  tested : Bool
  now : ℕ
  /-- When the last call of `requestfftblocking` began. -/
  began : Caller → ℕ
  /-- When the last samples of the device were queued. -/
  queuedAt : ℕ
  /-- When the samples were queued that the lag in `lagp` was computed from. -/
  lagAt : ℕ

/-- A step of one of the threads. The test of `lagrequested` and `queuelag` are steps of their own. -/
inductive MeasureAction (L : Type*)
  | test | queue | full
  | sync (a : SyncAction L)
  deriving DecidableEq, Repr

namespace MeasureState

variable {L : Type*} (big : L → Bool)

/-- The state that the constructor leaves. -/
def init (lag : L) : MeasureState L where
  sync := .init lag
  tested := false
  now := 0
  began _ := 0
  queuedAt := 0
  lagAt := 0

/-- The history of a step of the flags. -/
def record (s : MeasureState L) : SyncAction L → MeasureState L
  | .request c => { s with began := Function.update s.began c s.now }
  | .storeLag _ => { s with lagAt := s.queuedAt }
  | _ => s

/-- What a step does, apart from the time. -/
def act (s : MeasureState L) : MeasureAction L → Option (MeasureState L)
  | .test =>
    if s.sync.coherent = .idle ∧ s.tested = false then
      some { s with tested := s.sync.lagrequested }
    else none
  | .queue =>
    if s.tested then
      some { s with tested := false, sync := { s.sync with coherent := .queued }, queuedAt := s.now }
    else none
  | .full => if s.tested then some { s with tested := false } else none
  | .sync .test => none
  | .sync a => (s.sync.step big a).map fun t => { s.record a with sync := t }

/-- One step of the threads. -/
def step (s : MeasureState L) (a : MeasureAction L) : Option (MeasureState L) :=
  (s.act big a).map fun s' => { s' with now := s.now + 1 }

variable {big} {s s' : MeasureState L}

theorem record_tested (a : SyncAction L) : (s.record a).tested = s.tested := by
  cases a <;> rfl

/-- What a step can do. -/
inductive Stepped (big : L → Bool) (s : MeasureState L) :
    MeasureAction L → MeasureState L → Prop
  | test : s.sync.coherent = .idle → s.tested = false →
      Stepped big s .test { s with tested := s.sync.lagrequested, now := s.now + 1 }
  | queue : s.tested = true → Stepped big s .queue { s with
      tested := false, sync := { s.sync with coherent := .queued }, queuedAt := s.now,
      now := s.now + 1 }
  | full : s.tested = true → Stepped big s .full { s with tested := false, now := s.now + 1 }
  | sync {a t} : a ≠ .test → s.sync.step big a = some t →
      Stepped big s (.sync a) { s.record a with sync := t, now := s.now + 1 }

theorem stepped {a : MeasureAction L} (h : s.step big a = some s') : Stepped big s a s' := by
  obtain ⟨s₁, hact, rfl⟩ := Option.map_eq_some_iff.mp h
  cases a with
  | test =>
    obtain ⟨⟨hidle, htested⟩, heq⟩ := Option.ite_none_right_eq_some.mp hact
    cases heq
    exact .test hidle htested
  | queue =>
    obtain ⟨htested, heq⟩ := Option.ite_none_right_eq_some.mp hact
    cases heq
    exact .queue htested
  | full =>
    obtain ⟨htested, heq⟩ := Option.ite_none_right_eq_some.mp hact
    cases heq
    exact .full htested
  | sync a =>
    have hne : a ≠ .test := by
      rintro rfl
      cases hact
    rw [act] at hact
    · obtain ⟨t, ht, rfl⟩ := Option.map_eq_some_iff.mp hact
      exact .sync hne ht
    · exact hne

end MeasureState
end Aegir
