import Aegir.Model.Controller
import Aegir.Std.Progress

/-!
# Corrections last for a sleep, and the controller comes to its end

In every interleaving, until the device is asked to exit: the resampler runs with a correction only
while the controller sleeps, and never while the device counts as synchronized (`correction_of_run`).
Once `ccontrol::request_exit` has returned, the controller is never again asleep in
`wait_synchronized`: it has finished, can move, or waits for a lag, and it takes at most eleven steps
(`exit_of_run`).
-/

namespace Aegir

variable {L K : Type*}

/-- What a step of the flags does to the position of the controller and to its request. -/
inductive CtrlStep (s : SyncState L) : SyncAction L → SyncState L → Prop
  | wake {t} (hc : s.ctrl = .waitSync) (hs : s.synced = false) (ht : t = { s with ctrl := .woke }) :
    CtrlStep s .wake t
  | retest {t} (hc : s.ctrl = .woke)
    (ht : t = { s with ctrl := if s.synced then .waitSync else .request }) : CtrlStep s .retest t
  | request {t} (hc : s.ctrl = .request) (hr : s.req .controller = .out)
    (ht : t.ctrl = .request) (hr' : t.req .controller = .requested) (hs : t.synced = s.synced) :
    CtrlStep s (.request .controller) t
  | clearReady {t} (hr : s.req .controller = .requested) (ht : t.ctrl = s.ctrl)
    (hr' : t.req .controller = .cleared) (hs : t.synced = s.synced) :
    CtrlStep s (.clearReady .controller) t
  | block {t} (hr : s.req .controller = .cleared) (ht : t.ctrl = s.ctrl)
    (hr' : t.req .controller = .blocked) (hs : t.synced = s.synced) :
    CtrlStep s (.block .controller) t
  | ret {t} (hr : s.req .controller = .cleared ∨ s.req .controller = .blocked)
    (ht : t.ctrl = .readLag) (hr' : t.req .controller = .out) (hs : t.synced = s.synced) :
    CtrlStep s (.ret .controller) t
  | readLag {t} (hc : s.ctrl = .readLag) (ht : t = { s with ctrl := .branch s.lagp }) :
    CtrlStep s .readLag t
  | clear {t} (ht : t.ctrl = s.ctrl) (hr : t.req .controller = s.req .controller)
    (hs : t.synced = false) : CtrlStep s .clear t
  | other {a t} (ha : a.ofController = false) (ht : t.ctrl = s.ctrl)
    (hr : t.req .controller = s.req .controller) (hs : t.synced = s.synced) : CtrlStep s a t

variable {big : L → Bool}

theorem SyncState.ctrl_cases {s t : SyncState L} {a : SyncAction L} (ha : a.endsBody = false)
    (h : s.step big a = some t) : CtrlStep s a t := by
  have hother : ∀ pc, (s.setReq .console pc).req .controller = s.req .controller := fun pc => by
    simp [SyncState.setReq]
  have hself : ∀ pc, (s.setReq .controller pc).req .controller = pc := fun pc => by
    simp [SyncState.setReq]
  cases a <;> simp only [SyncState.step] at h
  case wake =>
    split at h
    case h_1 hc =>
      split at h <;> cases h
      exact .wake hc (Bool.eq_false_iff.mpr ‹_›) rfl
    case h_2 => cases h
  case retest =>
    split at h <;> cases h
    exact .retest ‹_› rfl
  case request c =>
    obtain ⟨⟨hr, hm⟩, heq⟩ := Option.ite_none_right_eq_some.mp h
    cases heq
    cases c with
    | controller =>
      have hc : s.ctrl = .request := by
        simp only [SyncState.mayRequest] at hm
        split at hm
        · assumption
        · cases hm
      exact .request hc hr hc (hself _) rfl
    | console => exact .other rfl rfl (hother .requested) rfl
  case clearReady c =>
    obtain ⟨hr, heq⟩ := Option.ite_none_right_eq_some.mp h
    cases heq
    cases c with
    | controller => exact .clearReady hr rfl (hself _) rfl
    | console => exact .other rfl rfl (hother .cleared) rfl
  case block c =>
    obtain ⟨⟨hr, -⟩, heq⟩ := Option.ite_none_right_eq_some.mp h
    cases heq
    cases c with
    | controller => exact .block hr rfl (hself _) rfl
    | console => exact .other rfl rfl (hother .blocked) rfl
  case ret c =>
    obtain ⟨⟨hr, -⟩, heq⟩ := Option.ite_none_right_eq_some.mp h
    cases heq
    cases c with
    | controller => exact .ret hr rfl (hself _) rfl
    | console => exact .other rfl rfl (hother .out) rfl
  case readLag =>
    split at h <;> cases h
    exact .readLag ‹_› rfl
  case correct => cases ha
  case synchronize => cases ha
  case clear =>
    obtain ⟨-, heq⟩ := Option.ite_none_right_eq_some.mp h
    cases heq
    exact .clear rfl rfl rfl
  all_goals
    split at h <;> cases h
    exact .other rfl rfl rfl rfl

theorem SyncState.of_correct {s t : SyncState L} (h : s.step big .correct = some t) :
    t.ctrl = .waitSync ∧ t.req .controller = s.req .controller ∧ t.synced = s.synced := by
  simp only [SyncState.step] at h
  split at h
  case h_1 =>
    split at h <;> cases h
    exact ⟨rfl, rfl, rfl⟩
  case h_2 => cases h

theorem SyncState.of_synchronize {s t : SyncState L} (h : s.step big .synchronize = some t) :
    t.ctrl = .waitSync ∧ t.req .controller = s.req .controller := by
  simp only [SyncState.step] at h
  split at h
  case h_1 =>
    split at h <;> cases h
    exact ⟨rfl, rfl⟩
  case h_2 => cases h

/-- A step of another thread leaves the controller where it is. -/
theorem CtrlStep.other_thread {s t : SyncState L} {a : SyncAction L} (h : CtrlStep s a t)
    (ha : a.ofController = false) : t.ctrl = s.ctrl ∧ t.req .controller = s.req .controller ∧
      (t.synced = true → s.synced = true) := by
  cases h with
  | clear ht hr hs => exact ⟨ht, hr, fun h => absurd h (by simp [hs])⟩
  | other _ ht hr hs => exact ⟨ht, hr, fun h => hs ▸ h⟩
  | _ => cases ha

namespace ControllerState

@[simp] theorem setCorrectionF_sync (s : ControllerState L K) (f : K) (accepted : Bool) :
    (s.setCorrectionF f accepted).sync = s.sync := by
  unfold setCorrectionF
  split <;> rfl

@[simp] theorem setCorrectionF_pc (s : ControllerState L K) (f : K) (accepted : Bool) :
    (s.setCorrectionF f accepted).pc = s.pc := by
  unfold setCorrectionF
  split <;> rfl

@[simp] theorem setCorrectionF_exit (s : ControllerState L K) (f : K) (accepted : Bool) :
    (s.setCorrectionF f accepted).exit = s.exit := by
  unfold setCorrectionF
  split <;> rfl

@[simp] theorem setCorrectionF_doExit (s : ControllerState L K) (f : K) (accepted : Bool) :
    (s.setCorrectionF f accepted).doExit = s.doExit := by
  unfold setCorrectionF
  split <;> rfl

@[simp] theorem setCorrectionF_devExit (s : ControllerState L K) (f : K) (accepted : Bool) :
    (s.setCorrectionF f accepted).devExit = s.devExit := by
  unfold setCorrectionF
  split <;> rfl

theorem correction_of_accepted {s : ControllerState L K} {f : K} (hd : s.devExit = false) :
    (s.setCorrectionF f true).correction = f := by
  simp [ControllerState.setCorrectionF, hd]

/-! ## The invariant -/

/-- What holds of the controller in every state. -/
structure Controls (big : L → Bool) (s : ControllerState L K) : Prop where
  request : s.sync.req .controller ≠ .out → s.sync.ctrl = .request
  outside : s.pc = .test ∨ s.pc = .finished → s.sync.ctrl = .waitSync
  correcting : s.pc = .sleeping ∨ s.pc = .resetting →
    ∃ lag, s.sync.ctrl = .branch lag ∧ big lag = true
  synchronizing : s.pc = .synchronizing → ∃ lag, s.sync.ctrl = .branch lag ∧ big lag = false
  /-- Only a controller that waits in `wait_synchronized`, or has not come to it, has set the flag. -/
  synced : s.sync.synced = true → s.sync.ctrl = .waitSync
  doExit : s.exit ≠ .running → s.doExit = true
  devExit : s.devExit = true → s.exit = .done
  desynchronized : s.exit = .desynchronized ∨ s.exit = .done → s.sync.synced = true →
    s.pc = .test ∨ s.pc = .finished

/-- A step of the controller in the body of its loop: the device does not count as synchronized. -/
theorem Controls.own_step {s : ControllerState L K} {t : SyncState L} {a : SyncAction L}
    (h : Controls big s) (hs : CtrlStep s.sync a t) (ha : a.ofController = true) :
    s.sync.synced = false ∧ t.synced = false ∧
      (t.req .controller ≠ .out → t.ctrl = .request) := by
  have hbusy : s.sync.ctrl ≠ .waitSync → s.sync.synced = false :=
    fun hc => Bool.eq_false_iff.mpr fun hs => hc (h.synced hs)
  have hasking : s.sync.req .controller ≠ .out → s.sync.synced = false :=
    fun hr => hbusy (by simp [h.request hr])
  have hout : s.sync.ctrl ≠ .request → s.sync.req .controller = .out :=
    fun hc => by_contra fun hr => hc (h.request hr)
  cases hs with
  | wake hc hs ht =>
    subst ht
    exact ⟨hs, hs, fun hr => absurd (hout (by simp [hc])) hr⟩
  | retest hc ht =>
    subst ht
    have hs := hbusy (by simp [hc])
    exact ⟨hs, hs, fun hr => absurd (hout (by simp [hc])) hr⟩
  | request hc hr ht _ hs =>
    have hf := hbusy (by simp [hc])
    exact ⟨hf, hs.trans hf, fun _ => ht⟩
  | clearReady hr ht _ hs =>
    have hne : s.sync.req .controller ≠ .out := by simp [hr]
    exact ⟨hasking hne, hs.trans (hasking hne), fun _ => ht.trans (h.request hne)⟩
  | block hr ht _ hs =>
    have hne : s.sync.req .controller ≠ .out := by simp [hr]
    exact ⟨hasking hne, hs.trans (hasking hne), fun _ => ht.trans (h.request hne)⟩
  | ret hr _ hr' hs =>
    have hne : s.sync.req .controller ≠ .out := by rcases hr with hr | hr <;> simp [hr]
    exact ⟨hasking hne, hs.trans (hasking hne), fun h => absurd hr' h⟩
  | readLag hc ht =>
    subst ht
    have hs := hbusy (by simp [hc])
    exact ⟨hs, hs, fun hr => absurd (hout (by simp [hc])) hr⟩
  | clear => cases ha
  | other hno => rw [hno] at ha; cases ha

/-- The test of `wait_synchronized` never fails: nobody but the controller sets the flag. -/
theorem Controls.afterSync_eq {s : ControllerState L K} {t : SyncState L} {a : SyncAction L}
    (h : Controls big s) (hs : CtrlStep s.sync a t) : s.afterSync a = s.pc := by
  cases hs with
  | retest hc ht =>
    have hf := (h.own_step (.retest hc ht) rfl).1
    simp [afterSync, hf]
  | other hno =>
    cases a with
    | retest => cases hno
    | _ => rfl
  | _ => rfl

/-- The body goes on from a lag that has been read. -/
theorem Controls.setPc {s : ControllerState L K} {pc : ControllerPc} {lag : L} (h : Controls big s)
    (hc : s.sync.ctrl = .branch lag) (hout : ¬ (pc = .test ∨ pc = .finished))
    (hbig : pc = .sleeping ∨ pc = .resetting → big lag = true)
    (hsmall : pc = .synchronizing → big lag = false) : Controls big { s with pc := pc } where
  request := h.request
  outside hq := absurd hq hout
  correcting hq := ⟨lag, hc, hbig hq⟩
  synchronizing hq := ⟨lag, hc, hsmall hq⟩
  synced := h.synced
  doExit := h.doExit
  devExit := h.devExit
  desynchronized _ hs := nomatch hc.symm.trans (h.synced hs)

/-- The body ends. -/
theorem Controls.endBody {s : ControllerState L K} {t : SyncState L} (h : Controls big s)
    (hr : t.req .controller = .out) (hc : t.ctrl = .waitSync) :
    Controls big { s with sync := t, pc := .test } where
  request hq := absurd hr hq
  outside _ := hc
  correcting hq := by simp at hq
  synchronizing hq := by simp at hq
  synced _ := hc
  doExit := h.doExit
  devExit := h.devExit
  desynchronized _ _ := .inl rfl

theorem Controls.setCorrectionF {s : ControllerState L K} (h : Controls big s) (f : K)
    (accepted : Bool) : Controls big (s.setCorrectionF f accepted) where
  request := by simpa using h.request
  outside := by simpa using h.outside
  correcting := by simpa using h.correcting
  synchronizing := by simpa using h.synchronizing
  synced := by simpa using h.synced
  doExit := by simpa using h.doExit
  devExit := by simpa using h.devExit
  desynchronized := by simpa using h.desynchronized

theorem Controls.req_of_branch {s : ControllerState L K} {lag : L} (h : Controls big s)
    (hc : s.sync.ctrl = .branch lag) : s.sync.req .controller = .out :=
  by_contra fun hr => nomatch hc.symm.trans (h.request hr)

variable [Zero K] {rate : L → K}

/-- What a step of the threads can do. -/
inductive ControllerStep (big : L → Bool) (rate : L → K) (s : ControllerState L K) :
    ControllerAction L → ControllerState L K → Prop
  | loopTest (hp : s.pc = .test) :
    ControllerStep big rate s .loopTest { s with pc := if s.doExit then .finished else .body }
  | sync {a : SyncAction L} {t : SyncState L} (ha : a.endsBody = false)
    (hp : a.ofController = true → s.pc = .body) (ht : s.sync.step big a = some t) :
    ControllerStep big rate s (.sync a) { s with sync := t, pc := s.afterSync a }
  | correct {lag : L} (accepted : Bool) (hp : s.pc = .body) (hc : s.sync.ctrl = .branch lag)
    (hb : big lag = true) : ControllerStep big rate s (.setCorrection accepted)
      { s.setCorrectionF (rate lag) accepted with pc := .sleeping }
  | small {lag : L} (accepted : Bool) (hp : s.pc = .body) (hc : s.sync.ctrl = .branch lag)
    (hb : big lag = false) : ControllerStep big rate s (.setCorrection accepted)
      { s.setCorrectionF 0 accepted with pc := .synchronizing }
  | wakeUp (hp : s.pc = .sleeping) : ControllerStep big rate s .wakeUp { s with pc := .resetting }
  | reset {t : SyncState L} (accepted : Bool) (hp : s.pc = .resetting)
    (ht : s.sync.step big .correct = some t) : ControllerStep big rate s (.setCorrection accepted)
      { s.setCorrectionF 0 accepted with sync := t, pc := .test }
  | synchronize {t : SyncState L} (hp : s.pc = .synchronizing)
    (ht : s.sync.step big .synchronize = some t) :
    ControllerStep big rate s .synchronize { s with sync := t, pc := .test }
  | storeDoExit (he : s.exit = .running) :
    ControllerStep big rate s .exit { s with doExit := true, exit := .stored }
  | desynchronize (he : s.exit = .stored) : ControllerStep big rate s .exit
      { s with sync := { s.sync with synced := false }, exit := .desynchronized }
  | storeDevExit (he : s.exit = .desynchronized) :
    ControllerStep big rate s .exit { s with devExit := true, exit := .done }

theorem step_cases {s s' : ControllerState L K} {a : ControllerAction L}
    (h : s.step big rate a = some s') : ControllerStep big rate s a s' := by
  cases a with
  | loopTest =>
    simp only [step] at h
    split at h <;> cases h
    exact .loopTest ‹_›
  | sync a =>
    obtain ⟨hno, h⟩ := Option.ite_none_left_eq_some.mp h
    obtain ⟨t, ht, rfl⟩ := Option.map_eq_some_iff.mp h
    rw [not_or, not_and, not_not] at hno
    exact .sync (Bool.eq_false_iff.mpr hno.1) hno.2 ht
  | setCorrection accepted =>
    simp only [step] at h
    split at h
    case h_1 hp =>
      split at h
      case h_1 lag hc =>
        split at h <;> cases h
        · exact .correct accepted hp hc ‹_›
        · exact .small accepted hp hc (Bool.eq_false_iff.mpr ‹_›)
      case h_2 => cases h
    case h_2 hp =>
      obtain ⟨t, ht, rfl⟩ := Option.map_eq_some_iff.mp h
      exact .reset accepted hp ht
    case h_3 => cases h
  | wakeUp =>
    simp only [step] at h
    split at h <;> cases h
    exact .wakeUp ‹_›
  | synchronize =>
    simp only [step] at h
    split at h
    case h_1 hp =>
      obtain ⟨t, ht, rfl⟩ := Option.map_eq_some_iff.mp h
      exact .synchronize hp ht
    case h_2 => cases h
  | exit =>
    simp only [step] at h
    split at h <;> cases h
    · exact .storeDoExit ‹_›
    · exact .desynchronize ‹_›
    · exact .storeDevExit ‹_›

theorem controls_init {lag : L} : Controls big (init lag : ControllerState L K) where
  request h := absurd rfl h
  outside _ := rfl
  correcting h := by simp [init] at h
  synchronizing h := by simp [init] at h
  synced h := by cases h
  doExit h := absurd rfl h
  devExit h := by cases h
  desynchronized h := by simp [init] at h

variable {s' : ControllerState L K}

theorem Controls.step {s : ControllerState L K} {a : ControllerAction L} (h : Controls big s)
    (hs : ControllerStep big rate s a s') : Controls big s' := by
  cases hs with
  | loopTest hp =>
    have hc := h.outside (.inl hp)
    cases hd : s.doExit with
    | true =>
      exact { h with
        outside := fun _ => hc
        correcting := fun hq => by simp at hq
        synchronizing := fun hq => by simp at hq
        doExit := fun _ => rfl
        desynchronized := fun _ _ => .inr rfl }
    | false =>
      refine { h with
        outside := fun _ => hc
        correcting := fun hq => by simp at hq
        synchronizing := fun hq => by simp at hq
        doExit := fun he => hd.symm.trans (h.doExit he)
        desynchronized := fun he _ => ?_ }
      have he : s.exit = .desynchronized ∨ s.exit = .done := he
      exact nomatch hd.symm.trans (h.doExit (by rcases he with he | he <;> simp [he]))
  | @sync a t ha hp ht =>
    have hcase := SyncState.ctrl_cases ha ht
    rw [h.afterSync_eq hcase]
    cases hc : a.ofController with
    | true =>
      have hp := hp hc
      obtain ⟨-, hs, hr⟩ := h.own_step hcase hc
      exact
        { request := hr
          outside := fun hq => by simp [hp] at hq
          correcting := fun hq => by simp [hp] at hq
          synchronizing := fun hq => by simp [hp] at hq
          synced := fun hq => by simp [hs] at hq
          doExit := h.doExit
          devExit := h.devExit
          desynchronized := fun _ hq => by simp [hs] at hq }
    | false =>
      obtain ⟨hct, hr, hs⟩ := hcase.other_thread hc
      exact
        { request := fun hq => hct.trans (h.request (hr ▸ hq))
          outside := fun hq => hct.trans (h.outside hq)
          correcting := fun hq => hct ▸ h.correcting hq
          synchronizing := fun hq => hct ▸ h.synchronizing hq
          synced := fun hq => hct.trans (h.synced (hs hq))
          doExit := h.doExit
          devExit := h.devExit
          desynchronized := fun he hq => h.desynchronized he (hs hq) }
  | correct accepted hp hc hb =>
    exact (h.setCorrectionF _ accepted).setPc (by simpa using hc) (by simp) (fun _ => hb) (by simp)
  | small accepted hp hc hb =>
    exact (h.setCorrectionF _ accepted).setPc (by simpa using hc) (by simp) (by simp) (fun _ => hb)
  | wakeUp hp =>
    obtain ⟨lag, hc, hb⟩ := h.correcting (.inl hp)
    exact h.setPc hc (by simp) (fun _ => hb) (by simp)
  | @reset t accepted hp ht =>
    obtain ⟨lag, hc, -⟩ := h.correcting (.inr hp)
    obtain ⟨hct, hr, -⟩ := SyncState.of_correct ht
    exact (h.setCorrectionF _ accepted).endBody (hr ▸ h.req_of_branch hc) hct
  | @synchronize t hp ht =>
    obtain ⟨lag, hc, -⟩ := h.synchronizing hp
    obtain ⟨hct, hr⟩ := SyncState.of_synchronize ht
    exact h.endBody (hr ▸ h.req_of_branch hc) hct
  | storeDoExit he =>
    refine { h with
      doExit := fun _ => rfl
      devExit := fun hd => ?_
      desynchronized := fun he _ => by simp at he }
    exact nomatch he.symm.trans (h.devExit hd)
  | desynchronize he =>
    refine { h with
      synced := fun hs => nomatch hs
      doExit := fun _ => h.doExit (by simp [he])
      devExit := fun hd => ?_
      desynchronized := fun _ hs => nomatch hs }
    exact nomatch he.symm.trans (h.devExit hd)
  | storeDevExit he =>
    exact { h with
      doExit := fun _ => h.doExit (by simp [he])
      devExit := fun _ => rfl
      desynchronized := fun _ => h.desynchronized (.inl he) }

theorem controls_of_run {ok : ControllerState L K → ControllerAction L → Prop} {lag : L}
    {s : ControllerState L K} {tr : List (ControllerAction L)}
    (h : Run (step big rate) ok (init lag) tr s) : Controls big s :=
  h.invariant (controls_init) fun _ _ _ hc _ hs => hc.step (step_cases hs)

/-! ## Corrections -/

/-- The driver accepts every call that sets the correction to zero. -/
def ResetsAccepted (big : L → Bool) (s : ControllerState L K) : ControllerAction L → Prop
  | .setCorrection accepted => accepted = true ∨
      s.pc = .body ∧ ∃ lag, s.sync.ctrl = .branch lag ∧ big lag = true
  | _ => True

/-- Until the device is asked to exit, a correction lasts for the sleep of the controller. -/
def Corrects (s : ControllerState L K) : Prop :=
  s.devExit = false → s.correction ≠ 0 → s.pc = .sleeping ∨ s.pc = .resetting

theorem Corrects.step {s : ControllerState L K} {a : ControllerAction L} (h : Corrects s)
    (hc : Controls big s) (hok : ResetsAccepted big s a) (hs : ControllerStep big rate s a s') :
    Corrects s' := by
  intro hd hne
  cases hs with
  | loopTest hp => simpa [hp] using h hd hne
  | sync ha hp ht =>
    rw [hc.afterSync_eq (SyncState.ctrl_cases ha ht)]
    exact h hd hne
  | correct => exact .inl rfl
  | small accepted hp hb hsmall =>
    rcases hok with rfl | ⟨-, lag, hb', hbig⟩
    · exact absurd (correction_of_accepted (by simpa using hd)) hne
    · cases hb.symm.trans hb'
      exact nomatch hsmall.symm.trans hbig
  | wakeUp => exact .inr rfl
  | reset accepted hp ht =>
    rcases hok with rfl | ⟨hbody, -⟩
    · exact absurd (correction_of_accepted (by simpa using hd)) hne
    · exact nomatch hp.symm.trans hbody
  | synchronize hp => simpa [hp] using h hd hne
  | storeDoExit => exact h hd hne
  | desynchronize => exact h hd hne
  | storeDevExit => cases hd

/-- While the driver accepts the resets and the device is not asked to exit: the resampler runs with
a correction only during the sleep of the controller, never while the device is synchronized. -/
theorem correction_of_run {lag : L} {s : ControllerState L K} {tr : List (ControllerAction L)}
    (h : Run (step big rate) (ResetsAccepted big) (init lag) tr s) (hd : s.devExit = false) :
    (s.correction ≠ 0 → s.pc = .sleeping ∨ s.pc = .resetting) ∧
      (s.sync.synced = true → s.correction = 0) := by
  have hinv : Controls big s ∧ Corrects s := by
    have h₀ : Controls big (init lag : ControllerState L K) ∧
        Corrects (init lag : ControllerState L K) := ⟨controls_init, fun _ hne => absurd rfl hne⟩
    refine h.invariant (I := fun s => Controls big s ∧ Corrects s) h₀ ?_
    intro s a s' ⟨hc, hr⟩ hok hs
    exact ⟨hc.step (step_cases hs), hr.step hc hok (step_cases hs)⟩
  obtain ⟨hc, hr⟩ := hinv
  refine ⟨hr hd, fun hs => by_contra fun hne => ?_⟩
  obtain ⟨lag, hb, -⟩ := hc.correcting (hr hd hne)
  exact nomatch hb.symm.trans (hc.synced hs)

/-- The controller reads a lag of five samples, and sleeps. -/
def sleepTrace : List (ControllerAction Int) :=
  [.loopTest, .sync .wake, .sync .retest, .sync (.request .controller),
   .sync (.clearReady .controller), .sync .test, .sync (.storeLag 5), .sync .setReady,
   .sync .setRequested, .sync (.ret .controller), .sync .readLag, .setCorrection true]

theorem correction_of_run_sleeping :
    ∃ s : ControllerState Int Int,
      Run (step SyncState.exceeds id) (ResetsAccepted SyncState.exceeds) (init 0) sleepTrace s ∧
      s.devExit = false ∧ s.correction = 5 ∧
      (s.correction ≠ 0 → s.pc = .sleeping ∨ s.pc = .resetting) ∧
      (s.sync.synced = true → s.correction = 0) := by
  obtain ⟨s, h, hs⟩ := Run.exists_of_exec (step (L := Int) (K := Int) SyncState.exceeds id)
    (fun _ a => a ≠ .setCorrection false) (init 0) sleepTrace
    (fun s => s.devExit = false ∧ s.correction = 5) (by decide +kernel)
  obtain ⟨hd, hc⟩ := of_decide_eq_true hs
  have hrun : Run (step SyncState.exceeds id) (ResetsAccepted SyncState.exceeds) (init 0)
      sleepTrace s := by
    refine h.mono fun s a ha => ?_
    cases a with
    | setCorrection accepted =>
      cases accepted with
      | true => exact .inl rfl
      | false => exact absurd rfl ha
    | _ => trivial
  exact ⟨s, hrun, hd, hc, correction_of_run hrun hd⟩

/-! ## The exit -/

/-- How many steps the controller can take in the body of its loop and to the test behind it. -/
def bodyLeft (s : SyncState L) : ℕ :=
  match s.ctrl with
  | .waitSync => 11
  | .woke => 10
  | .request => match s.req .controller with
    | .out => 9
    | .requested => 8
    | .cleared => 7
    | .blocked => 6
  | .readLag => 5
  | .branch _ => 4

/-- How many steps the controller can take once `do_exit` is stored. -/
def exitLeft (s : ControllerState L K) : ℕ :=
  match s.pc with
  | .body => bodyLeft s.sync
  | .sleeping => 3
  | .resetting | .synchronizing => 2
  | .test => 1
  | .finished => 0

omit [Zero K] in
theorem exitLeft_le (s : ControllerState L K) : s.exitLeft ≤ 11 := by
  unfold exitLeft bodyLeft
  split <;> first | omega | skip
  split <;> first | omega | skip
  split <;> omega

theorem bodyLeft_eq {s t : SyncState L} (hc : t.ctrl = s.ctrl)
    (hr : t.req .controller = s.req .controller) : bodyLeft t = bodyLeft s := by
  simp only [bodyLeft, hc, hr]

omit [Zero K] in
theorem Controls.bodyLeft_lt {s : ControllerState L K} {t : SyncState L} {a : SyncAction L}
    (h : Controls big s) (hs : CtrlStep s.sync a t) (ha : a.ofController = true) :
    bodyLeft t < bodyLeft s.sync := by
  have hs' := h.own_step hs ha
  cases hs with
  | wake hc _ ht => simp [bodyLeft, hc, ht]
  | retest hc ht =>
    subst ht
    have hr : s.sync.req .controller = .out := by_contra fun hr => nomatch hc.symm.trans (h.request hr)
    simp [bodyLeft, hc, hs'.1, hr]
  | request hc hr ht hr' => simp [bodyLeft, hc, hr, ht, hr']
  | clearReady hr ht hr' =>
    have hc := h.request (by simp [hr])
    simp [bodyLeft, ht, hc, hr, hr']
  | block hr ht hr' =>
    have hc := h.request (by simp [hr])
    simp [bodyLeft, ht, hc, hr, hr']
  | ret hr ht =>
    have hc := h.request (by rcases hr with hr | hr <;> simp [hr])
    rcases hr with hr | hr <;> simp [bodyLeft, ht, hc, hr]
  | readLag hc ht => simp [bodyLeft, hc, ht]
  | clear => cases ha
  | other hno => rw [hno] at ha; cases ha

/-- Once `do_exit` is stored, each step of the controller brings it nearer to its end. -/
theorem ControllerStep.exitLeft_le {s : ControllerState L K} {a : ControllerAction L}
    (hc : Controls big s) (hd : s.doExit = true) (hs : ControllerStep big rate s a s') :
    s'.exitLeft + (if a.ofController then 1 else 0) ≤ s.exitLeft := by
  cases hs with
  | loopTest hp => simp [exitLeft, hp, hd, ControllerAction.ofController]
  | @sync a t ha hp ht =>
    have hcase := SyncState.ctrl_cases ha ht
    rw [hc.afterSync_eq hcase]
    cases hown : a.ofController with
    | true =>
      have hlt := hc.bodyLeft_lt hcase hown
      simp only [exitLeft, hp hown, ControllerAction.ofController, hown]
      exact hlt
    | false =>
      obtain ⟨hct, hr, -⟩ := hcase.other_thread hown
      simp [exitLeft, ControllerAction.ofController, hown, bodyLeft_eq hct hr]
  | correct accepted hp hb => simp [exitLeft, hp, bodyLeft, hb, ControllerAction.ofController]
  | small accepted hp hb => simp [exitLeft, hp, bodyLeft, hb, ControllerAction.ofController]
  | wakeUp hp => simp [exitLeft, hp, ControllerAction.ofController]
  | reset accepted hp => simp [exitLeft, hp, ControllerAction.ofController]
  | synchronize hp => simp [exitLeft, hp, ControllerAction.ofController]
  | storeDoExit => simp [exitLeft, ControllerAction.ofController]
  | desynchronize => simp [exitLeft, bodyLeft, ControllerAction.ofController]
  | storeDevExit => simp [exitLeft, ControllerAction.ofController]

/-- The controller waits in `requestfftblocking` for a lag, or for the end of `set_lag`. -/
def AwaitsLag (s : ControllerState L K) : Prop :=
  s.pc = .body ∧ (s.sync.req .controller = .cleared ∨ s.sync.req .controller = .blocked) ∧
    (s.sync.coherent = .readied ∨ s.sync.lagready = false)

/-- The controller can take a step. -/
def CanMove (big : L → Bool) (rate : L → K) (s : ControllerState L K) : Prop :=
  ∃ a s', a.ofController = true ∧ s.step big rate a = some s'

omit [Zero K] in
theorem syncStep_eq_some {s : ControllerState L K} {t : SyncState L} {a : SyncAction L}
    (hp : s.pc = .body) (ha : a.endsBody = false) (ht : s.sync.step big a = some t) :
    s.syncStep big a = some { s with sync := t, pc := s.afterSync a } := by
  simp [syncStep, hp, ha, ht]

/-- In the body of its loop, a controller that is not in a wait can move. -/
theorem Controls.body_progress {s : ControllerState L K} (rate : L → K) (hp : s.pc = .body)
    (hs : s.sync.synced = false) : CanMove big rate s ∨ s.AwaitsLag := by
  have hmove : ∀ {a : SyncAction L} {t : SyncState L}, a.ofController = true →
      a.endsBody = false → s.sync.step big a = some t → CanMove big rate s :=
    fun ha he ht => ⟨.sync _, _, ha, syncStep_eq_some hp he ht⟩
  cases hc : s.sync.ctrl with
  | waitSync => exact .inl (hmove (a := .wake) rfl rfl (by simp [SyncState.step, hc, hs]; rfl))
  | woke => exact .inl (hmove (a := .retest) rfl rfl (by simp [SyncState.step, hc]; rfl))
  | readLag => exact .inl (hmove (a := .readLag) rfl rfl (by simp [SyncState.step, hc]; rfl))
  | branch lag =>
    refine .inl ⟨.setCorrection true, ?_⟩
    simp only [ControllerAction.ofController, ControllerState.step, hp, hc, true_and]
    split <;> exact ⟨_, rfl⟩
  | request =>
    cases hr : s.sync.req .controller with
    | out =>
      exact .inl (hmove (a := .request .controller) rfl rfl
        (by simp [SyncState.step, hr, SyncState.mayRequest, hc]; rfl))
    | requested =>
      exact .inl (hmove (a := .clearReady .controller) rfl rfl (by simp [SyncState.step, hr]; rfl))
    | cleared =>
      by_cases hw : s.sync.coherent = .readied ∨ s.sync.lagready = false
      · exact .inr ⟨hp, .inl hr, hw⟩
      · rw [not_or, Bool.not_eq_false] at hw
        exact .inl (hmove (a := .ret .controller) rfl rfl
          (by simp [SyncState.step, hr, hw]; rfl))
    | blocked =>
      by_cases hw : s.sync.coherent = .readied ∨ s.sync.lagready = false
      · exact .inr ⟨hp, .inr hr, hw⟩
      · rw [not_or, Bool.not_eq_false] at hw
        exact .inl (hmove (a := .ret .controller) rfl rfl
          (by simp [SyncState.step, hr, hw]; rfl))

theorem Controls.progress {s : ControllerState L K} (rate : L → K) (h : Controls big s)
    (he : s.exit = .desynchronized ∨ s.exit = .done) :
    s.pc = .finished ∨ CanMove big rate s ∨ s.AwaitsLag := by
  cases hp : s.pc with
  | test => exact .inr (.inl ⟨.loopTest, _, rfl, by simp only [ControllerState.step, hp]; rfl⟩)
  | body =>
    have hs : s.sync.synced = false :=
      Bool.eq_false_iff.mpr fun hs => by simpa [hp] using h.desynchronized he hs
    exact .inr (Controls.body_progress rate hp hs)
  | sleeping => exact .inr (.inl ⟨.wakeUp, _, rfl, by simp only [ControllerState.step, hp]; rfl⟩)
  | resetting =>
    obtain ⟨lag, hc, hb⟩ := h.correcting (.inr hp)
    refine .inr (.inl ⟨.setCorrection true, ?_⟩)
    simp [ControllerAction.ofController, ControllerState.step, hp, SyncState.step, hc, hb]
  | synchronizing =>
    obtain ⟨lag, hc, hb⟩ := h.synchronizing hp
    refine .inr (.inl ⟨.synchronize, ?_⟩)
    simp [ControllerAction.ofController, ControllerState.step, hp, SyncState.step, hc, hb]
  | finished => exact .inl rfl

theorem ControllerStep.exit_mono {s : ControllerState L K} {a : ControllerAction L}
    (he : s.exit = .desynchronized ∨ s.exit = .done) (hs : ControllerStep big rate s a s') :
    s'.exit = .desynchronized ∨ s'.exit = .done := by
  cases hs with
  | correct | small | reset => simpa using he
  | storeDoExit hr => simp [hr] at he
  | desynchronize hr => simp [hr] at he
  | storeDevExit => exact .inr rfl
  | _ => exact he

/-- `ccontrol::request_exit` has returned. -/
def Ended (big : L → Bool) (s : ControllerState L K) : Prop :=
  Controls big s ∧ (s.exit = .desynchronized ∨ s.exit = .done)

omit [Zero K] in
theorem Ended.doExit {s : ControllerState L K} (h : Ended big s) : s.doExit = true :=
  h.1.doExit (by rcases h.2 with he | he <;> simp [he])

theorem Ended.step {s : ControllerState L K} {a : ControllerAction L} (h : Ended big s)
    (hs : ControllerStep big rate s a s') : Ended big s' :=
  ⟨h.1.step hs, hs.exit_mono h.2⟩

/-- Once `ccontrol::request_exit` has returned, the controller takes at most eleven steps more; after
each of them, and between them, it has finished, can move, or waits for a lag. -/
theorem exit_of_run {lag : L} {s₀ s : ControllerState L K} {tr₀ tr : List (ControllerAction L)}
    (h₀ : Run (step big rate) anyStep (init lag) tr₀ s₀)
    (he : s₀.exit = .desynchronized ∨ s₀.exit = .done) (h : Run (step big rate) anyStep s₀ tr s) :
    tr.countP ControllerAction.ofController ≤ 11 ∧
      (s.pc = .finished ∨ CanMove big rate s ∨ s.AwaitsLag) := by
  have hi₀ : Ended big s₀ := ⟨controls_of_run h₀, he⟩
  have hi : Ended big s := h.invariant hi₀ fun _ _ _ hi _ hs => hi.step (step_cases hs)
  have hle : (tr.countP ControllerAction.ofController : ℤ) + s.exitLeft ≤ s₀.exitLeft := by
    refine h.countP_le (I := Ended big) (fun s => (s.exitLeft : ℤ)) hi₀ fun s a s' hi _ hs => ?_
    refine ⟨hi.step (step_cases hs), ?_⟩
    exact_mod_cast (step_cases hs).exitLeft_le hi.1 hi.doExit
  have hmax := s₀.exitLeft_le
  exact ⟨by omega, hi.1.progress rate hi.2⟩

/-- `main` ends the controller that sleeps. -/
def endTrace : List (ControllerAction Int) := [.exit, .exit]

theorem exit_of_run_sleeping :
    ∃ s₀ s : ControllerState Int Int,
      Run (step SyncState.exceeds id) anyStep (init 0) (sleepTrace ++ endTrace) s₀ ∧
      s₀.exit = .desynchronized ∧ s.pc = .finished ∧
      Run (step SyncState.exceeds id) anyStep s₀ [.wakeUp, .setCorrection true, .loopTest] s ∧
      [ControllerAction.wakeUp, .setCorrection true, .loopTest].countP
        (ControllerAction.ofController (L := Int)) ≤ 11 ∧
      (s.pc = .finished ∨ CanMove SyncState.exceeds id s ∨ s.AwaitsLag) := by
  let step := step (L := Int) (K := Int) SyncState.exceeds id
  obtain ⟨s₀, h₀, hs₀⟩ := Run.exists_of_exec step anyStep (init 0) (sleepTrace ++ endTrace)
    (fun s => s.exit = .desynchronized ∧
      (exec step anyStep s [.wakeUp, .setCorrection true, .loopTest]).any (·.pc = .finished))
    (by decide +kernel)
  obtain ⟨he, hend⟩ := of_decide_eq_true hs₀
  obtain ⟨s, h, hp⟩ := Run.exists_of_exec step anyStep s₀ _ (·.pc = .finished) hend
  have hexit := exit_of_run h₀ (.inl he) h
  exact ⟨s₀, s, h₀, he, of_decide_eq_true hp, h, hexit⟩

end ControllerState
end Aegir
