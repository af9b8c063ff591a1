import Aegir.Model.Sync

/-!
# A device is measured again after its synchronization is cleared

The controller decides on a lag that it has read, and stores `synced = true` whatever the console has
done in the meantime. As long as the console has not cleared the flag since the request that the lag
answers, a true flag says that a measurement was requested and completed after every clear
(`answered_of_run`).
-/

namespace Aegir.SyncState

variable {L : Type*} {big : L → Bool} {s : SyncState L} {tr : List (SyncAction L)}

/-- After every clear of `synced` the controller has asked for a lag, and the request has
returned. -/
def Answered (tr : List (SyncAction L)) : Prop :=
  ∀ before after, tr = before ++ .clear :: after →
    [.request .controller, .ret .controller].Sublist after

/-- The controller stores `synced = true` only when the console has not cleared it since the
controller's last request. -/
def RequestedSinceClear (s : SyncState L) : SyncAction L → Prop
  | .synchronize => s.clearPending = false
  | _ => True

instance (a : SyncAction L) : Decidable (RequestedSinceClear s a) :=
  match a with
  | .synchronize => inferInstanceAs (Decidable (s.clearPending = false))
  | .wake | .retest | .request _ | .clearReady _ | .block _ | .ret _ | .readLag | .correct | .clear
  | .test | .storeLag _ | .setReady | .setRequested => .isTrue trivial

/-- The controller is past the wait of its last request. -/
def CtrlPc.Measured : CtrlPc L → Prop
  | .readLag | .branch _ => True
  | _ => False

/-! ## The steps -/

/-- What a step can do to `synced` and to the position of the controller. -/
inductive SyncStep (s : SyncState L) : SyncAction L → SyncState L → Prop
  | request {s'} : s.ctrl = .request → s'.ctrl = s.ctrl → s'.synced = s.synced →
      s'.clearPending = false → SyncStep s (.request .controller) s'
  | ret {s'} : s'.synced = s.synced → s'.clearPending = s.clearPending →
      SyncStep s (.ret .controller) s'
  | synchronize {s'} : CtrlPc.Measured s.ctrl → ¬ CtrlPc.Measured s'.ctrl → s'.synced = true →
      s'.clearPending = s.clearPending → SyncStep s .synchronize s'
  | clear {s'} : s'.ctrl = s.ctrl → s'.synced = false → s'.clearPending = true →
      SyncStep s .clear s'
  | other {a s'} : a ≠ .clear → a ≠ .request .controller → a ≠ .synchronize →
      (CtrlPc.Measured s'.ctrl → CtrlPc.Measured s.ctrl) → s'.synced = s.synced →
      s'.clearPending = s.clearPending → SyncStep s a s'

variable {s' : SyncState L}

theorem step_sync {a : SyncAction L} (h : s.step big a = some s') : SyncStep s a s' := by
  cases a <;> simp only [step] at h
  case wake =>
    split at h
    · split at h <;> cases h
      exact .other (by simp) (by simp) (by simp) (by simp [CtrlPc.Measured]) rfl rfl
    · cases h
  case retest =>
    split at h <;> cases h
    refine .other (by simp) (by simp) (by simp) ?_ rfl rfl
    intro hm
    dsimp only at hm
    split at hm <;> exact hm.elim
  case request c =>
    split at h <;> cases h
    rename_i hc
    cases c with
    | controller =>
      refine .request ?_ rfl rfl rfl
      have := hc.2
      simp only [mayRequest] at this
      split at this
      · assumption
      · cases this
    | console => exact .other (by simp) (by simp) (by simp) id rfl rfl
  case ret c =>
    split at h <;> cases h
    cases c with
    | controller => exact .ret rfl rfl
    | console => exact .other (by simp) (by simp) (by simp) (by simp) rfl rfl
  case readLag =>
    split at h <;> cases h
    rename_i hc
    exact .other (by simp) (by simp) (by simp) (by simp [hc, CtrlPc.Measured]) rfl rfl
  case correct =>
    split at h
    · split at h <;> cases h
      exact .other (by simp) (by simp) (by simp) (by simp [CtrlPc.Measured]) rfl rfl
    · cases h
  case synchronize =>
    split at h
    · rename_i hc
      split at h <;> cases h
      exact .synchronize (by simp [hc, CtrlPc.Measured]) (by simp [CtrlPc.Measured]) rfl rfl
    · cases h
  case clear =>
    split at h <;> cases h
    exact .clear rfl rfl rfl
  all_goals
    split at h <;> cases h
    exact .other (by simp) (by simp) (by simp) id rfl rfl

/-! ## The history -/

/-- A split of a longer history is a split of the history, or a split at its last action. -/
theorem snoc_eq_append_cons {α : Type*} {tr before after : List α} {x y : α}
    (h : tr ++ [x] = before ++ y :: after) :
    (x = y ∧ tr = before ∧ after = []) ∨
      ∃ after', after = after' ++ [x] ∧ tr = before ++ y :: after' := by
  rcases List.eq_nil_or_concat after with rfl | ⟨after', z, rfl⟩
  · obtain ⟨h₁, h₂⟩ := List.append_inj' h rfl
    exact .inl ⟨by simpa using h₂, h₁, rfl⟩
  · rw [List.concat_eq_append, ← List.cons_append, ← List.append_assoc] at h
    obtain ⟨h₁, h₂⟩ := List.append_inj' h rfl
    obtain rfl : x = z := by simpa using h₂
    exact .inr ⟨after', by simp, h₁⟩

theorem Answered.snoc {a : SyncAction L} (h : Answered tr) (ha : a ≠ .clear) :
    Answered (tr ++ [a]) := by
  intro before after hsplit
  rcases snoc_eq_append_cons hsplit with ⟨rfl, -, -⟩ | ⟨after', rfl, htr⟩
  · exact absurd rfl ha
  · exact (h before after' htr).trans (List.sublist_append_left _ _)

/-- What the flags say about the history. -/
structure ClearInv (tr : List (SyncAction L)) (s : SyncState L) : Prop where
  /-- The console has cleared the flag since the last request. -/
  pending : s.clearPending = true →
    ∃ before after, tr = before ++ .clear :: after ∧ .request .controller ∉ after
  requested : s.clearPending = false →
    ∀ before after, tr = before ++ .clear :: after → .request .controller ∈ after
  /-- The last request has returned. -/
  measured : CtrlPc.Measured s.ctrl → ∀ before after, tr = before ++ after →
    .request .controller ∈ after → [.request .controller, .ret .controller].Sublist after

theorem ClearInv.init (lag : L) : ClearInv [] (init lag) where
  pending := nofun
  requested _ before after h := by cases before <;> cases h
  measured := nofun

theorem ClearInv.step {a : SyncAction L} (hi : ClearInv tr s) (h : s.step big a = some s') :
    ClearInv (tr ++ [a]) s' := by
  -- a clear that is pending stays so until a request, one that is not stays so until a clear
  have hpending : a ≠ .request .controller → s.clearPending = true →
      ∃ before after, tr ++ [a] = before ++ .clear :: after ∧ .request .controller ∉ after := by
    intro ha hp
    obtain ⟨before, after, rfl, hr⟩ := hi.pending hp
    exact ⟨before, after ++ [a], by simp, by simp [hr, ha.symm]⟩
  have hrequested : a ≠ .clear → s.clearPending = false →
      ∀ before after, tr ++ [a] = before ++ .clear :: after → .request .controller ∈ after := by
    intro ha hp before after hsplit
    rcases snoc_eq_append_cons hsplit with ⟨rfl, -, -⟩ | ⟨after', rfl, htr⟩
    · exact absurd rfl ha
    · exact List.mem_append_left _ (hi.requested hp before after' htr)
  have hmeasured : a ≠ .request .controller → CtrlPc.Measured s.ctrl →
      ∀ before after, tr ++ [a] = before ++ after → .request .controller ∈ after →
        [.request .controller, .ret .controller].Sublist after := by
    intro ha hm before after hsplit hr
    rcases List.eq_nil_or_concat after with rfl | ⟨after', z, rfl⟩
    · cases hr
    · rw [List.concat_eq_append, ← List.append_assoc] at hsplit
      obtain ⟨htr, hz⟩ := List.append_inj' hsplit rfl
      obtain rfl : a = z := by simpa using hz
      have hr' : .request .controller ∈ after' := by simpa [ha.symm] using hr
      exact (hi.measured hm before after' htr hr').trans (by simp)
  cases step_sync h with
  | request hc hc' _ hp =>
    refine ⟨by simp [hp], fun _ before after hsplit => ?_, fun hm => ?_⟩
    · rcases snoc_eq_append_cons hsplit with ⟨h, -, -⟩ | ⟨after', rfl, -⟩
      · cases h
      · simp
    · rw [hc', hc] at hm
      exact hm.elim
  | ret _ hp =>
    refine ⟨hp ▸ hpending (by simp), hp ▸ hrequested (by simp), fun _ before after hsplit hr => ?_⟩
    -- the request is behind the return that is taken now
    rcases List.eq_nil_or_concat after with rfl | ⟨after', z, rfl⟩
    · cases hr
    · rw [List.concat_eq_append, ← List.append_assoc] at hsplit
      obtain ⟨-, hz⟩ := List.append_inj' hsplit rfl
      obtain rfl : .ret .controller = z := by simpa using hz
      have hr' : .request .controller ∈ after' := by simpa using hr
      rw [List.concat_eq_append]
      exact (List.singleton_sublist.mpr hr').append (List.Sublist.refl _)
  | synchronize _ hc' _ hp =>
    exact ⟨hp ▸ hpending (by simp), hp ▸ hrequested (by simp), fun hm => absurd hm hc'⟩
  | clear hc' _ hp =>
    exact ⟨fun _ => ⟨tr, [], rfl, by simp⟩, by simp [hp], hc' ▸ hmeasured (by simp)⟩
  | other hclear hrequest _ hc' _ hp =>
    exact ⟨hp ▸ hpending hrequest, hp ▸ hrequested hclear, fun hm => hmeasured hrequest (hc' hm)⟩

/-- With no clear since its request, the measurement that the controller decides on answers every
clear. -/
theorem ClearInv.answered (hi : ClearInv tr s) (hm : CtrlPc.Measured s.ctrl)
    (hp : s.clearPending = false) : Answered tr := by
  intro before after htr
  exact hi.measured hm (before ++ [.clear]) after (by simp [htr]) (hi.requested hp before after htr)

theorem clearInv_of_run {ok : SyncState L → SyncAction L → Prop} {lag : L}
    (h : Run (SyncState.step big) ok (SyncState.init lag) tr s) : ClearInv tr s :=
  h.history (.init lag) fun _ _ _ _ hi _ hs => hi.step hs

/-- When the controller stores true only if the console has not cleared the flag since its last
request, a true flag says that every clear is answered; a store of true at any other time sets the
flag with a clear that is not answered. -/
theorem answered_of_run {lag : L}
    (h : Run (SyncState.step big) RequestedSinceClear (SyncState.init lag) tr s) :
    (s.synced = true → Answered tr) ∧
      ∀ s', s.step big .synchronize = some s' →
        (Answered (tr ++ [.synchronize]) ↔ s.clearPending = false) := by
  refine ⟨?_, fun s' hs => ⟨fun hans => ?_, fun hp => ?_⟩⟩
  · -- the flag becomes true by a store that the guard allows, and a clear makes it false
    refine h.history (I := fun tr s => ClearInv tr s ∧ (s.synced = true → Answered tr))
      ⟨.init lag, nofun⟩ (fun tr s a s' ⟨hi, hsync⟩ hok hs => ⟨hi.step hs, fun hs' => ?_⟩) |>.2
    cases step_sync hs with
    | request _ _ h _ => exact (hsync (h ▸ hs')).snoc (by simp)
    | ret h _ => exact (hsync (h ▸ hs')).snoc (by simp)
    | synchronize hm _ _ _ => exact (hi.answered hm hok).snoc (by simp)
    | clear _ h _ => simp [h] at hs'
    | other hclear _ _ _ h _ => exact (hsync (h ▸ hs')).snoc hclear
  · cases hp : s.clearPending with
    | false => rfl
    | true =>
      obtain ⟨before, after, rfl, hr⟩ := (clearInv_of_run h).pending hp
      have hsub := hans before (after ++ [.synchronize]) (by simp)
      have hmem : .request .controller ∈ after ++ [.synchronize] := hsub.subset (by simp)
      exact absurd hmem (by simpa using hr)
  · cases step_sync hs with
    | synchronize hm _ _ _ => exact ((clearInv_of_run h).answered hm hp).snoc (by simp)
    | other _ _ h _ _ _ => exact absurd rfl h

/-- The console clears the flag while the controller waits, and the controller measures again. -/
def measuredTrace : List (SyncAction Int) :=
  [.wake, .clear, .retest, .request .controller, .clearReady .controller, .block .controller,
    .test, .storeLag 0, .setReady, .setRequested, .ret .controller, .readLag, .synchronize]

theorem answered_measuredTrace :
    ∃ s, Run (SyncState.step exceeds) RequestedSinceClear (SyncState.init 0) measuredTrace s ∧
      s.synced = true ∧ Answered measuredTrace := by
  obtain ⟨s, hrun, hs⟩ := Run.exists_of_exec (SyncState.step exceeds) RequestedSinceClear
    (SyncState.init 0) measuredTrace (fun s => s.synced) (by decide)
  exact ⟨s, hrun, hs, (answered_of_run hrun).1 hs⟩

/-- The console clears the flag between the measurement and the store. -/
def overwrittenTrace : List (SyncAction Int) :=
  [.wake, .retest, .request .controller, .clearReady .controller, .test, .storeLag 0, .setReady,
    .setRequested, .ret .controller, .readLag, .clear, .synchronize]

/-- The store of the controller overwrites the clear. -/
theorem not_answered :
    ¬ ∀ (L : Type) (big : L → Bool) (lag : L) (tr : List (SyncAction L)) (s : SyncState L),
      Run (SyncState.step big) anyStep (SyncState.init lag) tr s → s.synced = true →
        Answered tr := by
  intro hclaim
  obtain ⟨s, hrun, hs⟩ := Run.exists_of_exec (SyncState.step exceeds) anyStep (SyncState.init 0)
    overwrittenTrace (fun s => s.synced) (by decide)
  have := hclaim Int exceeds 0 overwrittenTrace s hrun hs
    [.wake, .retest, .request .controller, .clearReady .controller, .test, .storeLag 0, .setReady,
      .setRequested, .ret .controller, .readLag] [.synchronize] rfl
  exact absurd this (by decide)

end Aegir.SyncState
