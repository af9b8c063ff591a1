import Aegir.Model.CommandQueue

/-!
# The command queue and its flag

`localc` stores `command_processed = false` after its push, when the console thread may have executed
the command and set the flag already; then the flag stays false and no more lines are read. When
the store comes while the console thread still has a command to execute, it sets the flag again before
it waits with an empty queue (`usable_of_run`).

The pointer `commandqueue` is never reset, so that `request_exit` of the main thread pushes on the
deleted queue whenever the console thread has gone through its exit first, as it has after `quit`.
When the queue is deleted only after the main thread is through with `request_exit`, no thread uses it
before it is created or after it is deleted (`live_of_run`).
-/

namespace Aegir

/-- The queue is the same, or a command has been pushed. -/
def QueuePtr.Extends (p p' : QueuePtr) : Prop := p' = p ∨ ∃ c, p' = p.push c

namespace QueuePtr.Extends

variable {p p' : QueuePtr}

theorem eq_null (h : p.Extends p') : p' = .null ↔ p = .null := by
  rcases h with rfl | ⟨c, rfl⟩
  · rfl
  · cases p <;> simp [push]

theorem eq_deleted (h : p.Extends p') : p' = .deleted ↔ p = .deleted := by
  rcases h with rfl | ⟨c, rfl⟩
  · rfl
  · cases p <;> simp [push]

theorem of_eq_nil (h : p.Extends p') (hnil : p' = .live []) : p = .live [] := by
  rcases h with rfl | ⟨c, rfl⟩
  · exact hnil
  · cases p <;> simp [push] at hnil

end QueuePtr.Extends

namespace QueueState

variable {s s' : QueueState} {a : QueueAction} {tr : List QueueAction}

/-! ## Steps -/

/-- A step of `localc`, which is running: it pushes at most one command. -/
structure LocalFrame (s s' : QueueState) : Prop where
  running : s.localc ≠ .notStarted ∧ s.localc ≠ .finished
  queue : s.commandqueue.Extends s'.commandqueue
  doExit : s'.doExit = s.doExit
  commandProcessed : s'.commandProcessed = s.commandProcessed ∨ s.localc = .storeProcessed
  console : s'.console = s.console
  remotec : s'.remotec = s.remotec
  main : s'.main = s.main

theorem localStep_frame {line : List Char} (h : s.localStep line = some s') : LocalFrame s s' := by
  cases hpc : s.localc with
  | push c =>
    simp only [localStep, hpc] at h
    cases h
    exact ⟨by simp [hpc], .inr ⟨c, rfl⟩, rfl, .inl rfl, rfl, rfl, rfl⟩
  | storeProcessed =>
    simp only [localStep, hpc] at h
    cases h
    exact ⟨by simp [hpc], .inl rfl, rfl, .inr hpc, rfl, rfl, rfl⟩
  | testExit | testProcessed | getline =>
    simp only [localStep, hpc] at h
    cases h
    exact ⟨by simp [hpc], .inl rfl, rfl, .inl rfl, rfl, rfl, rfl⟩
  | notStarted | finished =>
    simp only [localStep, hpc] at h
    cases h

/-- A step of `remotec`, which is running: it pushes at most one command. -/
structure RemoteFrame (s s' : QueueState) : Prop where
  running : s.remotec ≠ .notStarted ∧ s.remotec ≠ .finished
  queue : s.commandqueue.Extends s'.commandqueue
  doExit : s'.doExit = s.doExit
  commandProcessed : s'.commandProcessed = s.commandProcessed
  console : s'.console = s.console
  localc : s'.localc = s.localc
  main : s'.main = s.main

theorem remoteStep_frame {msg : Option (List Char)} (h : s.remoteStep msg = some s') :
    RemoteFrame s s' := by
  cases hpc : s.remotec with
  | push c =>
    simp only [remoteStep, hpc] at h
    cases h
    exact ⟨by simp [hpc], .inr ⟨c, rfl⟩, rfl, rfl, rfl, rfl, rfl⟩
  | testExit | recv =>
    simp only [remoteStep, hpc] at h
    cases h
    exact ⟨by simp [hpc], .inl rfl, rfl, rfl, rfl, rfl, rfl⟩
  | notStarted | finished =>
    simp only [remoteStep, hpc] at h
    cases h

/-- A step of `request_exit`: it pushes at most an empty command, when the pointer was not null. -/
structure ExitFrame (s s' : QueueState) (next : Option ExitPc) : Prop where
  queue : s.commandqueue.Extends s'.commandqueue
  doExit : s.doExit = true → s'.doExit = true
  commandProcessed : s'.commandProcessed = s.commandProcessed
  console : s'.console = s.console
  localc : s'.localc = s.localc
  remotec : s'.remotec = s.remotec
  main : s'.main = s.main
  pushing : next = some .push → s.commandqueue ≠ .null

theorem requestExit_frame (s : QueueState) (pc : ExitPc) :
    ExitFrame s (s.requestExit pc).1 (s.requestExit pc).2 := by
  cases pc with
  | storeDoExit => exact ⟨.inl rfl, fun _ => rfl, rfl, rfl, rfl, rfl, rfl, nofun⟩
  | storeExitConsole => exact ⟨.inl rfl, id, rfl, rfl, rfl, rfl, rfl, nofun⟩
  | testPointer =>
    exact ⟨.inl rfl, id, rfl, rfl, rfl, rfl, rfl, fun h hnull => by simp [requestExit, hnull] at h⟩
  | push => exact ⟨.inr ⟨[], rfl⟩, id, rfl, rfl, rfl, rfl, rfl, nofun⟩

/-- What the other threads leave to the console thread: they only push, and only `localc` clears
`command_processed`. -/
theorem step_of_ne_console (h : s.step a = some s') (ha : a ≠ .console) :
    s'.console = s.console ∧ s.commandqueue.Extends s'.commandqueue ∧
      (s.doExit = true → s'.doExit = true) ∧
      (s'.commandProcessed = s.commandProcessed ∨
        ∃ line, a = .localc line ∧ s.localc = .storeProcessed) := by
  cases a with
  | console => exact absurd rfl ha
  | localc line =>
    have hf := localStep_frame h
    exact ⟨hf.console, hf.queue, fun hd => hf.doExit.trans hd,
      hf.commandProcessed.imp_right fun hpc => ⟨line, rfl, hpc⟩⟩
  | remotec msg =>
    have hf := remoteStep_frame h
    exact ⟨hf.console, hf.queue, fun hd => hf.doExit.trans hd, .inl hf.commandProcessed⟩
  | main =>
    cases hpc : s.main with
    | exit pc =>
      simp only [step, mainStep, hpc] at h
      cases h
      have hf := s.requestExit_frame pc
      exact ⟨hf.console, hf.queue, hf.doExit, .inl hf.commandProcessed⟩
    | sending | join =>
      simp only [step, mainStep, hpc, Option.ite_none_right_eq_some] at h
      obtain ⟨-, h⟩ := h
      cases h
      exact ⟨rfl, .inl rfl, id, .inl rfl⟩
    | finished =>
      simp only [step, mainStep, hpc] at h
      cases h
  | interrupt =>
    cases h
    exact ⟨rfl, .inl rfl, id, .inl rfl⟩

/-! ## The flag -/

/-- The console thread waits in `pop`, or is about to. -/
def Waiting (s : QueueState) : Prop := s.console = .pop ∨ s.console = .loopTest ∧ s.doExit = false

instance : Decidable s.Waiting := inferInstanceAs (Decidable (_ ∨ _))

/-- When the console thread waits for a command, the queue is empty and `localc` is not between its
push and its store, `localc` may read a line. -/
def Usable (s : QueueState) : Prop :=
  s.commandqueue = .live [] → s.console = .pop → s.localc ≠ .storeProcessed →
    s.commandProcessed = true

/-- `localc` clears the flag while the console thread has a command to execute. -/
def ClearsInTime (s : QueueState) : QueueAction → Prop
  | .localc _ => s.localc = .storeProcessed → s.Waiting → s.commandqueue ≠ .live []
  | _ => True

instance : Decidable (s.ClearsInTime a) :=
  match a with
  | .localc _ => inferInstanceAs (Decidable (_ → _ → _))
  | .console | .remotec _ | .main | .interrupt => .isTrue trivial

/-- A cleared flag will be set again before the console thread waits with an empty queue. -/
def FlagInv (s : QueueState) : Prop :=
  s.commandProcessed = false → s.Waiting → s.commandqueue ≠ .live []

/-- The console thread comes to wait only from its loop test, or when it has just set the flag. -/
theorem waiting_of_console (h : s.step .console = some s') (hwait : s'.Waiting) :
    s'.commandProcessed = true ∨
      s.Waiting ∧ s'.commandqueue = s.commandqueue ∧ s'.commandProcessed = s.commandProcessed := by
  cases hpc : s.console with
  | storeInitial | storeProcessed =>
    simp only [step, consoleStep, hpc] at h
    cases h
    exact .inl rfl
  | loopTest =>
    simp only [step, consoleStep, hpc] at h
    cases h
    cases hd : s.doExit with
    | false => exact .inr ⟨.inr ⟨hpc, hd⟩, rfl, rfl⟩
    | true => simp [Waiting, hd] at hwait
  | pop =>
    simp only [step, consoleStep, hpc] at h
    split at h <;> cases h
    simp [Waiting] at hwait
  | quit pc =>
    simp only [step, consoleStep, hpc] at h
    cases h
    cases hn : (s.requestExit pc).2 <;> simp [Waiting, hn] at hwait
  | popped c =>
    simp only [step, consoleStep, hpc] at h
    cases h
    by_cases hq : s.doExit = false ∧ parsecmd c = .quit <;> simp [Waiting, hq] at hwait
  | joinLocal | joinRemote =>
    simp only [step, consoleStep, hpc, Option.ite_none_right_eq_some] at h
    obtain ⟨-, h⟩ := h
    cases h
    simp [Waiting] at hwait
  | create | startLocal | startRemote | storeExitConsole | delete | raise =>
    simp only [step, consoleStep, hpc] at h
    cases h
    simp [Waiting] at hwait
  | finished =>
    simp only [step, consoleStep, hpc] at h
    cases h

theorem FlagInv.step (hi : s.FlagInv) (hok : s.ClearsInTime a) (h : s.step a = some s') :
    s'.FlagInv := by
  intro hfalse hwait
  by_cases ha : a = .console
  · subst ha
    rcases waiting_of_console h hwait with htrue | ⟨hwait', hqueue, hflag⟩
    · simp [htrue] at hfalse
    · rw [hqueue]
      exact hi (hflag ▸ hfalse) hwait'
  · obtain ⟨hpc, hqueue, hexit, hflag⟩ := step_of_ne_console h ha
    have hwait' : s.Waiting := by
      rcases hwait with hpop | ⟨hloop, hno⟩
      · exact .inl (hpc ▸ hpop)
      · refine .inr ⟨hpc ▸ hloop, ?_⟩
        cases hd : s.doExit with
        | false => rfl
        | true => rw [hexit hd] at hno; cases hno
    intro hempty
    have hempty' := hqueue.of_eq_nil hempty
    rcases hflag with hflag | ⟨line, rfl, hstore⟩
    · exact hi (hflag ▸ hfalse) hwait' hempty'
    · exact hok hstore hwait' hempty'

/-- When `localc` clears the flag only while the console thread has a command to execute, it may read a
line whenever the console thread waits with an empty queue. -/
theorem usable_of_run (h : Run step ClearsInTime init tr s) : s.Usable := by
  have hinv : s.FlagInv := h.invariant (fun _ hwait => by simp [Waiting, init] at hwait)
    fun _ _ _ hi hok hs => hi.step hok hs
  intro hempty hpop _
  by_contra hflag
  exact hinv (Bool.eq_false_of_not_eq_true hflag) (.inl hpop) hempty

instance : Decidable s.Usable := inferInstanceAs (Decidable (_ → _ → _ → _))

/-- The console thread starts and waits for a command. -/
def startTrace : List QueueAction := List.replicate 5 .console

/-- `localc` reads the line `status` and pushes it. -/
def statusTrace : List QueueAction := List.replicate 4 (.localc (chars "status"))

/-- The console thread executes a command and waits again. -/
def executeTrace : List QueueAction := List.replicate 4 .console

/-- A command for which the flag is cleared before it is executed. -/
def promptTrace : List QueueAction := startTrace ++ statusTrace ++ [.localc []] ++ executeTrace

theorem usable_promptTrace :
    ∃ s, Run step ClearsInTime init promptTrace s ∧ s.commandqueue = .live [] ∧ s.console = .pop ∧
      s.localc = .testExit ∧ s.Usable := by
  obtain ⟨s, hrun, hs⟩ := Run.exists_of_exec step ClearsInTime init promptTrace
    (fun s => s.commandqueue = .live [] ∧ s.console = .pop ∧ s.localc = .testExit)
    (by decide +kernel)
  obtain ⟨hq, hc, hl⟩ := of_decide_eq_true hs
  exact ⟨s, hrun, hq, hc, hl, usable_of_run hrun⟩

/-- A command that is executed before the flag is cleared. -/
def overtakenTrace : List QueueAction := startTrace ++ statusTrace ++ executeTrace ++ [.localc []]

/-- The flag stays false, and `localc` spins without reading another line. -/
theorem not_usable : ¬ ∀ tr s, Run step anyStep init tr s → s.Usable := by
  intro hclaim
  obtain ⟨s, hrun, hs⟩ := Run.exists_of_exec step anyStep init overtakenTrace (fun s => ¬ s.Usable)
    (by decide +kernel)
  exact of_decide_eq_true hs (hclaim _ _ hrun)

/-! ## The lifetime of the queue -/

/-- `localc` has been joined. -/
def LocalJoined : ConsolePc → Prop
  | .joinRemote | .delete | .raise | .finished => True
  | _ => False

/-- `remotec` has been joined. -/
def RemoteJoined : ConsolePc → Prop
  | .delete | .raise | .finished => True
  | _ => False

/-- The main thread is through with `request_exit`. -/
def ExitRequested : MainPc → Prop
  | .join | .finished => True
  | _ => False

/-- The console thread deletes the queue after `request_exit` of the main thread. -/
def DeletesLast (s : QueueState) : QueueAction → Prop
  | .console => s.console = .delete → ExitRequested s.main
  | _ => True

instance (pc : MainPc) : Decidable (ExitRequested pc) :=
  match pc with
  | .join | .finished => .isTrue trivial
  | .sending | .exit _ => .isFalse id

instance : Decidable (s.DeletesLast a) :=
  match a with
  | .console => inferInstanceAs (Decidable (_ → _))
  | .localc _ | .remotec _ | .main | .interrupt => .isTrue trivial

/-- Who may still use the queue. -/
structure QueueInv (s : QueueState) : Prop where
  created : s.commandqueue = .null → s.console = .create
  localStarted : s.localc ≠ .notStarted → s.console ≠ .create
  remoteStarted : s.remotec ≠ .notStarted → s.console ≠ .create
  localJoined : LocalJoined s.console → s.localc = .finished
  remoteJoined : RemoteJoined s.console → s.remotec = .finished
  pushing : s.main = .exit .push → s.commandqueue ≠ .null
  deleted : s.commandqueue = .deleted →
    (s.console = .raise ∨ s.console = .finished) ∧ ExitRequested s.main

theorem QueueInv.not_deleted (hi : s.QueueInv) (h : ¬ ExitRequested s.main) :
    s.commandqueue ≠ .deleted := fun hd => h (hi.deleted hd).2

/-- No thread uses the queue before it is created or after it is deleted. -/
theorem QueueInv.live (hi : s.QueueInv) (ha : s.accesses a = true) :
    ∃ q, s.commandqueue = .live q := by
  have hlive : s.commandqueue ≠ .null → s.commandqueue ≠ .deleted →
      ∃ q, s.commandqueue = .live q := by
    intro hn hd
    cases hq : s.commandqueue with
    | null => exact absurd hq hn
    | live q => exact ⟨q, rfl⟩
    | deleted => exact absurd hq hd
  cases a with
  | console =>
    have hpc : s.console = .pop ∨ s.console = .quit .push := by simpa [accesses] using ha
    refine hlive (fun hn => ?_) fun hd => ?_
    · have := hi.created hn
      rcases hpc with h | h <;> simp [h] at this
    · rcases hpc with h | h <;> rcases (hi.deleted hd).1 with h' | h' <;> simp [h] at h'
  | localc line =>
    obtain ⟨c, hpc⟩ : ∃ c, s.localc = .push c := by
      cases hpc : s.localc <;> simp [accesses, hpc] at ha ⊢
    refine hlive (fun hn => hi.localStarted (by simp [hpc]) (hi.created hn)) fun hd => ?_
    have := hi.localJoined (by rcases (hi.deleted hd).1 with h | h <;> rw [h] <;> trivial)
    simp [hpc] at this
  | remotec msg =>
    obtain ⟨c, hpc⟩ : ∃ c, s.remotec = .push c := by
      cases hpc : s.remotec <;> simp [accesses, hpc] at ha ⊢
    refine hlive (fun hn => hi.remoteStarted (by simp [hpc]) (hi.created hn)) fun hd => ?_
    have := hi.remoteJoined (by rcases (hi.deleted hd).1 with h | h <;> rw [h] <;> trivial)
    simp [hpc] at this
  | main =>
    have hpc : s.main = .exit .push := by simpa [accesses] using ha
    exact hlive (hi.pushing hpc) (hi.not_deleted (by rw [hpc]; exact id))
  | interrupt => simp [accesses] at ha

theorem QueueInv.localStep {line : List Char} (hi : s.QueueInv) (h : s.localStep line = some s') :
    s'.QueueInv := by
  have hf := localStep_frame h
  have hc := hi.localStarted hf.running.1
  have hj : ¬ LocalJoined s.console := fun hj => hf.running.2 (hi.localJoined hj)
  constructor
  · rw [hf.queue.eq_null, hf.console]
    exact hi.created
  · exact fun _ => hf.console ▸ hc
  · rw [hf.remotec, hf.console]
    exact hi.remoteStarted
  · exact fun h => absurd (hf.console ▸ h) hj
  · rw [hf.remotec, hf.console]
    exact hi.remoteJoined
  · rw [hf.main, Ne, hf.queue.eq_null]
    exact hi.pushing
  · rw [hf.main, hf.queue.eq_deleted, hf.console]
    exact hi.deleted

theorem QueueInv.remoteStep {msg : Option (List Char)} (hi : s.QueueInv)
    (h : s.remoteStep msg = some s') : s'.QueueInv := by
  have hf := remoteStep_frame h
  have hc := hi.remoteStarted hf.running.1
  have hj : ¬ RemoteJoined s.console := fun hj => hf.running.2 (hi.remoteJoined hj)
  constructor
  · rw [hf.queue.eq_null, hf.console]
    exact hi.created
  · rw [hf.localc, hf.console]
    exact hi.localStarted
  · exact fun _ => hf.console ▸ hc
  · rw [hf.localc, hf.console]
    exact hi.localJoined
  · exact fun h => absurd (hf.console ▸ h) hj
  · rw [hf.main, Ne, hf.queue.eq_null]
    exact hi.pushing
  · rw [hf.main, hf.queue.eq_deleted, hf.console]
    exact hi.deleted

theorem QueueInv.mainStep (hi : s.QueueInv) (h : s.mainStep = some s') : s'.QueueInv := by
  cases hpc : s.main with
  | sending =>
    simp only [QueueState.mainStep, hpc, Option.ite_none_right_eq_some] at h
    obtain ⟨-, h⟩ := h
    cases h
    have hd := hi.not_deleted (by rw [hpc]; exact id)
    exact { hi with
      pushing := nofun
      deleted := fun h => absurd h hd }
  | exit pc =>
    simp only [QueueState.mainStep, hpc] at h
    cases h
    have hf := s.requestExit_frame pc
    have hd := hi.not_deleted (by rw [hpc]; exact id)
    constructor <;> simp only [hf.queue.eq_null, hf.queue.eq_deleted, hf.console, hf.localc,
      hf.remotec, ne_eq]
    · exact hi.created
    · exact hi.localStarted
    · exact hi.remoteStarted
    · exact hi.localJoined
    · exact hi.remoteJoined
    · intro h
      cases hn : (s.requestExit pc).2 with
      | none => simp [hn] at h
      | some pc' =>
        simp only [hn, Option.elim_some, MainPc.exit.injEq] at h
        exact hf.pushing (h ▸ hn)
    · exact fun h => absurd h hd
  | join =>
    simp only [QueueState.mainStep, hpc, Option.ite_none_right_eq_some] at h
    obtain ⟨-, h⟩ := h
    cases h
    exact { hi with
      pushing := nofun
      deleted := fun h => ⟨(hi.deleted h).1, trivial⟩ }
  | finished =>
    simp only [QueueState.mainStep, hpc] at h
    cases h

/-- The console thread goes on when the queue has been created. -/
theorem QueueInv.of_console (hi : s.QueueInv) (hc : s.console ≠ .create) (hc' : s'.console ≠ .create)
    (hmain : s'.main = s.main) (hnull : s'.commandqueue = .null → s.commandqueue = .null)
    (hdel : s'.commandqueue = .deleted →
      (s'.console = .raise ∨ s'.console = .finished) ∧ ExitRequested s.main)
    (hlocal : LocalJoined s'.console → s'.localc = .finished)
    (hremote : RemoteJoined s'.console → s'.remotec = .finished) : s'.QueueInv where
  created h := absurd (hi.created (hnull h)) hc
  localStarted _ := hc'
  remoteStarted _ := hc'
  localJoined := hlocal
  remoteJoined := hremote
  pushing _ h' := hc (hi.created (hnull h'))
  deleted h := hmain ▸ hdel h

/-- The console thread is between the creation of the queue and the first join. -/
structure Working (pc : ConsolePc) : Prop where
  created : pc ≠ .create
  localc : ¬ LocalJoined pc
  remotec : ¬ RemoteJoined pc

theorem Working.of_ite {p : Prop} [Decidable p] {pc pc' : ConsolePc} (h : Working pc)
    (h' : Working pc') : Working (if p then pc else pc') := by
  split <;> assumption

theorem QueueInv.of_working (hi : s.QueueInv) (hw : Working s.console) (hw' : Working s'.console)
    (hmain : s'.main = s.main) (hnull : s'.commandqueue = .null → s.commandqueue = .null)
    (hdel : s'.commandqueue = .deleted → s.commandqueue = .deleted) : s'.QueueInv := by
  refine hi.of_console hw.created hw'.created hmain hnull (fun h => ?_)
    (fun h => absurd h hw'.localc) fun h => absurd h hw'.remotec
  -- a deleted queue is behind both joins
  rcases (hi.deleted (hdel h)).1 with hr | hf
  · exact absurd (hr ▸ trivial) hw.localc
  · exact absurd (hf ▸ trivial) hw.localc

theorem QueueInv.consoleStep (hi : s.QueueInv) (hok : s.DeletesLast .console)
    (h : s.consoleStep = some s') : s'.QueueInv := by
  cases hpc : s.console with
  | create =>
    simp only [QueueState.consoleStep, hpc] at h
    cases h
    exact ⟨nofun, nofun, nofun, False.elim, False.elim, nofun, nofun⟩
  | startLocal | startRemote | storeInitial | storeExitConsole | storeProcessed =>
    simp only [QueueState.consoleStep, hpc] at h
    cases h
    exact hi.of_working (hpc ▸ ⟨nofun, id, id⟩) ⟨nofun, id, id⟩ rfl id id
  | loopTest =>
    simp only [QueueState.consoleStep, hpc] at h
    cases h
    exact hi.of_working (hpc ▸ ⟨nofun, id, id⟩) (.of_ite ⟨nofun, id, id⟩ ⟨nofun, id, id⟩) rfl id id
  | pop =>
    simp only [QueueState.consoleStep, hpc] at h
    split at h <;> cases h
    exact hi.of_working (hpc ▸ ⟨nofun, id, id⟩) ⟨nofun, id, id⟩ rfl nofun nofun
  | popped c =>
    simp only [QueueState.consoleStep, hpc] at h
    cases h
    exact hi.of_working (hpc ▸ ⟨nofun, id, id⟩) (.of_ite ⟨nofun, id, id⟩ ⟨nofun, id, id⟩) rfl id id
  | quit pc =>
    simp only [QueueState.consoleStep, hpc] at h
    cases h
    have hf := s.requestExit_frame pc
    refine hi.of_working (hpc ▸ ⟨nofun, id, id⟩) ?_ hf.main hf.queue.eq_null.mp
      hf.queue.eq_deleted.mp
    cases (s.requestExit pc).2 <;> exact ⟨nofun, id, id⟩
  | joinLocal =>
    simp only [QueueState.consoleStep, hpc, Option.ite_none_right_eq_some] at h
    obtain ⟨hlocal, h⟩ := h
    cases h
    exact hi.of_console (by simp [hpc]) nofun rfl id
      (fun hd => by have := (hi.deleted hd).1; simp [hpc] at this) (fun _ => hlocal) False.elim
  | joinRemote =>
    simp only [QueueState.consoleStep, hpc, Option.ite_none_right_eq_some] at h
    obtain ⟨hremote, h⟩ := h
    cases h
    exact hi.of_console (by simp [hpc]) nofun rfl id
      (fun hd => by have := (hi.deleted hd).1; simp [hpc] at this)
      (fun _ => hi.localJoined (hpc ▸ trivial)) fun _ => hremote
  | delete =>
    simp only [QueueState.consoleStep, hpc] at h
    cases h
    exact hi.of_console (by simp [hpc]) nofun rfl nofun (fun _ => ⟨.inl rfl, hok hpc⟩)
      (fun _ => hi.localJoined (hpc ▸ trivial)) fun _ => hi.remoteJoined (hpc ▸ trivial)
  | raise =>
    simp only [QueueState.consoleStep, hpc] at h
    cases h
    exact hi.of_console (by simp [hpc]) nofun rfl id (fun hd => ⟨.inr rfl, (hi.deleted hd).2⟩)
      (fun _ => hi.localJoined (hpc ▸ trivial)) fun _ => hi.remoteJoined (hpc ▸ trivial)
  | finished =>
    simp only [QueueState.consoleStep, hpc] at h
    cases h

theorem QueueInv.init : init.QueueInv :=
  ⟨fun _ => rfl, fun h => absurd rfl h, fun h => absurd rfl h, False.elim, False.elim, nofun, nofun⟩

theorem QueueInv.step (hi : s.QueueInv) (hok : s.DeletesLast a) (h : s.step a = some s') :
    s'.QueueInv := by
  cases a with
  | console => exact hi.consoleStep hok h
  | localc line => exact hi.localStep h
  | remotec msg => exact hi.remoteStep h
  | main => exact hi.mainStep h
  | interrupt =>
    cases h
    exact { hi with }

/-- When the queue is deleted after `request_exit` of the main thread, every push and every pop is made
on a queue that exists. -/
theorem live_of_run (h : Run step DeletesLast init tr s) (ha : s.accesses a = true) :
    ∃ q, s.commandqueue = .live q :=
  QueueInv.live (h.invariant QueueInv.init fun _ _ _ hi hok hs => hi.step hok hs) ha

/-- SIGINT, after which the main thread goes through `request_exit`, and both other threads stop. -/
def interruptTrace : List QueueAction :=
  startTrace ++ [.interrupt] ++ List.replicate 5 .main ++ [.localc [], .remotec none]

theorem live_interruptTrace :
    ∃ s, Run step DeletesLast init interruptTrace s ∧ s.main = .join ∧ s.console = .pop ∧
      ∃ q, s.commandqueue = .live q := by
  obtain ⟨s, hrun, hs⟩ := Run.exists_of_exec step DeletesLast init interruptTrace
    (fun s => s.main = .join ∧ s.console = .pop) (by decide +kernel)
  obtain ⟨hm, hc⟩ := of_decide_eq_true hs
  have ha : s.accesses .console = true := by simp [accesses, hc]
  exact ⟨s, hrun, hm, hc, live_of_run hrun ha⟩

/-- The command `quit`: the console thread ends, deletes the queue and raises SIGINT, and the main
thread comes to its push. -/
def quitTrace : List QueueAction :=
  startTrace ++ [.remotec none, .remotec (some (chars "quit")), .remotec none] ++
    List.replicate 9 .console ++ [.localc [], .remotec none] ++ List.replicate 4 .console ++
    List.replicate 4 .main

/-- The queue that the main thread pushes on is deleted. -/
theorem not_live :
    ¬ ∀ tr s a, Run step anyStep init tr s → s.accesses a = true → ∃ q, s.commandqueue = .live q := by
  intro hclaim
  obtain ⟨s, hrun, hs⟩ := Run.exists_of_exec step anyStep init quitTrace
    (fun s => s.accesses .main ∧ s.commandqueue = .deleted) (by decide +kernel)
  obtain ⟨ha, hd⟩ := of_decide_eq_true hs
  obtain ⟨q, hq⟩ := hclaim _ _ _ hrun ha
  simp [hd] at hq

end QueueState
end Aegir
