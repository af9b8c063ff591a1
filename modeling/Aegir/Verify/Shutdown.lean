import Aegir.Model.Shutdown
import Aegir.Verify.Lockstep

/-!
# The program comes to its end

Whatever the order of the steps of `main`, of the coherent thread, of the drivers and of the other
threads: until `coherent.join()` has returned, `main` or the coherent thread can move, or the loop waits
for a block of a device whose driver has not come to its end by a cancel (`progress_of_run`). The
cancel itself leaves a token behind: `asynch_callback` passes the block on after it, and nobody begins to
wait for a device that has been stopped. After `exit_all` is set `main` takes a bounded number of
steps, and after `coherent.request_exit()` the coherent thread (`shutdown_of_run`).
-/

namespace Aegir

namespace LoopCore

variable {C : Type*} {ndev : Nat} {o : ByteOrder} {s s' : LoopCore C}

/-- A step of the loop that takes no token leaves the tokens and the flags of all devices. -/
theorem coreStep_flags (h : CoreStep ndev o .loop s s')
    (hr : ∀ k, s.pc.reading = some k → (s.stream k).streaming = false) (j : Nat) :
    (s'.stream j).newdata = (s.stream j).newdata ∧
      (s'.stream j).streaming = (s.stream j).streaming := by
  have hread : ∀ {k d}, s.pc.reading = some k → (s.stream k).read = some d → d = s.stream k := by
    intro k d hpc hd
    simpa [Stream.read, hr k hpc] using hd.symm
  have hconsume : ∀ k, ((s.consume k).stream j).newdata = (s.stream j).newdata ∧
      ((s.consume k).stream j).streaming = (s.stream j).streaming := by
    intro k
    simp only [consume, setStream]
    by_cases hj : j = k
    · subst hj
      simp [Stream.consume]
    · simp [hj]
  cases h with
  | refRead hpc hd | read hpc hd =>
    rw [hread (by rw [hpc]; rfl) hd]
    simp [setStream, goto]
  | refConsume | consume => exact hconsume _
  | _ => exact ⟨rfl, rfl⟩

end LoopCore

/-- How many steps `main` takes at most when `exit_all` is set. -/
def EndPc.left (ndev : Nat) : EndPc → Nat
  | .send => 3 * ndev + 7
  | .test => 3 * ndev + 6
  | .stop k => 3 * (ndev - k) + 5
  | .controllerExit k => 3 * (ndev - k) + 4
  | .requestExit k => 3 * (ndev - k) + 3
  | .coherentExit => 2
  | .join => 1
  | .joined => 0

theorem EndPc.left_le (ndev : Nat) (pc : EndPc) : pc.left ndev ≤ 3 * ndev + 7 := by
  cases pc <;> simp only [left] <;> omega

/-- The steps of `main`, and those of the coherent thread. -/
def ReceiverAction.isMain : ReceiverAction → Bool
  | .main => true
  | _ => false

def ReceiverAction.isCoherent : ReceiverAction → Bool
  | .coherent => true
  | _ => false

theorem LoopPc.left_le (ndev : Nat) (pc : LoopPc) : pc.left ndev ≤ 12 * ndev + 13 := by
  cases pc with
  | dev a i c p => cases p <;> simp only [left, DevPc.left] <;> omega
  | _ => simp only [left]; omega

/-- What a step of the threads can do. -/
inductive ReceiverStep {C R : Type*} [Field C] [Star C] [Field R] [DecidableEq R]
    (cfg : CoherentConfig C R) (s : ReceiverState C R) :
    ReceiverAction → ReceiverState C R → Prop
  | send (hm : s.main = .send) (hb : s.bufferfilled = true) :
    ReceiverStep cfg s .main { s with bufferfilled := false, main := .test }
  | test (hm : s.main = .test) :
    ReceiverStep cfg s .main { s with main := if s.exitAll then .stop 0 else .send }
  | stop {k} (hm : s.main = .stop k) :
    ReceiverStep cfg s .main { s.stopStreaming k with main := .controllerExit k }
  | controllerExit {k} (hm : s.main = .controllerExit k) :
    ReceiverStep cfg s .main { s.desynchronize k with main := .requestExit k }
  | requestExit {k} (hm : s.main = .requestExit k) :
    ReceiverStep cfg s .main { s with
      devExit := Function.update s.devExit k true, main := ReceiverState.nextStop cfg k }
  | coherentExit (hm : s.main = .coherentExit) :
    ReceiverStep cfg s .main { s with doExit := true, main := .join }
  | join (hm : s.main = .join) (ht : s.thread = .finished) :
    ReceiverStep cfg s .main { s with main := .joined }
  | loopTest (ht : s.thread = .test) :
    ReceiverStep cfg s .coherent { s with thread := if s.doExit then .finished else .body }
  | wait {k} (ht : s.thread = .body) (hpc : s.loop.pc.reading = some k)
    (hs : (s.loop.stream k).streaming = true) :
    ReceiverStep cfg s .coherent { s with thread := .waiting }
  | body {l} (ht : s.thread = .body)
    (hr : ∀ k, s.loop.pc.reading = some k → (s.loop.stream k).streaming = false)
    (hpc : s.loop.pc ≠ .notify) (hl : s.loop.loopStep cfg = some l) :
    ReceiverStep cfg s .coherent { s with loop := l }
  | notify {l} (ht : s.thread = .body) (hpc : s.loop.pc = .notify)
    (hl : s.loop.loopStep cfg = some l) :
    ReceiverStep cfg s .coherent { s with loop := l, thread := .test, bufferfilled := true }
  | take {k l} (ht : s.thread = .waiting) (hpc : s.loop.pc.reading = some k)
    (hn : 0 < (s.loop.stream k).newdata) (hl : ReceiverState.readDone s.loop = some l) :
    ReceiverStep cfg s .coherent { s with loop := l, thread := .body }
  | callback {k} (b) (hd : s.driver k = .idle) :
    ReceiverStep cfg s (.driver k b) { s with
      driver := Function.update s.driver k .callback
      cancelled := Function.update s.cancelled k (s.cancelled k || s.devExit k) }
  | swap {k} (b) (hd : s.driver k = .callback) :
    ReceiverStep cfg s (.driver k b) { s with
      loop := s.loop.withCore (s.loop.toLoopCore.swapbuffer cfg.order k b)
      driver := Function.update s.driver k .idle }
  | ends {k} (hd : s.driver k = .idle) :
    ReceiverStep cfg s (.driverEnds k) { s with driver := Function.update s.driver k .ended }
  | interrupt : ReceiverStep cfg s .interrupt { s with exitAll := true }
  | other {a l} (ha : a.quiet = true) (hl : s.loop.step cfg a = some l) :
    ReceiverStep cfg s (.other a) { s with loop := l }

namespace ReceiverState

variable {C R : Type*} [Field C] [Star C] [Field R] [DecidableEq R] {cfg : CoherentConfig C R}
  {s s' : ReceiverState C R} {tr : List ReceiverAction} {noise : Bool}

theorem bodyStep_cases (ht : s.thread = .body)
    (hr : ∀ k, s.loop.pc.reading = some k → (s.loop.stream k).streaming = false)
    (h : s.bodyStep cfg = some s') : ReceiverStep cfg s .coherent s' := by
  obtain ⟨l, hl, rfl⟩ := Option.map_eq_some_iff.mp h
  split
  case h_1 hpc => exact .notify ht hpc hl
  case h_2 hpc => exact .body ht hr hpc hl

theorem step_cases {a : ReceiverAction} (h : s.step cfg a = some s') : ReceiverStep cfg s a s' := by
  cases a with
  | main =>
    simp only [step, mainStep] at h
    split at h
    case h_1 hm =>
      obtain ⟨hb, heq⟩ := Option.ite_none_right_eq_some.mp h
      cases heq
      exact .send hm hb
    case h_2 hm => cases h; exact .test hm
    case h_3 k hm => cases h; exact .stop hm
    case h_4 k hm => cases h; exact .controllerExit hm
    case h_5 k hm => cases h; exact .requestExit hm
    case h_6 hm => cases h; exact .coherentExit hm
    case h_7 hm =>
      split at h <;> cases h
      exact .join hm ‹_›
    case h_8 => cases h
  | coherent =>
    simp only [step, coherentStep] at h
    split at h
    case h_1 ht => cases h; exact .loopTest ht
    case h_2 ht =>
      split at h
      case h_1 k hpc =>
        split at h
        case isTrue hs => cases h; exact .wait ht hpc hs
        case isFalse hs =>
          refine bodyStep_cases ht (fun j hj => ?_) h
          rw [hpc, Option.some.injEq] at hj
          exact hj ▸ Bool.eq_false_iff.mpr hs
      case h_2 hpc =>
        exact bodyStep_cases ht (fun j hj => by rw [hpc] at hj; cases hj) h
    case h_3 ht =>
      split at h
      case h_1 k hpc =>
        obtain ⟨hn, h⟩ := Option.ite_none_right_eq_some.mp h
        obtain ⟨l, hl, rfl⟩ := Option.map_eq_some_iff.mp h
        exact .take ht hpc hn hl
      case h_2 => cases h
    case h_4 => cases h
  | driver k b =>
    simp only [step, driverStep] at h
    split at h
    case h_1 hd => cases h; exact .callback b hd
    case h_2 hd => cases h; exact .swap b hd
    case h_3 => cases h
  | driverEnds k =>
    simp only [step] at h
    split at h
    case h_1 hd => cases h; exact .ends hd
    case h_2 => cases h
  | interrupt => cases h; exact .interrupt
  | other a =>
    simp only [step] at h
    split at h
    case h_4 hloop hswap hstream =>
      obtain ⟨l, hl, rfl⟩ := Option.map_eq_some_iff.mp h
      refine .other ?_ hl
      cases a with
      | loop => exact absurd rfl hloop
      | swapbuffer k b => exact absurd rfl (hswap k b)
      | setStreaming k on => exact absurd rfl (hstream k on)
      | _ => rfl
    all_goals cases h

end ReceiverState

/-! ## The invariant -/

namespace ReceiverState

section
variable {C R : Type*} {s : ReceiverState C R}

/-- `newdata` of no device overflows: no device has `2 ^ 31` blocks waiting. -/
def TokensFit (s : ReceiverState C R) : ReceiverAction → Prop
  | .driver k _ => (s.loop.stream k).newdata ≠ Int32.maxValue
  | _ => True

instance (s : ReceiverState C R) (a : ReceiverAction) : Decidable (TokensFit s a) :=
  match a with
  | .driver k _ => inferInstanceAs (Decidable ((s.loop.stream k).newdata ≠ Int32.maxValue))
  | .main | .coherent | .driverEnds _ | .interrupt | .other _ => .isTrue trivial

/-- What holds of the flags, the tokens and the positions of the threads. -/
structure Ending (s : ReceiverState C R) : Prop where
  newdata : ∀ k, 0 ≤ (s.loop.stream k).newdata
  exiting : ∀ k, s.devExit k = true → (s.loop.stream k).streaming = false
  cancelled : ∀ k, s.cancelled k = true → s.devExit k = true
  stopped : ∀ k, s.main = .controllerExit k ∨ s.main = .requestExit k →
    (s.loop.stream k).streaming = false
  /-- After a cancel the block that came with it is a token for a loop that waits. -/
  waiting : s.thread = .waiting → ∃ k, s.loop.pc.reading = some k ∧
    (s.cancelled k = true → s.driver k ≠ .callback → 0 < (s.loop.stream k).newdata)
  doExit : s.doExit = true → s.main = .join ∨ s.main = .joined
  finished : s.thread = .finished → s.doExit = true

/-- The streams keep what the invariant says of them, and the loop its position. -/
theorem Ending.of_loop (h : Ending s) {l : CoherentState C R}
    (hflags : ∀ j, (l.stream j).newdata = (s.loop.stream j).newdata ∧
      (l.stream j).streaming = (s.loop.stream j).streaming)
    (hpc : s.thread = .waiting → l.pc = s.loop.pc) : Ending { s with loop := l } where
  newdata k := by
    rw [(hflags k).1]
    exact h.newdata k
  exiting k hk := by
    rw [(hflags k).2]
    exact h.exiting k hk
  cancelled := h.cancelled
  stopped k hk := by
    rw [(hflags k).2]
    exact h.stopped k hk
  waiting ht := by
    obtain ⟨k, hk, htok⟩ := h.waiting ht
    refine ⟨k, (congrArg LoopPc.reading (hpc ht)).trans hk, ?_⟩
    rw [(hflags k).1]
    exact htok
  doExit := h.doExit
  finished := h.finished

/-- The loop has taken a token. -/
theorem readDone_stream {l l' : CoherentState C R} {k : Nat} (hpc : l.pc.reading = some k)
    (h : readDone l = some l') :
    l'.stream = Function.update l.stream k
      { l.stream k with newdata := (l.stream k).newdata - 1 } := by
  unfold readDone at h
  split at h
  case h_1 hs =>
    cases h
    rw [hs, LoopPc.reading, Option.some.injEq] at hpc
    subst hpc
    rfl
  case h_2 a i c hs =>
    cases h
    rw [hs, LoopPc.reading, Option.some.injEq] at hpc
    subst hpc
    rfl
  case h_3 => cases h

theorem int32_sub_one {x : Int32} (h : 0 < x) : 0 ≤ x - 1 := by
  have hx : 0 < x.toInt := Int32.lt_iff_toInt_lt.mp h
  have hlt := x.toInt_lt
  rw [Int32.le_iff_toInt_le, Int32.toInt_sub]
  show 0 ≤ (x.toInt - 1).bmod (2 ^ 32)
  rw [Int.bmod_eq_of_le (by omega) (by omega)]
  omega

theorem int32_add_one {x : Int32} (h : 0 ≤ x) (hmax : x ≠ Int32.maxValue) : 0 < x + 1 := by
  have hx : 0 ≤ x.toInt := Int32.le_iff_toInt_le.mp h
  have hlt := x.toInt_lt
  have hne : x.toInt ≠ 2 ^ 31 - 1 := fun heq => hmax (Int32.toInt_inj.mp heq)
  rw [Int32.lt_iff_toInt_lt, Int32.toInt_add]
  show 0 < (x.toInt + 1).bmod (2 ^ 32)
  rw [Int.bmod_eq_of_le (by omega) (by omega)]
  omega

/-! ### The steps -/

/-- `stop` of a device: its controller is asked to exit next, and finds the stream stopped. -/
theorem Ending.stop {k : Nat} (h : Ending s) (hm : s.main = .stop k) :
    Ending { s.stopStreaming k with main := .controllerExit k } := by
  have hkeep : ∀ j, ((s.stopStreaming k).loop.stream j).newdata = (s.loop.stream j).newdata ∧
      ((s.loop.stream j).streaming = false ∨ j = k →
        ((s.stopStreaming k).loop.stream j).streaming = false) := fun j => by
    by_cases hj : j = k
    · subst hj
      simp [stopStreaming, CoherentState.withCore, LoopCore.setStream]
    · simp [stopStreaming, CoherentState.withCore, LoopCore.setStream, hj]
  exact { h with
    newdata := fun j => (hkeep j).1 ▸ h.newdata j
    exiting := fun j hj => (hkeep j).2 (.inl (h.exiting j hj))
    stopped := fun j hj => (hkeep j).2 (.inr (by simpa [eq_comm] using hj))
    waiting := fun ht => by
      obtain ⟨j, hj, htok⟩ := h.waiting ht
      exact ⟨j, hj, fun hc hd => (hkeep j).1 ▸ htok hc hd⟩
    doExit := fun hd => by simpa [hm] using h.doExit hd }

/-- `request_exit` of a device, which has been stopped. -/
theorem Ending.requestExit {cfg : CoherentConfig C R} {k : Nat} (h : Ending s)
    (hm : s.main = .requestExit k) :
    Ending { s with devExit := Function.update s.devExit k true, main := nextStop cfg k } :=
  { h with
    exiting := fun j hj => by
      by_cases hjk : j = k
      · exact hjk ▸ h.stopped k (.inr hm)
      · exact h.exiting j (by simpa [hjk] using hj)
    cancelled := fun j hj => by
      by_cases hjk : j = k
      · simp [hjk]
      · simpa [hjk] using h.cancelled j hj
    stopped := fun j hj => by
      simp only [nextStop] at hj
      split at hj <;> simp at hj
    doExit := fun hd => by simpa [hm] using h.doExit hd }

theorem Ending.take {l : CoherentState C R} {k : Nat} (h : Ending s)
    (hpc : s.loop.pc.reading = some k) (hn : 0 < (s.loop.stream k).newdata)
    (hl : readDone s.loop = some l) : Ending { s with loop := l, thread := .body } := by
  have hkeep : ∀ j, (l.stream j).streaming = (s.loop.stream j).streaming ∧
      0 ≤ (l.stream j).newdata := fun j => by
    rw [readDone_stream hpc hl]
    by_cases hj : j = k
    · subst hj
      simpa using int32_sub_one hn
    · simpa [hj] using h.newdata j
  exact { h with
    newdata := fun j => (hkeep j).2
    exiting := fun j hj => (hkeep j).1 ▸ h.exiting j hj
    stopped := fun j hj => (hkeep j).1 ▸ h.stopped j hj
    waiting := fun hw => by cases hw
    finished := fun hf => by cases hf }

/-- A transfer is cancelled only when the device was asked to exit, and the driver then owes a block. -/
theorem Ending.callback (h : Ending s) (k : Nat) :
    Ending { s with
      driver := Function.update s.driver k .callback
      cancelled := Function.update s.cancelled k (s.cancelled k || s.devExit k) } :=
  { h with
    cancelled := fun j hj => by
      by_cases hjk : j = k
      · subst hjk
        simp only [Function.update_self, Bool.or_eq_true] at hj
        exact hj.elim (h.cancelled j) id
      · exact h.cancelled j (by simpa [hjk] using hj)
    waiting := fun hw => by
      obtain ⟨j, hj, htok⟩ := h.waiting hw
      refine ⟨j, hj, fun hc hne => ?_⟩
      by_cases hjk : j = k
      · simp [hjk] at hne
      · exact htok (by simpa [hjk] using hc) (by simpa [hjk] using hne) }

/-- The block is a token for a loop that waits. -/
theorem Ending.swap {o : ByteOrder} {k : Nat} (h : Ending s) (b : Mem)
    (hok : (s.loop.stream k).newdata ≠ Int32.maxValue) :
    Ending { s with
      loop := s.loop.withCore (s.loop.toLoopCore.swapbuffer o k b)
      driver := Function.update s.driver k .idle } := by
  have hpos : 0 < (s.loop.stream k).newdata + 1 := int32_add_one (h.newdata k) hok
  have hkeep : ∀ j, ((s.loop.toLoopCore.swapbuffer o k b).stream j).streaming =
      (s.loop.stream j).streaming ∧
      (j = k → 0 < ((s.loop.toLoopCore.swapbuffer o k b).stream j).newdata) ∧
      (j ≠ k → ((s.loop.toLoopCore.swapbuffer o k b).stream j).newdata =
        (s.loop.stream j).newdata) := fun j => by
    by_cases hj : j = k
    · subst hj
      simpa [LoopCore.swapbuffer, LoopCore.setStream, Stream.swapbuffer] using hpos
    · simp [LoopCore.swapbuffer, LoopCore.setStream, hj]
  exact { h with
    newdata := fun j => by
      by_cases hjk : j = k
      · exact Int32.le_of_lt ((hkeep j).2.1 hjk)
      · exact ((hkeep j).2.2 hjk).symm ▸ h.newdata j
    exiting := fun j hj => (hkeep j).1 ▸ h.exiting j hj
    stopped := fun j hj => (hkeep j).1 ▸ h.stopped j hj
    waiting := fun hw => by
      obtain ⟨j, hj, htok⟩ := h.waiting hw
      refine ⟨j, hj, fun hc hne => ?_⟩
      by_cases hjk : j = k
      · exact (hkeep j).2.1 hjk
      · exact ((hkeep j).2.2 hjk).symm ▸ htok hc (by simpa [hjk] using hne) }

theorem Ending.ends {k : Nat} (h : Ending s) (hd : s.driver k = .idle) :
    Ending { s with driver := Function.update s.driver k .ended } :=
  { h with
    waiting := fun hw => by
      obtain ⟨j, hj, htok⟩ := h.waiting hw
      refine ⟨j, hj, fun hc hne => htok hc fun hcb => ?_⟩
      by_cases hjk : j = k
      · rw [hjk, hd] at hcb
        cases hcb
      · simp [hjk, hcb] at hne }

end

variable {C R : Type*} [Field C] [Star C] [Field R] [DecidableEq R] {cfg : CoherentConfig C R}
  {s s' : ReceiverState C R} {a : ReceiverAction} {tr : List ReceiverAction} {noise : Bool}

omit [Star C] [DecidableEq R] in
theorem ending_init : Ending (init cfg noise : ReceiverState C R) where
  newdata k := Int32.le_refl 0
  exiting k h := by cases h
  cancelled k h := by cases h
  stopped k h := by simp [init] at h
  waiting h := by cases h
  doExit h := by cases h
  finished h := by cases h

theorem quiet_core {l l' : CoherentState C R} {a : CoherentAction} (ha : a.quiet = true)
    (hl : l.step cfg a = some l') : l'.toLoopCore = l.toLoopCore := by
  have hcore := CoherentState.step_core hl
  generalize l'.toLoopCore = c' at hcore
  cases hcore with
  | quiet => rfl
  | _ => cases ha

theorem Ending.step {a : ReceiverAction} (h : Ending s) (hok : TokensFit s a)
    (hs : ReceiverStep cfg s a s') : Ending s' := by
  cases hs with
  | send hm hb =>
    exact { h with
      stopped := fun k hk => by simp at hk
      doExit := fun hd => by simpa [hm] using h.doExit hd }
  | test hm =>
    refine { h with
      stopped := fun k hk => ?_
      doExit := fun hd => by simpa [hm] using h.doExit hd }
    dsimp only at hk
    split at hk <;> simp at hk
  | stop hm => exact h.stop hm
  | @controllerExit k hm =>
    exact { h with
      stopped := fun j hj => h.stopped j (.inl (by simpa [hm] using hj))
      doExit := fun hd => by simpa [hm] using h.doExit hd }
  | requestExit hm => exact h.requestExit hm
  | coherentExit hm =>
    exact { h with
      stopped := fun k hk => by simp at hk
      doExit := fun _ => .inl rfl
      finished := fun _ => rfl }
  | join hm ht =>
    exact { h with
      stopped := fun k hk => by simp at hk
      doExit := fun _ => .inr rfl }
  | loopTest ht =>
    exact { h with
      waiting := fun hw => by
        dsimp only at hw
        split at hw <;> cases hw
      finished := fun hf => by
        dsimp only at hf
        split at hf
        · assumption
        · cases hf }
  | @wait k ht hpc hs =>
    -- the loop found the device streaming: nobody has asked its driver to stop
    have hnot : s.cancelled k ≠ true := fun hc => by
      rw [h.exiting k (h.cancelled k hc)] at hs
      cases hs
    exact { h with
      waiting := fun _ => ⟨k, hpc, fun hc => absurd hc hnot⟩
      finished := fun hf => by cases hf }
  | body ht hr hpc hl =>
    exact h.of_loop (LoopCore.coreStep_flags (CoherentState.loopStep_cases hl).core hr)
      fun hw => by rw [ht] at hw; cases hw
  | notify ht hpc hl =>
    have hr : ∀ k, s.loop.pc.reading = some k → (s.loop.stream k).streaming = false :=
      fun k hk => by rw [hpc] at hk; cases hk
    have hloop := h.of_loop (LoopCore.coreStep_flags (CoherentState.loopStep_cases hl).core hr)
      fun hw => by rw [ht] at hw; cases hw
    exact { hloop with
      waiting := fun hw => by cases hw
      finished := fun hf => by cases hf }
  | take ht hpc hn hl => exact h.take hpc hn hl
  | callback => exact h.callback _
  | swap b => exact h.swap b hok
  | ends hd => exact h.ends hd
  | interrupt => exact { h with }
  | other ha hl =>
    have hcore := quiet_core ha hl
    refine h.of_loop (fun j => ?_) fun _ => congrArg LoopCore.pc hcore
    rw [hcore]
    exact ⟨rfl, rfl⟩

theorem ending_of_run (h : Run (ReceiverState.step cfg) TokensFit (init cfg noise) tr s) :
    Ending s :=
  h.invariant ending_init fun _ _ _ hi hok hs => hi.step hok (step_cases hs)

/-! ## Progress -/

theorem bodyStep_isSome (hb : ((cfg.blocksize.toNat >>> 1 : Nat) : R) ≠ 0)
    (hr : ∀ k, s.loop.pc.reading = some k → (s.loop.stream k).streaming = false) :
    (s.bodyStep cfg).isSome := by
  rw [bodyStep, Option.isSome_map, Option.isSome_iff_ne_none, ne_eq,
    CoherentState.loopStep_eq_none_iff hb]
  rintro ⟨k, hpc, hd⟩
  simp [Stream.read, hr k hpc] at hd

/-- Outside of the wait of `read` the coherent thread can always move. -/
theorem coherentStep_isSome (hb : ((cfg.blocksize.toNat >>> 1 : Nat) : R) ≠ 0)
    (ht : s.thread = .test ∨ s.thread = .body) : (s.coherentStep cfg).isSome := by
  rcases ht with ht | ht
  · simp [coherentStep, ht]
  · simp only [coherentStep, ht]
    split
    case h_1 k hpc =>
      split
      case isTrue => rfl
      case isFalse hs =>
        refine bodyStep_isSome hb fun j hj => ?_
        rw [hpc, Option.some.injEq] at hj
        exact hj ▸ Bool.eq_false_iff.mpr hs
    case h_2 hpc => exact bodyStep_isSome hb fun j hj => by rw [hpc] at hj; cases hj

omit [Field C] [Star C] [Field R] [DecidableEq R] in
theorem readDone_isSome {l : CoherentState C R} {k : Nat} (hpc : l.pc.reading = some k) :
    (readDone l).isSome := by
  unfold readDone
  split
  case h_1 | h_2 => rfl
  case h_3 href hdev =>
    unfold LoopPc.reading at hpc
    split at hpc
    case h_1 hl => exact absurd hl href
    case h_2 a i c hl => exact absurd hl (hdev a i c)
    case h_3 => cases hpc

/-- Until `main` has joined the coherent thread, one of the two can move, or the coherent thread waits
for a block of a device whose driver goes on or has ended by itself: a cancelled transfer never leaves
the loop waiting. -/
theorem progress_of_run [CharZero R] (hb : 2 ≤ cfg.blocksize.toNat)
    (h : Run (ReceiverState.step cfg) TokensFit (init cfg noise) tr s) (hm : s.main ≠ .joined) :
    (s.step cfg .main).isSome ∨ (s.step cfg .coherent).isSome ∨
      ∃ k, s.thread = .waiting ∧ s.loop.pc.reading = some k ∧
        ((∀ b, (s.step cfg (.driver k b)).isSome) ∨
          s.driver k = .ended ∧ s.cancelled k = false) := by
  have hi := ending_of_run h
  have hhalf : ((cfg.blocksize.toNat >>> 1 : Nat) : R) ≠ 0 := by
    rw [Nat.cast_ne_zero, Nat.shiftRight_one]
    omega
  cases ht : s.thread with
  | test => exact .inr (.inl (coherentStep_isSome hhalf (.inl ht)))
  | body => exact .inr (.inl (coherentStep_isSome hhalf (.inr ht)))
  | finished =>
    have hjoin := (hi.doExit (hi.finished ht)).resolve_right hm
    exact .inl (by simp [step, mainStep, hjoin, ht])
  | waiting =>
    obtain ⟨k, hpc, htok⟩ := hi.waiting ht
    by_cases hn : 0 < (s.loop.stream k).newdata
    · refine .inr (.inl ?_)
      simp [step, coherentStep, ht, hpc, hn, readDone_isSome hpc]
    refine .inr (.inr ⟨k, rfl, hpc, ?_⟩)
    cases hd : s.driver k with
    | idle | callback => exact .inl fun b => by simp [step, driverStep, hd]
    | ended =>
      refine .inr ⟨rfl, Bool.eq_false_iff.mpr fun hc => hn (htok hc ?_)⟩
      rw [hd]
      simp

/-- A frame of the reference device alone, SIGINT, and the end of its driver while the loop waits for
it. -/
def stoppedTrace : List ReceiverAction :=
  [.main, .coherent, .coherent, .driver 0 fun _ => 0, .driver 0 fun _ => 0] ++
    List.replicate 8 .coherent ++
    [.interrupt, .main, .main, .coherent, .coherent, .main, .main, .main, .driver 0 fun _ => 0,
      .driver 0 fun _ => 0, .driverEnds 0, .main]

theorem progress_of_run_stoppedTrace :
    ∃ s, Run (ReceiverState.step (CoherentState.smallReceiver 0 8)) TokensFit
        (init (CoherentState.smallReceiver 0 8) false) stoppedTrace s ∧
      s.main = .join ∧ s.thread = .waiting ∧ s.driver 0 = .ended ∧
      ((s.step (CoherentState.smallReceiver 0 8) .main).isSome ∨
        (s.step (CoherentState.smallReceiver 0 8) .coherent).isSome ∨
        ∃ k, s.thread = .waiting ∧ s.loop.pc.reading = some k ∧
          ((∀ b, (s.step (CoherentState.smallReceiver 0 8) (.driver k b)).isSome) ∨
            s.driver k = .ended ∧ s.cancelled k = false)) := by
  obtain ⟨s, hrun, hs⟩ := Run.exists_of_exec (ReceiverState.step (CoherentState.smallReceiver 0 8))
    TokensFit (init (CoherentState.smallReceiver 0 8) false) stoppedTrace
    (fun s => s.main = .join ∧ s.thread = .waiting ∧ s.driver 0 = .ended) (by decide +kernel)
  obtain ⟨hm, ht, hd⟩ := of_decide_eq_true hs
  exact ⟨s, hrun, hm, ht, hd, progress_of_run (by decide) hrun (by rw [hm]; simp)⟩

/-! ## The number of steps -/

omit [Field C] [Star C] [Field R] [DecidableEq R] in
theorem left_nextStop (k : Nat) :
    (nextStop cfg k).left cfg.ndev < (EndPc.requestExit k).left cfg.ndev := by
  simp only [nextStop]
  split <;> simp only [EndPc.left] <;> omega

/-- How many steps the coherent thread takes at most when its `do_exit` is set. -/
def coherentLeft (ndev : Nat) (s : ReceiverState C R) : Nat :=
  match s.thread with
  | .test => 1
  | .body => 2 * s.loop.pc.left ndev + 1
  | .waiting => 2 * s.loop.pc.left ndev
  | .finished => 0

omit [Field C] [Star C] [Field R] [DecidableEq R] in
/-- The end of the wait of `read` brings the loop nearer to the end of its iteration. -/
theorem readDone_left {l l' : CoherentState C R} {ndev : Nat} (h : readDone l = some l') :
    l'.pc.left ndev < l.pc.left ndev := by
  unfold readDone at h
  split at h
  case h_1 hs =>
    cases h
    simp [hs, LoopPc.left, CoherentState.withCore, LoopCore.goto]
  case h_2 a i c hs =>
    cases h
    simp [hs, LoopPc.left, DevPc.left, CoherentState.withCore, LoopCore.goto]
  case h_3 => cases h

omit [Field C] [Star C] [Field R] [DecidableEq R] in
theorem coherentLeft_le (s : ReceiverState C R) (ndev : Nat) :
    coherentLeft ndev s ≤ 24 * ndev + 27 := by
  have hle := s.loop.pc.left_le ndev
  unfold coherentLeft
  split <;> omega

/-- With `exit_all` set, each step brings `main` nearer to its end. -/
theorem main_left (hs : ReceiverStep cfg s a s') (he : s.exitAll = true) :
    s'.exitAll = true ∧
      (s'.main.left cfg.ndev : ℤ) + (if a.isMain then 1 else 0) ≤ s.main.left cfg.ndev := by
  cases hs with
  | @requestExit k hm =>
    have hlt : (nextStop cfg k).left cfg.ndev < _ := left_nextStop k
    refine ⟨he, ?_⟩
    simp only [ReceiverAction.isMain, hm, if_true]
    omega
  | send hm | test hm | stop hm | controllerExit hm | coherentExit hm | join hm =>
    refine ⟨he, ?_⟩
    simp [hm, he, EndPc.left, ReceiverAction.isMain]
    try omega
  | interrupt => exact ⟨rfl, by simp [ReceiverAction.isMain]⟩
  | _ => exact ⟨he, (add_zero (s.main.left cfg.ndev : ℤ)).le⟩

/-- With its `do_exit` set, each step brings the coherent thread nearer to its end. -/
theorem coherent_left (hs : ReceiverStep cfg s a s') (he : s.doExit = true) :
    s'.doExit = true ∧
      (coherentLeft cfg.ndev s' : ℤ) + (if a.isCoherent then 1 else 0) ≤
        coherentLeft cfg.ndev s := by
  cases hs with
  | coherentExit => exact ⟨rfl, by simp [ReceiverAction.isCoherent, coherentLeft]⟩
  | loopTest ht => exact ⟨he, by simp [ht, he, coherentLeft, ReceiverAction.isCoherent]⟩
  | wait ht => exact ⟨he, by simp [ht, coherentLeft, ReceiverAction.isCoherent]⟩
  | body ht hr hpc hl =>
    obtain ⟨-, hlt⟩ := (CoherentState.loopStep_cases hl).left_lt.resolve_right fun hn => hpc hn.1
    refine ⟨he, ?_⟩
    simp only [ht, coherentLeft, ReceiverAction.isCoherent, if_true]
    omega
  | notify ht hpc hl =>
    refine ⟨he, ?_⟩
    simp [ht, hpc, coherentLeft, LoopPc.left, ReceiverAction.isCoherent]
  | take ht hpc hn hl =>
    have hlt : LoopPc.left cfg.ndev _ < _ := readDone_left hl
    refine ⟨he, ?_⟩
    simp only [ht, coherentLeft, ReceiverAction.isCoherent, if_true]
    omega
  | other ha hl =>
    have hpc := congrArg LoopCore.pc (quiet_core ha hl)
    refine ⟨he, ?_⟩
    simp [coherentLeft, hpc, ReceiverAction.isCoherent]
  | _ => exact ⟨he, (add_zero (coherentLeft cfg.ndev s : ℤ)).le⟩

/-- From a state in which `exit_all` is set `main` takes at most `3 * ndev + 7` steps more, and from one
in which `coherent.request_exit()` has been called the coherent thread at most `24 * ndev + 27`. -/
theorem shutdown_of_run (h : Run (ReceiverState.step cfg) anyStep s tr s') :
    (s.exitAll = true → tr.countP ReceiverAction.isMain ≤ 3 * cfg.ndev + 7) ∧
      (s.doExit = true → tr.countP ReceiverAction.isCoherent ≤ 24 * cfg.ndev + 27) := by
  constructor
  · intro he
    have hle : (tr.countP ReceiverAction.isMain : ℤ) + s'.main.left cfg.ndev ≤ s.main.left cfg.ndev :=
      h.countP_le (I := fun s => s.exitAll = true) (fun s => (s.main.left cfg.ndev : ℤ)) he
        fun _ _ _ hi _ hs => main_left (step_cases hs) hi
    have hmax := s.main.left_le cfg.ndev
    omega
  · intro he
    have hle : (tr.countP ReceiverAction.isCoherent : ℤ) + coherentLeft cfg.ndev s' ≤
        coherentLeft cfg.ndev s :=
      h.countP_le (I := fun s => s.doExit = true) (fun s => (coherentLeft cfg.ndev s : ℤ)) he
        fun _ _ _ hi _ hs => coherent_left (step_cases hs) hi
    have hmax := s.coherentLeft_le cfg.ndev
    omega

/-- The last iteration after `stoppedTrace`, and the end of `main`. -/
def joinTrace : List ReceiverAction := List.replicate 9 .coherent ++ [.main]

theorem shutdown_of_run_stoppedTrace :
    ∃ s s' : ReceiverState ℚ ℚ,
      Run (ReceiverState.step (CoherentState.smallReceiver 0 8)) anyStep s joinTrace s' ∧
      s.exitAll = true ∧ s.doExit = true ∧ s'.main = .joined ∧
      (s.exitAll = true → joinTrace.countP ReceiverAction.isMain ≤ 3 * 0 + 7) ∧
      (s.doExit = true → joinTrace.countP ReceiverAction.isCoherent ≤ 24 * 0 + 27) := by
  let step := ReceiverState.step (CoherentState.smallReceiver 0 8)
  obtain ⟨s, -, hs⟩ := Run.exists_of_exec step TokensFit
    (init (CoherentState.smallReceiver 0 8) false) stoppedTrace
    (fun s => s.exitAll ∧ s.doExit ∧ (exec step anyStep s joinTrace).any (·.main = .joined))
    (by decide +kernel)
  obtain ⟨he, hd, hj⟩ := of_decide_eq_true hs
  obtain ⟨s', hrun, hs'⟩ := Run.exists_of_exec step anyStep s joinTrace (·.main = .joined) hj
  exact ⟨s, s', hrun, he, hd, of_decide_eq_true hs', shutdown_of_run hrun⟩

end ReceiverState
end Aegir
