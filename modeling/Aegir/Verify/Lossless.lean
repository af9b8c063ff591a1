import Aegir.Verify.Server

/-!
# No frame is lost while `send` keeps up

When each `notifysend` finds `send` in its wait with no frame left to take (`SenderWaits`), the writer
never disturbs the sender, the header that `send` has stored before its wait is in the buffer that it
publishes after it, and the message number `k` is the frame number `k` (`InStep`). So the sequence
number in the header of a message is the readcount of the reference, and at most one frame is on its way
(`lossless_of_run`).
-/

namespace Aegir

variable {C R F K : Type*} {N : Nat} {o : ByteOrder}

namespace PublishState

variable {cfg : TransportConfig} {ff : FloatFormat F} {t t' : PublishState} {a : PublishAction F}

/-- `send` is in its wait. -/
def IsWaiting (t : PublishState) : Bool :=
  match t.pc with
  | .waiting _ => true
  | _ => false

theorem isWaiting_iff : t.IsWaiting = true ↔ ∃ hdr, t.pc = .waiting hdr := by
  cases h : t.pc <;> simp [IsWaiting, h]

/-- `notifysend` finds `send` in its wait, with no frame left to take. -/
def SenderWaits (t : PublishState) : PublishAction F → Prop
  | .notifysend => t.bufferfilled = false ∧ t.IsWaiting = true
  | _ => True

instance (t : PublishState) (a : PublishAction F) : Decidable (t.SenderWaits a) :=
  match a with
  | .notifysend => inferInstanceAs (Decidable (_ ∧ _))
  | .write .. | .hdrPtr | .fillHeader | .wait | .load | .copy | .sent => .isTrue trivial

/-- The number of frames that are finished and not yet published, and the buffers at hand. -/
def AtPc (t : PublishState) : SendPc → Prop
  | .top => t.bufferfilled = false ∧ t.frames.length = t.published.length
  | .header hdr => t.bufferfilled = false ∧ t.frames.length = t.published.length ∧ hdr = t.packetbuf0
  | .waiting hdr =>
    if t.bufferfilled then
      t.frames.length = t.published.length + 1 ∧ ∀ b, hdr = some b → b = t.packetbuf1
    else t.frames.length = t.published.length ∧ ∀ b, hdr = some b → b = t.packetbuf0
  | .publishing hdr => t.bufferfilled = false ∧ t.frames.length = t.published.length + 1 ∧
      ∀ b, hdr = some b → b = t.packetbuf1
  | .copying src frame _ => t.bufferfilled = false ∧ t.frames.length = t.published.length + 1 ∧
      src = t.packetbuf1 ∧ frame = t.published.length

/-- The sender publishes every frame. -/
structure InStep (t : PublishState) : Prop where
  bufs : t.packetbuf0 ≠ t.packetbuf1
  published : t.published.map (·.frame) = List.range t.published.length
  pc : t.AtPc t.pc

theorem InStep.init : InStep init where
  bufs := by simp [PublishState.init]
  published := rfl
  pc := ⟨rfl, rfl⟩

theorem InStep.step (hi : InStep t) (hok : t.SenderWaits a) (h : t.step cfg o ff a = some t') :
    InStep t' := by
  have hpc := hi.pc
  cases a with
  | write c r inp => cases h; exact ⟨hi.bufs, hi.published, hi.pc⟩
  | notifysend =>
    obtain ⟨hb, hwait⟩ := hok
    obtain ⟨hdr, hw⟩ := isWaiting_iff.mp hwait
    cases h
    refine ⟨hi.bufs.symm, hi.published, ?_⟩
    simp only [hw, AtPc, hb, Bool.false_eq_true, if_false] at hpc
    simpa [PublishState.notifysend, hw, AtPc] using hpc
  | hdrPtr =>
    obtain ⟨hw, ⟨-, rfl⟩ | ⟨-, rfl⟩⟩ := step_hdrPtr h
    · simp only [hw, AtPc] at hpc
      exact ⟨hi.bufs, hi.published, by simp [AtPc, hpc]⟩
    · simp only [hw, AtPc] at hpc
      exact ⟨hi.bufs, hi.published, by simp [AtPc, hpc]⟩
  | fillHeader =>
    obtain ⟨hdr, hw, rfl⟩ := step_fillHeader h
    simp only [hw, AtPc] at hpc
    exact ⟨hi.bufs, hi.published, by simp [AtPc, setMem, hpc]⟩
  | wait =>
    obtain ⟨hdr, hw, hb, rfl⟩ := step_wait h
    simp only [hw, AtPc, hb, if_true] at hpc
    exact ⟨hi.bufs, hi.published, rfl, hpc⟩
  | load =>
    obtain ⟨hdr, hw, rfl⟩ := step_load h
    simp only [hw, AtPc] at hpc
    exact ⟨hi.bufs, hi.published, hpc.1, hpc.2.1, rfl, by simp [hpc.2.1]⟩
  | copy =>
    obtain ⟨src, frame, copied, hw, -, rfl⟩ := step_copy h
    simp only [hw, AtPc] at hpc
    exact ⟨hi.bufs, hi.published, hpc⟩
  | sent =>
    obtain ⟨src, frame, copied, hw, -, rfl⟩ := step_sent h
    simp only [hw, AtPc] at hpc
    obtain ⟨hb, hlen, -, rfl⟩ := hpc
    refine ⟨hi.bufs, ?_, hb, by simp [hlen]⟩
    simp [hi.published, List.range_succ]

/-- The writer stays out of the windows of a sender that keeps up. -/
theorem InStep.senderUndisturbed (hi : InStep t) (hok : t.SenderWaits a) : t.SenderUndisturbed a := by
  have hpc := hi.pc
  cases a with
  | notifysend =>
    obtain ⟨hdr, hw⟩ := isWaiting_iff.mp hok.2
    simp [SenderUndisturbed, hw]
  | write =>
    cases hw : t.pc with
    | copying src frame copied =>
      simp only [hw, AtPc] at hpc
      simp only [SenderUndisturbed, hw, hpc.2.2.1]
      exact hi.bufs.symm
    | _ => simp [SenderUndisturbed, hw]
  | _ => trivial

/-- The header is in the buffer that is published. -/
theorem InStep.headerReachesMessage (hi : InStep t) {a : SendAction} :
    t.HeaderReachesMessage (F := F) cfg a.publish := by
  have hpc := hi.pc
  cases a with
  | load =>
    cases hw : t.pc with
    | publishing hdr =>
      simp only [hw, AtPc] at hpc
      cases hdr with
      | none => simp [HeaderReachesMessage, SendAction.publish, hw]
      | some b => simpa [HeaderReachesMessage, SendAction.publish, hw] using hpc.2.2 b rfl
    | _ => simp [HeaderReachesMessage, SendAction.publish, hw]
  | _ => trivial

theorem InStep.length_frames_le (hi : InStep t) : t.frames.length ≤ t.published.length + 1 := by
  have hpc := hi.pc
  cases hw : t.pc with
  | waiting hdr =>
    simp only [hw, AtPc] at hpc
    split at hpc <;> omega
  | _ =>
    simp only [hw, AtPc] at hpc
    omega

end PublishState

namespace ServerState

open CoherentState (Correction Reception Packs BlockSize)

/-- The call of the transport finds `send` as `SenderWaits` says. -/
def CallFindsWaiting (t : PublishState) : Option (PublishAction F) → Prop
  | some a => t.SenderWaits a
  | none => True

instance (t : PublishState) (a : Option (PublishAction F)) : Decidable (CallFindsWaiting t a) :=
  match a with
  | some _ => inferInstanceAs (Decidable (t.SenderWaits _))
  | none => .isTrue trivial

/-- No ring is overrun, and each `notifysend` finds `send` waiting. -/
def KeepsUp (N : Nat) (cfg : ServerConfig C R F) (s : ServerState C R) : ServerAction → Prop
  | .thread a => LoopCore.NoOverrun cfg.receiver.ndev N s.receiver.toLoopCore a ∧
      CallFindsWaiting s.transport (s.receiver.transportCall cfg.receiver cfg.parts a)
  | .send _ => True

instance (cfg : ServerConfig C R F) (s : ServerState C R) (a : ServerAction) :
    Decidable (KeepsUp N cfg s a) :=
  match a with
  | .thread _ => inferInstanceAs (Decidable (_ ∧ _))
  | .send _ => .isTrue trivial

variable {cfg : ServerConfig C R F} {s s' : ServerState C R} {a : ServerAction}

/-- A sender that keeps up is in time. -/
theorem inTime_of_keepsUp (hi : s.transport.InStep) (hok : KeepsUp N cfg s a) : InTime N cfg s a := by
  cases a with
  | send a => exact hi.headerReachesMessage
  | thread a =>
    obtain ⟨hroom, hwaits⟩ := hok
    refine ⟨hroom, ?_⟩
    generalize s.receiver.transportCall cfg.receiver cfg.parts a = call at hwaits
    cases call with
    | none => trivial
    | some call => exact hi.senderUndisturbed hwaits

variable [Field C] [Star C] [Field R] [DecidableEq R]

theorem inStep_step (hi : s.transport.InStep) (hok : KeepsUp N cfg s a)
    (h : s.step cfg a = some s') : s'.transport.InStep := by
  cases a with
  | send a =>
    obtain ⟨-, hs⟩ := step_send h
    exact hi.step (by cases a <;> trivial) hs
  | thread a =>
    obtain ⟨-, hcall⟩ := step_thread h
    obtain ⟨-, hwaits⟩ := hok
    generalize s.receiver.transportCall cfg.receiver cfg.parts a = call at hcall hwaits
    cases call with
    | none => exact (Option.some.inj hcall) ▸ hi
    | some call => exact hi.step hwaits hcall

variable {noise : Bool} {r₀ : Correction C} {tr : List ServerAction}
  {p : ServerState C R × Reception C} [Field K] [LinearOrder K] [IsStrictOrderedRing K]
  {cfg : ServerConfig C R K}

/-- In every run in which no ring is overrun and each `notifysend` finds `send` waiting, every frame is
published but the one that is on its way: the message `k` is the frame of the iteration `k`, with the
sequence number `k` and the block number `k` of the reference. -/
theorem lossless_of_run (hN : RingSize cfg.receiver.asyncbufn N)
    (hsize : BlockSize cfg.receiver.blocksize) (hp : Packs cfg.transport cfg.receiver)
    (hff : cfg.ff.RoundsAndClamps) (hparts : cfg.parts.Exact cfg.receiver.cf)
    (h : Run (observed (step cfg) observe) (fun p a => KeepsUp N cfg p.1 a)
      (init cfg noise, ⟨fun _ => [], r₀⟩) tr p) :
    p.1.transport.published.map (·.frame) = List.range p.1.transport.published.length ∧
      p.1.receiver.hist.iter ≤ p.1.transport.published.length + 1 ∧ Received K cfg p := by
  have hkeep : ∀ (p : ServerState C R × Reception C) a p', p.1.transport.InStep →
      KeepsUp N cfg p.1 a → observed (step cfg) observe p a = some p' → p'.1.transport.InStep :=
    fun _ _ _ hi hok hs => inStep_step hi hok (observed_eq_some.mp hs).1
  have hin : p.1.transport.InStep := h.invariant (I := fun p => p.1.transport.InStep) .init hkeep
  have htime : Run (observed (step cfg) observe) (fun p a => InTime N cfg p.1 a)
      (init cfg noise, ⟨fun _ => [], r₀⟩) tr p :=
    h.mono_of (I := fun p => p.1.transport.InStep) .init hkeep fun _ _ hi => inTime_of_keepsUp hi
  have hi : Served N cfg p := served_of_run hN hsize (storesChannels_of_packs hp) hp.channels htime
  exact ⟨hin.published, hi.server.frames.length ▸ hin.length_frames_le,
    hi.received hsize hp hff hparts⟩

/-- `send` publishes the first frame while the loop is in its second iteration. -/
def promptTrace : List ServerAction :=
  [.send .hdrPtr, .send .fillHeader] ++ deliverAndLoop 10 ++ [.send .wait, .send .load] ++
    (deliverAndLoop 19).take 12 ++ List.replicate 56 (.send .copy) ++
    [.send .sent, .send .hdrPtr, .send .fillHeader] ++ (deliverAndLoop 19).drop 12 ++ sendFrame

theorem lossless_of_run_promptTrace :
    ∃ p : ServerState ℂ ℚ × Reception ℂ,
      Run (observed (step complexServer) observe) (fun p a => KeepsUp 2 complexServer p.1 a)
        (init complexServer true, CoherentState.emptyReception) promptTrace p ∧
      p.1.transport.published.length = 2 ∧
      p.1.transport.published.map (·.frame) = List.range p.1.transport.published.length ∧
      p.1.receiver.hist.iter ≤ p.1.transport.published.length + 1 ∧ Received ℝ complexServer p := by
  obtain ⟨p, hrun, hp⟩ := Run.exists_of_exec (observed (step complexServer) observe)
    (fun p a => KeepsUp 2 complexServer p.1 a)
    (init complexServer true, CoherentState.emptyReception) promptTrace
    (fun p => p.1.transport.published.length = 2) (by decide +kernel)
  refine ⟨p, hrun, of_decide_eq_true hp, ?_⟩
  exact lossless_of_run CoherentState.ringSize_two ⟨by decide, by decide⟩
    CoherentState.packs_complexReceiver towardsZero_roundsAndClamps CoherentState.exact_complexReceiver
    hrun

end ServerState

end Aegir
