import Aegir.Verify.Reception
import Aegir.Verify.PublishHeader

/-!
# The frames of the loop on the wire

A run of the server is a run of the receiver and a run of the double buffer (`receiver_of_run`,
`transport_of_run`), and the frame that the writer finishes in the iteration `t` has what the calls of
`write` of this iteration stored (`FramesInv`), although `send` stores its header into the same buffer
between any two of them. So in every run in which no ring is overrun and the writer stays out of the
windows of the sender, the message number `k` has the header number `k`, a client that takes it apart
finds the blocks of one iteration, and the iterations increase (`received_of_run`). When each
`notifysend` finds `send` waiting, the message `k` is the frame of the iteration `k`
(`lossless_of_run`).
-/

namespace Aegir

open TransportConfig

variable {C R F K : Type*} {N : Nat} {o : ByteOrder}

section
variable {cfg : TransportConfig} {ff : FloatFormat F} {m : Mem} {q q' : WriteCall F} {c : Nat}

theorem hasCall_write (hf : cfg.NoOverflow) (hr : cfg.f32bit = true → cfg.rowmajor = false)
    (hq : q.channeln < cfg.N) :
    HasCall cfg o ff (cfg.write o ff m q.channeln q.readcnt q.inp) q.channeln q where
  readcnt hn := load32_write hf hq hr hn
  sample _ hi := write_sample hf hq hr hi

/-- A call for another channel leaves what was stored. -/
theorem hasCall_write_of_ne (hf : cfg.NoOverflow) (hr : cfg.f32bit = true → cfg.rowmajor = false)
    (hq : q.channeln < cfg.N) (hc : c < cfg.N) (hne : q.channeln ≠ c)
    (h : HasCall cfg o ff m c q') :
    HasCall cfg o ff (cfg.write o ff m q.channeln q.readcnt q.inp) c q' where
  readcnt hn := (load32_write_of_ne hf hq hr hn hne hc).trans (h.readcnt hn)
  sample i hi := (write_sample_of_ne hf hq hr hne hi).trans (h.sample i hi)

end

/-! ## The calls of the receiver -/

/-- What a step of the receiver adds to the calls of `write`, and the call of the transport in it. -/
inductive TransportStep (parts : ComplexParts C F) (s s' : CoherentState C R) :
    Option (PublishAction F) → Prop
  | none (hw : s'.hist.writes = s.hist.writes) (ht : s'.hist.iter = s.hist.iter) :
    TransportStep parts s s' none
  | write (w : Written C) (hw : s'.hist.writes = s.hist.writes ++ [w])
    (ht : s'.hist.iter = s.hist.iter) (hiter : w.iter = s.hist.iter) :
    TransportStep parts s s' (some (.write w.channeln w.readcnt (parts.floats w.samples)))
  | notifysend (hw : s'.hist.writes = s.hist.writes) (ht : s'.hist.iter = s.hist.iter + 1) :
    TransportStep parts s s' (some .notifysend)

namespace CoherentState

variable [Field C] [Star C] [Field R] [DecidableEq R] {cfg : CoherentConfig C R}
  {s s' : CoherentState C R} {a : CoherentAction} {parts : ComplexParts C F}

theorem transport_step (h : s.step cfg a = some s') :
    TransportStep parts s s' (s.transportCall cfg parts a) := by
  cases a with
  | loop =>
    cases loopStep_cases h with
    | refWrite hpc | write hpc =>
      simp only [transportCall, hpc]
      exact .write ⟨_, _, _, _, _, _, _, _⟩ rfl rfl rfl
    | notify hpc =>
      simp only [transportCall, hpc]
      exact .notifysend rfl rfl
    | refQueue hpc =>
      have hhist : (s.queuelag cfg 0).hist = s.hist := congrArg LoopCore.hist (queuelag_core 0)
      simp only [transportCall, hpc]
      exact .none (congrArg History.writes hhist) (congrArg History.iter hhist)
    | @queue _ i _ hpc =>
      have hhist : (s.queuelag cfg i).hist = s.hist := congrArg LoopCore.hist (queuelag_core i)
      simp only [transportCall, hpc]
      exact .none (congrArg History.writes hhist) (congrArg History.iter hhist)
    | lag hpc _ hs =>
      simp only [transportCall, hpc]
      have hhist := congrArg LoopCore.hist (computelag_core hs)
      exact .none (congrArg History.writes hhist) (congrArg History.iter hhist)
    | refRead hpc | refConv hpc | refConsume hpc | syncNext hpc | syncEnd _ hpc | read hpc
    | ready hpc | notReady hpc | conv hpc | lagtest hpc | noise hpc | est hpc | phase hpc
    | debug hpc | consume hpc | noLag hpc =>
      simp only [transportCall, hpc]
      exact .none rfl rfl
  | cmdphaseConv | cmdphaseEst =>
    simp only [step] at h
    split at h <;> cases h
    exact .none rfl rfl
  | _ => cases h; exact .none rfl rfl

end CoherentState

namespace ServerState

section
variable [Field C] [Star C] [Field R] [DecidableEq R] {cfg : ServerConfig C R F}
  {s s' : ServerState C R}

/-! ## What each step can do -/

theorem step_thread {a : CoherentAction} (h : s.step cfg (.thread a) = some s') :
    s.receiver.step cfg.receiver a = some s'.receiver ∧
      call cfg s.transport (s.receiver.transportCall cfg.receiver cfg.parts a) = some s'.transport := by
  obtain ⟨receiver, hr, h⟩ := Option.bind_eq_some_iff.mp h
  obtain ⟨transport, ht, rfl⟩ := Option.map_eq_some_iff.mp h
  exact ⟨hr, ht⟩

theorem step_send {a : SendAction} (h : s.step cfg (.send a) = some s') :
    s'.receiver = s.receiver ∧
      s.transport.step cfg.transport cfg.receiver.order cfg.ff a.publish = some s'.transport := by
  obtain ⟨transport, ht, rfl⟩ := Option.map_eq_some_iff.mp h
  exact ⟨rfl, ht⟩

end

end ServerState

namespace PublishState

variable {cfg : TransportConfig} {ff : FloatFormat F} {s s' : PublishState}

/-- What the steps of `send` leave alone. -/
structure SendStep (s s' : PublishState) : Prop where
  frames : s'.frames = s.frames
  packetbuf0 : s'.packetbuf0 = s.packetbuf0
  packetbuf1 : s'.packetbuf1 = s.packetbuf1
  mem : ∀ b i, 16 ≤ i → s'.mem b i = s.mem b i

theorem step_publish {a : SendAction} (h : s.step cfg o ff a.publish = some s') : SendStep s s' := by
  cases a with
  | hdrPtr =>
    obtain ⟨-, ⟨-, rfl⟩ | ⟨-, rfl⟩⟩ := step_hdrPtr h
    all_goals exact ⟨rfl, rfl, rfl, fun _ _ _ => rfl⟩
  | fillHeader =>
    obtain ⟨hdr, -, rfl⟩ := step_fillHeader h
    refine ⟨rfl, rfl, rfl, fun b i hi => ?_⟩
    show (s.setMem hdr _).mem b i = s.mem b i
    by_cases hb : b = hdr
    · subst hb
      rw [setMem_mem_self, fillHeader_of_ge hi]
    · rw [setMem_mem_of_ne _ _ _ hb]
  | wait =>
    obtain ⟨_, -, -, rfl⟩ := step_wait h
    exact ⟨rfl, rfl, rfl, fun _ _ _ => rfl⟩
  | load =>
    obtain ⟨_, -, rfl⟩ := step_load h
    exact ⟨rfl, rfl, rfl, fun _ _ _ => rfl⟩
  | copy =>
    obtain ⟨_, _, _, -, -, rfl⟩ := step_copy h
    exact ⟨rfl, rfl, rfl, fun _ _ _ => rfl⟩
  | sent =>
    obtain ⟨_, _, _, -, -, rfl⟩ := step_sent h
    exact ⟨rfl, rfl, rfl, fun _ _ _ => rfl⟩

end PublishState

namespace ServerState

open CoherentState (Correction Reception PacketInv Packs BlockSize)

/-! ## What the frames contain -/

/-- The memory has what the calls of `write` in the iteration `t` stored. -/
def HasCalls (cfg : ServerConfig C R F) (s : ServerState C R) (m : Mem) (t : Nat) : Prop :=
  ∀ w ∈ s.receiver.hist.writes, w.iter = t →
    HasCall cfg.transport cfg.receiver.order cfg.ff m w.channeln (w.call cfg.parts)

/-- The frame of each iteration has what its calls of `write` stored, and so has the buffer of the
iteration that is on its way. -/
structure FramesInv (cfg : ServerConfig C R F) (s : ServerState C R) : Prop where
  length : s.transport.frames.length = s.receiver.hist.iter
  frames : ∀ t f, s.transport.frames[t]? = some f →
    ∃ m, f = cfg.transport.message m ∧ HasCalls cfg s m t
  current : HasCalls cfg s (s.transport.mem s.transport.packetbuf0) s.receiver.hist.iter

/-- What holds of the calls of `write` in every run of the receiver. -/
structure CallsInv (cfg : ServerConfig C R F) (s : ServerState C R) : Prop where
  frames : LoopCore.FrameInv s.receiver.toLoopCore
  channel : ∀ w ∈ s.receiver.hist.writes, w.channeln < cfg.transport.N

/-- The transports whose calls of `write` store a channel behind the header, where it belongs. -/
structure StoresChannels (cfg : TransportConfig) : Prop where
  header : cfg.noheader = false
  fits : cfg.Fits
  order : cfg.f32bit = true → cfg.rowmajor = false

variable {cfg : ServerConfig C R F} {s s' : ServerState C R}

theorem storesChannels_of_packs {tcfg : TransportConfig} {ccfg : CoherentConfig C R}
    (hp : Packs tcfg ccfg) : StoresChannels tcfg where
  header := hp.header
  fits := hp.fits
  order h32 := absurd (hp.int8.symm.trans h32) (by decide)

theorem FramesInv.of_write (hi : FramesInv cfg s) (hst : StoresChannels cfg.transport) (hc : CallsInv cfg s')
    {w : Written C} (hw : s'.receiver.hist.writes = s.receiver.hist.writes ++ [w])
    (ht : s'.receiver.hist.iter = s.receiver.hist.iter) (hiter : w.iter = s.receiver.hist.iter)
    (htr : s'.transport = s.transport.setMem s.transport.packetbuf0
      (cfg.transport.write cfg.receiver.order cfg.ff (s.transport.mem s.transport.packetbuf0)
        w.channeln w.readcnt (cfg.parts.floats w.samples))) : FramesInv cfg s' := by
  have hch := hc.channel
  have hdistinct := hc.frames.distinct
  rw [hw] at hch hdistinct
  have hwn : w.channeln < cfg.transport.N := hch w (by simp)
  refine ⟨by rw [htr, ht]; exact hi.length, fun t f hf => ?_, fun v hv hvt => ?_⟩
  · rw [htr] at hf
    obtain ⟨m, hm, hcalls⟩ := hi.frames t f hf
    have hlt : t < s.receiver.hist.iter := hi.length ▸ (List.getElem?_eq_some_iff.mp hf).1
    refine ⟨m, hm, fun v hv hvt => ?_⟩
    rw [hw] at hv
    rcases List.mem_append.mp hv with hv | hv
    · exact hcalls v hv hvt
    · rw [List.mem_singleton.mp hv] at hvt
      omega
  · rw [htr, PublishState.setMem_packetbuf0, PublishState.setMem_mem_self]
    rw [hw] at hv
    rcases List.mem_append.mp hv with hv | hv
    · have hne : v.channeln ≠ w.channeln :=
        (List.pairwise_append.mp hdistinct).2.2 v hv w (by simp) (by omega)
      exact hasCall_write_of_ne (q := w.call cfg.parts) hst.fits.noOverflow hst.order hwn
        (hch v (by simp [hv])) hne.symm (hi.current v hv (by omega))
    · rw [List.mem_singleton.mp hv]
      exact hasCall_write (q := w.call cfg.parts) hst.fits.noOverflow hst.order hwn

theorem FramesInv.of_notifysend (hi : FramesInv cfg s) (hc : CallsInv cfg s)
    (hw : s'.receiver.hist.writes = s.receiver.hist.writes)
    (ht : s'.receiver.hist.iter = s.receiver.hist.iter + 1)
    (htr : s'.transport = s.transport.notifysend cfg.transport) : FramesInv cfg s' := by
  have hcalls : ∀ m t, HasCalls cfg s m t → HasCalls cfg s' m t := fun m t h w hm => h w (hw ▸ hm)
  refine ⟨?_, fun t f hf => ?_, fun w hm hwt => ?_⟩
  · rw [htr, ht, ← hi.length]
    simp [PublishState.notifysend]
  · rw [htr] at hf
    simp only [PublishState.notifysend] at hf
    rcases Nat.lt_trichotomy t s.transport.frames.length with hlt | rfl | hlt
    · rw [List.getElem?_append_left hlt] at hf
      obtain ⟨m, hm, h⟩ := hi.frames t f hf
      exact ⟨m, hm, hcalls m t h⟩
    · rw [List.getElem?_concat_length] at hf
      cases hf
      exact ⟨_, rfl, hcalls _ _ (hi.length ▸ hi.current)⟩
    · rw [List.getElem?_eq_none (by simp; omega)] at hf
      cases hf
  · have hbelow := hc.frames.below w (hw ▸ hm)
    omega

theorem FramesInv.of_send (hi : FramesInv cfg s) (hn : cfg.transport.noheader = false)
    (hr : s'.receiver = s.receiver) (hs : s.transport.SendStep s'.transport) : FramesInv cfg s' where
  length := by rw [hr, hs.frames]; exact hi.length
  frames t f hf := by
    obtain ⟨m, hm, hcalls⟩ := hi.frames t f (hs.frames ▸ hf)
    exact ⟨m, hm, fun w hw ht => hcalls w (hr ▸ hw) ht⟩
  current w hw ht := by
    rw [hr] at hw ht
    rw [hs.packetbuf0]
    exact (hi.current w hw ht).congr fun i hi => hs.mem _ i (le_of_stores hn hi)

/-! ## The invariant -/

/-- What holds of the transport in every state of a run in which the calls are in time. -/
structure ServerInv (cfg : ServerConfig C R F) (s : ServerState C R) : Prop where
  frames : FramesInv cfg s
  order : PublishState.OrderInv cfg.transport s.transport
  header : PublishState.HeaderInv cfg.transport cfg.receiver.order s.transport

/-- The bytes of a message as a client receives it. -/
def message (m : Published) : Message := ⟨m.msg.length, fun i => m.msg.getD i 0⟩

/-- A published message is a packet of an iteration that is over. -/
structure IsPacket (cfg : ServerConfig C R F) (s : ServerState C R) (m : Published) : Prop where
  iter : m.frame < s.receiver.hist.iter
  size : (message m).size = cfg.transport.packetlen
  header : ∃ k : Nat, readHdr0 cfg.receiver.order (message m).data = cfg.transport.hdr0 (.ofNat k)
  calls : HasCalls cfg s (message m).data m.frame

theorem ServerInv.isPacket (hi : ServerInv cfg s) (hst : StoresChannels cfg.transport)
    (hc : CallsInv cfg s) {m : Published} (hm : m ∈ s.transport.published) : IsPacket cfg s m := by
  obtain ⟨f, hf, hpay⟩ := hi.order.delivered.intact m hm
  obtain ⟨mem, rfl, hcalls⟩ := hi.frames.frames m.frame f hf
  have hstart : cfg.transport.payloadStart = 16 := by simp [payloadStart, hst.header]
  have hle := le_packetlen hst.header
  have hbytes : ∀ i, 16 ≤ i → m.msg[i]? = (cfg.transport.message mem)[i]? := fun i hi => by
    have hdrop := congrArg (·[i - 16]?) hpay
    simpa only [payload, hstart, List.getElem?_drop, show 16 + (i - 16) = i by omega] using hdrop
  obtain ⟨k, hk⟩ := List.mem_iff_getElem?.mp hm
  refine ⟨hi.frames.length ▸ hi.order.delivered.frame_lt hm, ?_, ⟨k, ?_⟩, fun w hw ht => ?_⟩
  · have hlen := congrArg List.length hpay
    have h16 := hi.header.labelled.length m hm
    simp only [payload, hstart, List.length_drop, TransportConfig.message, Mem.length_read] at hlen
    show m.msg.length = _
    omega
  · exact hi.header.labelled.header k m hk
  · refine (hcalls w hw ht).congr fun i hi => ?_
    have h16 := le_of_stores hst.header hi
    have hlt := hi.lt_packetlen hst.fits.noOverflow (hc.channel w hw)
    show m.msg.getD i 0 = _
    rw [List.getD_eq_getElem?_getD, hbytes i h16, TransportConfig.message, Mem.getElem?_read hlt,
      Nat.zero_add, Option.getD_some]

/-- The call of the transport leaves alone what `send` is about to publish. -/
def CallUndisturbed (t : PublishState) : Option (PublishAction F) → Prop
  | some a => t.SenderUndisturbed a
  | none => True

instance (t : PublishState) (a : Option (PublishAction F)) : Decidable (CallUndisturbed t a) :=
  match a with
  | some _ => inferInstanceAs (Decidable (t.SenderUndisturbed _))
  | none => .isTrue trivial

section
variable [Field C] [Star C] [Field R] [DecidableEq R]

/-- What a step adds to the record of the receiver. -/
def observe (s : ServerState C R) (a : ServerAction) (s' : ServerState C R) (r : Reception C) :
    Reception C :=
  match a with
  | .thread b => r.observe s.receiver b s'.receiver
  | .send _ => r

/-- No ring is overrun, the writer stays out of the windows of `send`, and the header that `send` has
stored is the one of the buffer that it publishes. -/
def InTime (N : Nat) (cfg : ServerConfig C R F) (s : ServerState C R) : ServerAction → Prop
  | .thread a => LoopCore.NoOverrun cfg.receiver.ndev N s.receiver.toLoopCore a ∧
      CallUndisturbed s.transport (s.receiver.transportCall cfg.receiver cfg.parts a)
  | .send a => s.transport.HeaderReachesMessage (F := F) cfg.transport a.publish

instance (cfg : ServerConfig C R F) (s : ServerState C R) (a : ServerAction) :
    Decidable (InTime N cfg s a) :=
  match a with
  | .thread _ => inferInstanceAs (Decidable (_ ∧ _))
  | .send a => inferInstanceAs (Decidable (s.transport.HeaderReachesMessage cfg.transport a.publish))

variable {a : ServerAction}

omit [Star C] [DecidableEq R] in
theorem ServerInv.init {noise : Bool} : ServerInv cfg (init cfg noise) where
  frames := ⟨rfl, fun _ _ h => by simp [ServerState.init, PublishState.init] at h,
    fun _ h => by simp [ServerState.init, CoherentState.init] at h⟩
  order := .init
  header := .init

theorem ServerInv.step (hi : ServerInv cfg s) (hst : StoresChannels cfg.transport)
    (hc : CallsInv cfg s) (hc' : CallsInv cfg s') (hok : InTime N cfg s a)
    (h : s.step cfg a = some s') : ServerInv cfg s' := by
  cases a with
  | send a =>
    obtain ⟨hr, hs⟩ := step_send h
    have hund : s.transport.SenderUndisturbed (F := F) a.publish := by cases a <;> trivial
    exact ⟨hi.frames.of_send hst.header hr (PublishState.step_publish hs), hi.order.step hund hs,
      hi.header.step hst.header hok hs⟩
  | thread a =>
    obtain ⟨hr, hcall⟩ := step_thread h
    have hstep : TransportStep cfg.parts s.receiver s'.receiver _ := CoherentState.transport_step hr
    obtain ⟨-, hund⟩ := hok
    generalize s.receiver.transportCall cfg.receiver cfg.parts a = call at hstep hcall hund
    cases hstep with
    | none hw ht =>
      have htr : s'.transport = s.transport := (Option.some.inj hcall).symm
      have hcalls : ∀ m t, HasCalls cfg s m t → HasCalls cfg s' m t := fun m t h w hm => h w (hw ▸ hm)
      refine ⟨⟨by rw [htr, ht]; exact hi.frames.length, fun t f hf => ?_, ?_⟩, htr ▸ hi.order,
        htr ▸ hi.header⟩
      · obtain ⟨m, hm, h⟩ := hi.frames.frames t f (htr ▸ hf)
        exact ⟨m, hm, hcalls m t h⟩
      · rw [htr, ht]
        exact hcalls _ _ hi.frames.current
    | write w hw ht hiter =>
      have hwn : w.channeln < cfg.transport.N := hc'.channel w (by simp [hw])
      have hbehind := behindHeader_of_fits hst.header hst.fits hwn
      exact ⟨hi.frames.of_write hst hc' hw ht hiter (Option.some.inj hcall).symm,
        hi.order.step (a := .write ..) hund hcall,
        hi.header.step hst.header (a := .write ..) hbehind hcall⟩
    | notifysend hw ht =>
      have hcall : s.transport.step cfg.transport cfg.receiver.order cfg.ff .notifysend =
        some s'.transport := hcall
      exact ⟨hi.frames.of_notifysend hc hw ht (Option.some.inj hcall).symm,
        hi.order.step (a := .notifysend) hund hcall,
        hi.header.step hst.header (a := .notifysend) trivial hcall⟩

/-! ## Runs -/

section
variable {noise : Bool} {r₀ : Correction C} {tr : List ServerAction}
  {p : ServerState C R × Reception C}

/-- The receiver does not see the main thread. -/
theorem receiver_of_run
    (h : Run (observed (step cfg) observe) (fun p a => InTime N cfg p.1 a)
      (init cfg noise, ⟨fun _ => [], r₀⟩) tr p) :
    ∃ tr', Run (observed (CoherentState.step cfg.receiver) Reception.observe)
      (fun p a => LoopCore.NoOverrun cfg.receiver.ndev N p.1.toLoopCore a)
      (.init cfg.receiver noise, ⟨fun _ => [], r₀⟩) tr' (p.1.receiver, p.2) := by
  refine h.project (fun p => (p.1.receiver, p.2)) fun p a p' hok hs => ?_
  obtain ⟨hs, hrec⟩ := observed_eq_some.mp hs
  cases a with
  | send a => exact .inl (by rw [(step_send hs).1, hrec]; rfl)
  | thread a => exact .inr ⟨a, hok.1, observed_eq_some.mpr ⟨(step_thread hs).1, hrec⟩⟩

/-- What a run gives. -/
structure Served (N : Nat) (cfg : ServerConfig C R F) (p : ServerState C R × Reception C) :
    Prop where
  packets : PacketInv N cfg.receiver (p.1.receiver, p.2)
  start : ∀ w ∈ p.1.receiver.hist.writes, w.channeln ≤ w.dev
  calls : CallsInv cfg p.1
  server : ServerInv cfg p.1

theorem served_of_run (hN : RingSize cfg.receiver.asyncbufn N)
    (hsize : BlockSize cfg.receiver.blocksize) (hst : StoresChannels cfg.transport)
    (hch : cfg.receiver.ndev < cfg.transport.N)
    (h : Run (observed (step cfg) observe) (fun p a => InTime N cfg p.1 a)
      (init cfg noise, ⟨fun _ => [], r₀⟩) tr p) : Served N cfg p := by
  have hall : ∀ tr p, Run (observed (step cfg) observe) (fun p a => InTime N cfg p.1 a)
      (init cfg noise, ⟨fun _ => [], r₀⟩) tr p → PacketInv N cfg.receiver (p.1.receiver, p.2) ∧
        (∀ w ∈ p.1.receiver.hist.writes, w.channeln ≤ w.dev) ∧ CallsInv cfg p.1 := by
    intro tr p h
    obtain ⟨tr', hrun⟩ := receiver_of_run h
    have hi : PacketInv N cfg.receiver (p.1.receiver, p.2) := .of_run hN hsize hrun
    have hle : ∀ w ∈ p.1.receiver.hist.writes, w.channeln ≤ w.dev := fun w hw =>
      CoherentState.channeln_le (p := (p.1.receiver, p.2)) (CoherentState.run_of_observed hrun)
        ⟨rfl, rfl, rfl⟩ hw
    refine ⟨hi, hle, hi.frames, fun w hw => ?_⟩
    have hdev := (hi.received.blocks.writes w hw).dev_le
    exact ((hle w hw).trans hdev).trans_lt hch
  obtain ⟨hi, hle, hc⟩ := hall tr p h
  refine ⟨hi, hle, hc, ?_⟩
  refine h.invariant_of (I := fun p => ServerInv cfg p.1) hall .init ?_
  intro p a p' hJ hJ' hi hok hs
  exact hi.step hst hJ.2.2 hJ'.2.2 hok (observed_eq_some.mp hs).1

end

/-! ## What the clients get -/

section
variable [Field K] {cfg : ServerConfig C R K}

/-- What the clients get of a run. -/
structure Received (K : Type*) [Field K] (cfg : ServerConfig C R K)
    (p : ServerState C R × Reception C) : Prop where
  /-- Frames may be lost, but none is repeated or overtaken. -/
  inOrder : p.1.transport.published.Pairwise (·.frame < ·.frame)
  header : ∀ k m, p.1.transport.published[k]? = some m →
    messageHdr0 cfg.receiver.order m.msg = cfg.transport.hdr0 (.ofNat k)
  channels : ∀ m ∈ p.1.transport.published, ∀ w ∈ p.1.receiver.hist.writes, w.iter = m.frame →
    Shown K cfg.transport cfg.receiver.order (message m) w.channeln (.ofNat w.block) fun i =>
      cfg.ff.convert8i (cfg.parts.floats w.samples i)
  reference : ∀ m ∈ p.1.transport.published, ∃ b, (p.2.deliveries 0)[m.frame]? = some b ∧
    ∃ x : Nat → Int8, (∀ i < cfg.transport.B, (x i).toInt = ((b.2 i).toNat : ℤ) - 128) ∧
      Shown K cfg.transport cfg.receiver.order (message m) 0 (.ofNat m.frame) x

omit [Star C] [Field R] [DecidableEq R] in
theorem Served.shown (hi : Served N cfg p) (hsize : BlockSize cfg.receiver.blocksize)
    (hp : Packs cfg.transport cfg.receiver) {m : Published} (hm : m ∈ p.1.transport.published)
    {w : Written C} (hw : w ∈ p.1.receiver.hist.writes) (ht : w.iter = m.frame) :
    Shown K cfg.transport cfg.receiver.order (message m) w.channeln (.ofNat w.block) fun i =>
      cfg.ff.convert8i (cfg.parts.floats w.samples i) := by
  have hpacket := hi.server.isPacket (storesChannels_of_packs hp) hi.calls hm
  obtain ⟨k, hk⟩ := hpacket.header
  have hB : cfg.transport.B = cfg.receiver.blocksize.toNat := congrArg UInt32.toNat hp.blocksize
  have hwords := hsize.words
  have hpos := hp.pos
  have hcall : HasCall _ _ _ _ _ (w.call cfg.parts) := hpacket.calls w hw ht
  rw [← hi.packets.readcnt hw]
  exact shown_of_hasCall hp.int8 hp.header hp.fits (by omega) (by omega) hpacket.size hk hcall
    (hi.calls.channel w hw)

variable [LinearOrder K] [IsStrictOrderedRing K]

omit [Star C] [Field R] [DecidableEq R] in
theorem Served.received (hi : Served N cfg p) (hsize : BlockSize cfg.receiver.blocksize)
    (hp : Packs cfg.transport cfg.receiver) (hff : cfg.ff.RoundsAndClamps)
    (hparts : cfg.parts.Exact cfg.receiver.cf) : Received K cfg p := by
  refine ⟨hi.server.order.delivered.inOrder, hi.server.header.labelled.header,
    fun m hm w hw ht => hi.shown hsize hp hm hw ht, fun m hm => ?_⟩
  have hiter := (hi.server.isPacket (storesChannels_of_packs hp) hi.calls hm).iter
  obtain ⟨w, hw, hdev, ht, hblock⟩ := hi.packets.exists_ref hiter
  obtain ⟨b, hb, x, hx, hquant⟩ := hi.packets.reference hsize hff hparts hw hdev
  have hshown := hi.shown hsize hp hm hw ht
  have hchannel : w.channeln = 0 := Nat.le_zero.mp (hdev ▸ hi.start w hw)
  have hB : cfg.transport.B = cfg.receiver.blocksize.toNat := congrArg UInt32.toNat hp.blocksize
  rw [hblock] at hb
  rw [hchannel, hblock] at hshown
  exact ⟨b, hb, x, fun i hi => hx i (hB ▸ hi), hshown.congr fun i hi => hquant i (hB ▸ hi)⟩

/-- In every run in which no ring is overrun and the calls of the transport are in time: the message
number `k` has the header number `k`, and the clients show in it the blocks of one iteration, which is
later than those of the messages before. The reference is channel 0, and its block has the number of the
iteration. -/
theorem received_of_run (hN : RingSize cfg.receiver.asyncbufn N)
    (hsize : BlockSize cfg.receiver.blocksize) (hp : Packs cfg.transport cfg.receiver)
    (hff : cfg.ff.RoundsAndClamps) (hparts : cfg.parts.Exact cfg.receiver.cf)
    (h : Run (observed (step cfg) observe) (fun p a => InTime N cfg p.1 a)
      (init cfg noise, ⟨fun _ => [], r₀⟩) tr p) : Received K cfg p := by
  have hi : Served N cfg p := served_of_run hN hsize (storesChannels_of_packs hp) hp.channels h
  exact hi.received hsize hp hff hparts

end

end

/-! ### A server with one signal device -/

/-- The receiver of `reference_of_run_filledRings` with its transport. -/
noncomputable def complexServer : ServerConfig ℂ ℚ ℝ where
  receiver := CoherentState.complexReceiver
  transport := CoherentState.twoDevices
  parts := ⟨Complex.re, Complex.im⟩
  ff := towardsZero ℝ

/-- Both drivers deliver a block, and the loop takes `n` steps. -/
def deliverAndLoop (n : Nat) : List ServerAction :=
  [.thread (.swapbuffer 0 CoherentState.onesBlock),
    .thread (.swapbuffer 1 CoherentState.minusOnesBlock)] ++ List.replicate n (.thread .loop)

/-- The rest of a call of `send` once a frame is there. -/
def sendFrame : List ServerAction :=
  [.send .wait, .send .load] ++ List.replicate 56 (.send .copy) ++ [.send .sent]

/-- `send` stores its header, and the writer finishes three frames before the main thread is scheduled
again. -/
def lateTrace : List ServerAction :=
  [.send .hdrPtr, .send .fillHeader] ++ deliverAndLoop 10 ++ deliverAndLoop 19 ++ deliverAndLoop 18 ++
    sendFrame

theorem received_of_run_lateTrace :
    ∃ p : ServerState ℂ ℚ × Reception ℂ,
      Run (observed (step complexServer) observe) (fun p a => InTime 2 complexServer p.1 a)
        (init complexServer true, CoherentState.emptyReception) lateTrace p ∧
      p.1.transport.published.map (·.frame) = [2] ∧ Received ℝ complexServer p := by
  obtain ⟨p, hrun, hp⟩ := Run.exists_of_exec (observed (step complexServer) observe)
    (fun p a => InTime 2 complexServer p.1 a)
    (init complexServer true, CoherentState.emptyReception) lateTrace
    (fun p => p.1.transport.published.map (·.frame) = [2]) (by decide +kernel)
  refine ⟨p, hrun, of_decide_eq_true hp, ?_⟩
  exact received_of_run CoherentState.ringSize_two ⟨by decide, by decide⟩
    CoherentState.packs_complexReceiver towardsZero_roundsAndClamps CoherentState.exact_complexReceiver
    hrun

end ServerState

end Aegir
