import Aegir.Model.Coherent

/-!
# What a step of the coherent loop can do

`LoopStep` lists the steps of the coherent loop, one constructor for each branch of its body, with the
state that it leaves. `CoreStep` describes a step by what it does to the streams, the position and the
history, whatever the samples and flags are. Each step of the model is one (`step_core`); the invariants
about blocks and channels are proved over `CoreStep` and hold for the model by `core_invariant`.
-/

namespace Aegir

/-- The loop is between `is_ready` and `transport->write`. -/
def DevPc.correcting : DevPc → Bool
  | .conv | .lagtest | .queue | .noise | .est | .phase => true
  | _ => false

/-- The action changes no stream and is no step of the loop. -/
def CoherentAction.quiet : CoherentAction → Bool
  | .loop | .swapbuffer .. | .setStreaming .. => false
  | _ => true

variable {C R : Type*}

/-- What a step does to the core of the state. -/
inductive CoreStep (ndev : Nat) (o : ByteOrder) :
    CoherentAction → LoopCore C → LoopCore C → Prop
  | refRead {s d} (hpc : s.pc = .refRead) (hd : (s.stream 0).read = some d) :
    CoreStep ndev o .loop s ((s.setStream 0 d).goto .refConv)
  | refConv {s} (hpc : s.pc = .refConv) : CoreStep ndev o .loop s (s.goto .refQueue)
  | refQueue {s} (hpc : s.pc = .refQueue) : CoreStep ndev o .loop s (s.goto .refWrite)
  | refWrite {s} (samples) (hpc : s.pc = .refWrite) :
    CoreStep ndev o .loop s ((s.write 0 0 samples).goto .refConsume)
  | refConsume {s} (hpc : s.pc = .refConsume) :
    CoreStep ndev o .loop s ((s.consume 0).goto (.syncTest 1))
  | syncNext {s i} (hpc : s.pc = .syncTest i) : CoreStep ndev o .loop s (s.goto (.syncTest (i + 1)))
  | syncEnd {s i} (a) (hpc : s.pc = .syncTest i) :
    CoreStep ndev o .loop s (s.goto (nextDev ndev a 1 1))
  | read {s a i c d} (hpc : s.pc = .dev a i c .read) (hd : (s.stream i).read = some d) :
    CoreStep ndev o .loop s ((s.setStream i d).goto (.dev a i c .test))
  | ready {s a i c} (hpc : s.pc = .dev a i c .test) :
    CoreStep ndev o .loop s ((s.foundReady i true).goto (.dev a i c .conv))
  | notReady {s a i c} (hpc : s.pc = .dev a i c .test) :
    CoreStep ndev o .loop s ((s.foundReady i false).goto (nextDev ndev a (i + 1) c))
  | correcting {s a i c p p'} (hpc : s.pc = .dev a i c p) (hp : p.correcting = true)
    (hp' : p'.correcting = true ∨ p' = .write) : CoreStep ndev o .loop s (s.goto (.dev a i c p'))
  | write {s a i c} (samples) (hpc : s.pc = .dev a i c .write) :
    CoreStep ndev o .loop s ((s.write i c samples).goto (.dev a i c .debug))
  | debug {s a i c} (p) (hpc : s.pc = .dev a i c .debug) :
    CoreStep ndev o .loop s ((s.writedebug i c p).goto (.dev a i c .consume))
  | consume {s a i c} (hpc : s.pc = .dev a i c .consume) :
    CoreStep ndev o .loop s ((s.consume i).goto (nextDev ndev a (i + 1) (c + 1)))
  | lag {s} (hpc : s.pc = .lag) : CoreStep ndev o .loop s (s.goto .notify)
  | notify {s} (hpc : s.pc = .notify) : CoreStep ndev o .loop s (s.notifysend.goto .refRead)
  | swapbuffer {s} (k b) : CoreStep ndev o (.swapbuffer k b) s (s.swapbuffer o k b)
  | setStreaming {s} (k on) :
    CoreStep ndev o (.setStreaming k on) s (s.setStream k { s.stream k with streaming := on })
  | quiet {s a} (ha : a.quiet = true) : CoreStep ndev o a s s

namespace CoherentState

variable {cfg : CoherentConfig C R} {s s' : CoherentState C R}

theorem queuelag_core (k : Nat) : (s.queuelag cfg k).toLoopCore = s.toLoopCore := by
  unfold queuelag
  split <;> rfl

/-- What the new state of a device keeps of the old one, all devices keep. -/
theorem setDsp_keeps {β : Type*} (f : Csdrdevice C R → β) {j : Nat} {d : Csdrdevice C R}
    (h : f d = f (s.dsp j)) (k : Nat) : f ((s.setDsp j d).dsp k) = f (s.dsp k) := by
  simp only [setDsp]
  by_cases hk : k = j
  · subst hk
    rw [Function.update_self, h]
  · rw [Function.update_of_ne hk]

theorem queuelag_dsp (k : Nat) : (s.queuelag cfg k).dsp = s.dsp := by
  unfold queuelag
  split <;> rfl

variable [Field C] [Star C] [Field R] [DecidableEq R]

theorem computelag_core (h : s.computelag cfg = some s') : s'.toLoopCore = s.toLoopCore := by
  obtain ⟨dsp, -, rfl⟩ := Option.map_eq_some_iff.mp h
  rfl

/-! ## The branches -/

/-- The branches of the loop. -/
inductive LoopStep (cfg : CoherentConfig C R) (s : CoherentState C R) : CoherentState C R → Prop
  | refRead {d} (hpc : s.pc = .refRead) (hd : (s.stream 0).read = some d) :
    LoopStep cfg s { s.withCore ((s.setStream 0 d).goto .refConv) with lagqueue := [] }
  | refConv (hpc : s.pc = .refConv) :
    LoopStep cfg s { s.setDsp 0 ((s.dsp 0).refConvtofloat cfg.cf cfg.blocksize.toNat
      (s.stream 0).s8bit.getbufferptr) with pc := .refQueue }
  | refQueue (hpc : s.pc = .refQueue) : LoopStep cfg s { s.queuelag cfg 0 with pc := .refWrite }
  | refWrite (hpc : s.pc = .refWrite) :
    LoopStep cfg s (s.withCore ((s.write 0 0 (s.refSamples cfg)).goto .refConsume))
  | refConsume (hpc : s.pc = .refConsume) :
    LoopStep cfg s (s.withCore ((s.toLoopCore.consume 0).goto (.syncTest 1)))
  | syncNext {i} (hpc : s.pc = .syncTest i) (hi : i ≤ cfg.ndev) (hs : (s.dsp i).synced = true) :
    LoopStep cfg s { s with pc := .syncTest (i + 1) }
  | syncEnd {i} (a) (hpc : s.pc = .syncTest i) (ha : a = decide (cfg.ndev < i))
      (hs : a = false → (s.dsp i).synced = false) :
    LoopStep cfg s { s with pc := nextDev cfg.ndev a 1 1 }
  | read {a i c d} (hpc : s.pc = .dev a i c .read) (hd : (s.stream i).read = some d) :
    LoopStep cfg s (s.withCore ((s.setStream i d).goto (.dev a i c .test)))
  | ready {a i c} (hpc : s.pc = .dev a i c .test) (hr : (s.stream i).isReady = true) :
    LoopStep cfg s (s.withCore ((s.foundReady i true).goto (.dev a i c .conv)))
  | notReady {a i c} (hpc : s.pc = .dev a i c .test) (hr : (s.stream i).isReady = false) :
    LoopStep cfg s (s.withCore ((s.foundReady i false).goto (nextDev cfg.ndev a (i + 1) c)))
  | conv {a i c} (hpc : s.pc = .dev a i c .conv) :
    LoopStep cfg s { s.setDsp i ((s.dsp i).convtofloat cfg.cf cfg.blocksize.toNat
      (s.stream i).s8bit.getbufferptr) with
        pc := .dev a i c (if a then .phase else .lagtest) }
  | lagtest {a i c} (hpc : s.pc = .dev a i c .lagtest) :
    LoopStep cfg s
      { s with pc := .dev a i c (if (s.dsp i).lagrequested then .queue else .noise) }
  | queue {a i c} (hpc : s.pc = .dev a i c .queue) :
    LoopStep cfg s { s.queuelag cfg i with pc := .dev a i c .noise }
  | noise {a i c} (hpc : s.pc = .dev a i c .noise) :
    LoopStep cfg s { s with pc := .dev a i c (if s.noise then .est else .phase) }
  | est {a i c} (hpc : s.pc = .dev a i c .est) :
    LoopStep cfg s { s.setDsp i ((s.dsp i).estPhasecorrect cfg.cf cfg.blocksize.toNat
      (s.refSamples cfg)) with pc := .dev a i c .phase }
  | phase {a i c} (hpc : s.pc = .dev a i c .phase) :
    LoopStep cfg s { s.setDsp i ((s.dsp i).phasecorrect cfg.blocksize.toNat) with
      pc := .dev a i c .write }
  | write {a i c} (hpc : s.pc = .dev a i c .write) :
    LoopStep cfg s (s.withCore ((s.write i c (s.dsp i).sfloat).goto (.dev a i c .debug)))
  | debug {a i c} (hpc : s.pc = .dev a i c .debug) :
    LoopStep cfg s
      (s.withCore ((s.writedebug i c (s.dsp i).phasecorr).goto (.dev a i c .consume)))
  | consume {a i c} (hpc : s.pc = .dev a i c .consume) :
    LoopStep cfg s
      (s.withCore ((s.toLoopCore.consume i).goto (nextDev cfg.ndev a (i + 1) (c + 1))))
  | lag {s₁} (hpc : s.pc = .lag) (hl : 1 < s.lagqueue.length) (hs : s.computelag cfg = some s₁) :
    LoopStep cfg s { s₁ with pc := .notify }
  | noLag (hpc : s.pc = .lag) (hl : s.lagqueue.length ≤ 1) : LoopStep cfg s { s with pc := .notify }
  | notify (hpc : s.pc = .notify) : LoopStep cfg s (s.withCore (s.notifysend.goto .refRead))

theorem devStep_cases {a : Bool} {i c : Nat} {p : DevPc} (hpc : s.pc = .dev a i c p)
    (h : s.devStep cfg a i c p = some s') : LoopStep cfg s s' := by
  cases p with
  | read =>
    obtain ⟨d, hd, rfl⟩ := Option.map_eq_some_iff.mp h
    exact .read hpc hd
  | test =>
    simp only [devStep] at h
    split at h
    case isTrue hr => cases h; exact .ready hpc hr
    case isFalse hr => cases h; exact .notReady hpc (Bool.eq_false_iff.mpr hr)
  | conv => cases h; exact .conv hpc
  | lagtest => cases h; exact .lagtest hpc
  | queue => cases h; exact .queue hpc
  | noise => cases h; exact .noise hpc
  | est => cases h; exact .est hpc
  | phase => cases h; exact .phase hpc
  | write => cases h; exact .write hpc
  | debug => cases h; exact .debug hpc
  | consume => cases h; exact .consume hpc

/-- What the loop can do. -/
theorem loopStep_cases (h : s.loopStep cfg = some s') : LoopStep cfg s s' := by
  unfold loopStep at h
  split at h
  case h_1 hpc =>
    obtain ⟨d, hd, rfl⟩ := Option.map_eq_some_iff.mp h
    exact .refRead hpc hd
  case h_2 hpc => cases h; exact .refConv hpc
  case h_3 hpc => cases h; exact .refQueue hpc
  case h_4 hpc => cases h; exact .refWrite hpc
  case h_5 hpc => cases h; exact .refConsume hpc
  case h_6 i hpc =>
    split at h
    case isTrue hi =>
      split at h
      case isTrue hs => cases h; exact .syncNext hpc hi hs
      case isFalse hs =>
        cases h
        exact .syncEnd false hpc (decide_eq_false hi.not_gt).symm fun _ => Bool.eq_false_iff.mpr hs
    case isFalse hi => cases h; exact .syncEnd true hpc (decide_eq_true (not_le.mp hi)).symm nofun
  case h_7 a i c p hpc => exact devStep_cases hpc h
  case h_8 hpc =>
    split at h
    case isTrue hl =>
      obtain ⟨s₁, hs, rfl⟩ := Option.map_eq_some_iff.mp h
      exact .lag hpc hl hs
    case isFalse hl => cases h; exact .noLag hpc (not_lt.mp hl)
  case h_9 hpc => cases h; exact .notify hpc

/-! ## The core -/

/-- Every branch of the loop is a step of the core. -/
theorem LoopStep.core (h : LoopStep cfg s s') :
    CoreStep cfg.ndev cfg.order .loop s.toLoopCore s'.toLoopCore := by
  cases h with
  | refRead hpc hd => exact .refRead hpc hd
  | refConv hpc => exact .refConv hpc
  | refQueue hpc =>
    have hq : (s.queuelag cfg 0).toLoopCore = s.toLoopCore := queuelag_core 0
    show CoreStep _ _ _ _ { (s.queuelag cfg 0).toLoopCore with pc := .refWrite }
    rw [hq]
    exact .refQueue hpc
  | refWrite hpc => exact .refWrite _ hpc
  | refConsume hpc => exact .refConsume hpc
  | syncNext hpc => exact .syncNext hpc
  | syncEnd a hpc => exact .syncEnd a hpc
  | read hpc hd => exact .read hpc hd
  | ready hpc => exact .ready hpc
  | notReady hpc => exact .notReady hpc
  | @conv a _ _ hpc => exact .correcting hpc rfl (.inl (by cases a <;> rfl))
  | @lagtest _ i _ hpc =>
    exact .correcting hpc rfl (.inl (by cases (s.dsp i).lagrequested <;> rfl))
  | @queue a i c hpc =>
    have hq : (s.queuelag cfg i).toLoopCore = s.toLoopCore := queuelag_core i
    show CoreStep _ _ _ _ { (s.queuelag cfg i).toLoopCore with pc := .dev a i c .noise }
    rw [hq]
    exact .correcting hpc rfl (.inl rfl)
  | noise hpc => exact .correcting hpc rfl (.inl (by cases s.noise <;> rfl))
  | est hpc => exact .correcting hpc rfl (.inl rfl)
  | phase hpc => exact .correcting hpc rfl (.inr rfl)
  | write hpc => exact .write _ hpc
  | debug hpc => exact .debug _ hpc
  | consume hpc => exact .consume hpc
  | @lag s₁ hpc _ hs =>
    show CoreStep _ _ _ _ { s₁.toLoopCore with pc := .notify }
    rw [computelag_core hs]
    exact .lag hpc
  | noLag hpc => exact .lag hpc
  | notify hpc => exact .notify hpc

/-- Every step of the threads is a step of the core. -/
theorem step_core {a : CoherentAction} (h : s.step cfg a = some s') :
    CoreStep cfg.ndev cfg.order a s.toLoopCore s'.toLoopCore := by
  cases a with
  | loop => exact (loopStep_cases h).core
  | swapbuffer k b => cases h; exact .swapbuffer k b
  | setStreaming k on => cases h; exact .setStreaming k on
  | setSynchronized | storeLagrequested | clearLagready | setState => cases h; exact .quiet rfl
  | cmdphaseConv | cmdphaseEst =>
    simp only [step] at h
    split at h <;> cases h
    exact .quiet rfl

theorem core_invariant {I : LoopCore C → Prop} (ok : LoopCore C → CoherentAction → Prop)
    {s₀ : CoherentState C R} {tr : List CoherentAction} (h₀ : I s₀.toLoopCore)
    (hstep : ∀ s a s', I s → ok s a → CoreStep cfg.ndev cfg.order a s s' → I s')
    (h : Run (CoherentState.step cfg) (fun s a => ok s.toLoopCore a) s₀ tr s) : I s.toLoopCore :=
  h.invariant (I := fun s => I s.toLoopCore) h₀ fun _ _ _ hi hok hs =>
    hstep _ _ _ hi hok (step_core hs)

/-- A receiver for concrete runs. Its samples and lags play no part in them. -/
def smallReceiver (ndev : Nat) (asyncbufn : UInt32) : CoherentConfig ℚ ℚ where
  ndev
  nfft := 8
  blocksize := 8
  asyncbufn
  order := .little
  cf := ⟨0, id⟩
  kernels := ⟨fun _ => id, fun _ => id, id, fun _ _ => 0, id⟩
  planned := ⟨0, 0, 0, 0, 0⟩

end CoherentState
end Aegir
