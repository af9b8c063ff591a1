import Aegir.Verify.SampleBuffers

/-!
# What an iteration keeps

The copy of the loop body in which the loop is, the noise, the lags and the converted samples: what
each step leaves of them, by cases on `LoopStep`.
-/

namespace Aegir

/-- The copy of the loop body for synchronized devices has no test for a lag request or for the
noise. -/
def LoopPc.InCopy : LoopPc → Prop
  | .dev true _ _ p => p ≠ .lagtest ∧ p ≠ .queue ∧ p ≠ .noise ∧ p ≠ .est
  | _ => True

theorem inCopy_nextDev {ndev i c : Nat} {a : Bool} : (nextDev ndev a i c).InCopy := by
  unfold nextDev
  split
  · cases a <;> simp [LoopPc.InCopy]
  · trivial

/-- The loop has converted the block of the device and not yet corrected it. -/
def DevPc.converted : DevPc → Bool
  | .lagtest | .queue | .noise | .est | .phase => true
  | _ => false

namespace CoherentState

variable {C R : Type*} [Field C] [Star C] [Field R] [DecidableEq R] {cfg : CoherentConfig C R}
  {s s' : CoherentState C R}

theorem LoopStep.inCopy (h : LoopStep cfg s s') (hi : s.pc.InCopy) : s'.pc.InCopy := by
  cases h with
  | syncEnd | notReady | consume => exact inCopy_nextDev
  | @read a i c | @ready a i c | @conv a i c | @phase a i c | @write a i c | @debug a i c =>
    cases a <;> simp [LoopPc.InCopy, withCore, LoopCore.goto]
  | @lagtest a i c hpc | @queue a i c hpc | @noise a i c hpc | @est a i c hpc =>
    cases a
    · trivial
    · rw [hpc] at hi
      simp [LoopPc.InCopy] at hi
  | _ => trivial

/-- The loop leaves the noise as it is, and comes to the estimate only when the noise is enabled. -/
theorem LoopStep.noise_eq (h : LoopStep cfg s s') : s'.noise = s.noise := by
  cases h with
  | refQueue | queue =>
    simp only [queuelag]
    split <;> rfl
  | lag _ _ hs =>
    obtain ⟨dsp, -, rfl⟩ := Option.map_eq_some_iff.mp hs
    rfl
  | _ => rfl

/-- Only the loop moves, queues devices and stores into the buffers. -/
theorem step_frame {a : CoherentAction} (h : s.step cfg a = some s') (ha : a ≠ .loop) :
    s'.pc = s.pc ∧ s'.lagqueue = s.lagqueue ∧ s'.buf = s.buf := by
  cases a with
  | loop => exact absurd rfl ha
  | cmdphaseConv | cmdphaseEst =>
    simp only [step] at h
    split at h <;> cases h
    exact ⟨rfl, rfl, rfl⟩
  | _ => cases h; exact ⟨rfl, rfl, rfl⟩

theorem step_pc {a : CoherentAction} (h : s.step cfg a = some s') (ha : a ≠ .loop) :
    s'.pc = s.pc := (step_frame h ha).1

theorem step_inCopy {a : CoherentAction} (h : s.step cfg a = some s') (hi : s.pc.InCopy) :
    s'.pc.InCopy := by
  by_cases ha : a = .loop
  · subst ha
    exact (loopStep_cases h).inCopy hi
  · rw [step_pc h ha]
    exact hi

/-! ## The computation of the lags -/

omit [Field C] [Star C] in
theorem fraction_isSome (y1 y2 y3 : R) : (fraction y1 y2 y3).isSome := by
  simp only [fraction]
  split
  · rename_i ha
    rw [divide_of_ne ha]
    rfl
  · rfl

/-- The calls of `set_lag`, one after the other. -/
def setLags (calls : List (Nat × Lagpoint R)) (dsp : Nat → Csdrdevice C R) :
    Nat → Csdrdevice C R :=
  calls.foldl (fun dsp c => Function.update dsp c.1 ((dsp c.1).setLag c.2)) dsp

omit [Field C] [Star C] [Field R] [DecidableEq R] in
theorem setLags_apply (calls : List (Nat × Lagpoint R)) (dsp : Nat → Csdrdevice C R) (k : Nat) :
    (k ∈ calls.map (·.1) → ∃ p, setLags calls dsp k = (dsp k).setLag p) ∧
      (k ∉ calls.map (·.1) → setLags calls dsp k = dsp k) := by
  induction calls generalizing dsp with
  | nil => exact ⟨nofun, fun _ => rfl⟩
  | cons c calls ih =>
    obtain ⟨hmem, hnot⟩ := ih (Function.update dsp c.1 ((dsp c.1).setLag c.2))
    simp only [List.map_cons, List.mem_cons, not_or]
    by_cases hk : k = c.1
    · subst hk
      rw [Function.update_self] at hmem hnot
      refine ⟨fun _ => ?_, fun h => absurd rfl h.1⟩
      by_cases hin : c.1 ∈ calls.map (·.1)
      · -- the lag of a later call replaces this one
        obtain ⟨p, hp⟩ := hmem hin
        exact ⟨p, hp⟩
      · exact ⟨c.2, hnot hin⟩
    · rw [Function.update_of_ne hk] at hmem hnot
      exact ⟨fun h => hmem (h.resolve_left hk), fun h => hnot h.2⟩

omit [Field C] [Star C] in
theorem setLags_of_foldlM {smagsqr : Nat → R} {qs : List (Nat × Nat)}
    {dsp dsp' : Nat → Csdrdevice C R} (h : qs.foldlM (lagRound cfg smagsqr) dsp = some dsp') :
    ∃ calls : List (Nat × Lagpoint R), dsp' = setLags calls dsp ∧
      calls.map (·.1) = qs.map (·.1) ∧ ∀ c ∈ calls, ∃ k, (c.1, k) ∈ qs ∧
        lagpoint cfg.kernels cfg.blocksize.toNat smagsqr k = some c.2 := by
  induction qs generalizing dsp with
  | nil =>
    cases h
    exact ⟨[], rfl, rfl, nofun⟩
  | cons q qs ih =>
    rw [List.foldlM_cons] at h
    obtain ⟨dsp₁, hq, h⟩ := Option.bind_eq_some_iff.mp h
    obtain ⟨p, hp, rfl⟩ := Option.map_eq_some_iff.mp hq
    obtain ⟨calls, rfl, hdevices, hcalls⟩ := ih h
    refine ⟨(q.1, p) :: calls, rfl, congrArg (q.1 :: ·) hdevices, ?_⟩
    refine List.forall_mem_cons.mpr ⟨⟨q.2, List.mem_cons_self, hp⟩, fun c hc => ?_⟩
    obtain ⟨k, hk, hlag⟩ := hcalls c hc
    exact ⟨k, List.mem_cons_of_mem q hk, hlag⟩

/-- The loop synchronizes no device, and stores a lag only at its end. -/
theorem LoopStep.flags_eq (h : LoopStep cfg s s') (hl : s.pc = .lag → s.lagqueue.length ≤ 1) (k : Nat) :
    (s'.dsp k).synced = (s.dsp k).synced ∧ (s'.dsp k).lagready = (s.dsp k).lagready := by
  cases h with
  | refConv | conv | est | phase =>
    exact ⟨setDsp_keeps Csdrdevice.synced (by rfl) k, setDsp_keeps Csdrdevice.lagready (by rfl) k⟩
  | refQueue | queue => simp [queuelag_dsp]
  | lag hpc hlt => exact absurd (hl hpc) (by omega)
  | _ => exact ⟨rfl, rfl⟩

/-- `computelag` calls `set_lag` for the devices in the queue but the first one. -/
theorem computelag_cases (h : s.computelag cfg = some s') :
    ∃ calls : List (Nat × Lagpoint R),
      s' = { s with
        dsp := setLags calls s.dsp
        buf := s.buf.transform cfg.kernels cfg.blocksize.toNat cfg.nfft s.lagqueue.length
        lagqueue := [] } ∧
      calls.map (·.1) = s.lagqueue.drop 1 ∧
      ∀ c ∈ calls, ∃ k, (c.1, k) ∈ s.lagqueue.zipIdx.drop 1 ∧
        lagpoint cfg.kernels cfg.blocksize.toNat s'.buf.smagsqr k = some c.2 := by
  obtain ⟨dsp, hfold, rfl⟩ := Option.map_eq_some_iff.mp h
  obtain ⟨calls, rfl, hdevices, hcalls⟩ := setLags_of_foldlM hfold
  refine ⟨calls, rfl, ?_, hcalls⟩
  rw [hdevices, List.map_drop, List.zipIdx_map_fst]

theorem computelag_dsp (h : s.computelag cfg = some s') (k : Nat) :
    (k ∈ s.lagqueue.drop 1 → ∃ p, s'.dsp k = (s.dsp k).setLag p) ∧
      (k ∉ s.lagqueue.drop 1 → s'.dsp k = s.dsp k) := by
  obtain ⟨calls, rfl, hdevices, -⟩ := computelag_cases h
  rw [← hdevices]
  exact setLags_apply calls s.dsp k

/-- What `computelag` leaves as it is. -/
theorem computelag_frame (h : s.computelag cfg = some s') (k : Nat) :
    (s'.dsp k).sfloat = (s.dsp k).sfloat ∧ (s'.dsp k).phasecorr = (s.dsp k).phasecorr := by
  obtain ⟨hmem, hnot⟩ := computelag_dsp h k
  by_cases hk : k ∈ s.lagqueue.drop 1
  · obtain ⟨p, hp⟩ := hmem hk
    rw [hp]
    exact ⟨rfl, rfl⟩
  · rw [hnot hk]
    exact ⟨rfl, rfl⟩

omit [Field C] [Star C] in
theorem lagpoint_isSome {ker : LagKernels C R} {blocksize : Nat} {smagsqr : Nat → R} {k : Nat}
    (hb : ((blocksize >>> 1 : Nat) : R) ≠ 0) : (lagpoint ker blocksize smagsqr k).isSome := by
  have hpure : ∀ (x : Option R) (f : R → R) (g : R → Lagpoint R), x.isSome →
      ((x.map f).bind fun lag => some (g lag)).isSome := by
    rintro (_ | x) f g hx
    · cases hx
    · rfl
  simp only [lagpoint, divide_of_ne hb]
  split
  · exact hpure _ _ _ (fraction_isSome _ _ _)
  · rfl

/-- The lags can be computed for every queue, so that an iteration comes to its end. -/
theorem computelag_isSome (hb : ((cfg.blocksize.toNat >>> 1 : Nat) : R) ≠ 0) :
    (s.computelag cfg).isSome := by
  have hfold : ∀ (smagsqr : Nat → R) (qs : List (Nat × Nat)) (dsp : Nat → Csdrdevice C R),
      (qs.foldlM (lagRound cfg smagsqr) dsp).isSome := by
    intro smagsqr qs
    induction qs with
    | nil => exact fun _ => rfl
    | cons q qs ih =>
      intro dsp
      have hsome : (lagpoint cfg.kernels cfg.blocksize.toNat smagsqr q.2).isSome := lagpoint_isSome hb
      obtain ⟨p, hp⟩ := Option.isSome_iff_exists.mp hsome
      simp only [List.foldlM_cons, lagRound, hp]
      exact ih _
  simp only [computelag, Option.isSome_map]
  exact hfold _ _ _

/-! ## The samples -/

/-- The block of device `k` that the coherent thread reads. -/
def blockOf (s : CoherentState C R) (k : Nat) : Mem := (s.stream k).s8bit.getbufferptr

/-- The samples of device `i` are the float conversion of a block. -/
def Converted (cfg : CoherentConfig C R) (s : CoherentState C R) (i : Nat) (block : Mem) : Prop :=
  ∀ j < cfg.blocksize.toNat >>> 1, (s.dsp i).sfloat j = Csdrdevice.sample cfg.cf block j

/-- The samples of the reference are the float conversion of a block. -/
def RefConverted (cfg : CoherentConfig C R) (s : CoherentState C R) (block : Mem) : Prop :=
  ∀ j < cfg.blocksize.toNat >>> 1, s.refSamples cfg j = Csdrdevice.sample cfg.cf block j

/-- The samples of the reference change by its own conversion only. -/
theorem LoopStep.refSamples_eq (h : LoopStep cfg s s') :
    s'.refSamples cfg = s.refSamples cfg ∨ s.pc = .refConv := by
  have hsecond : ∀ {k : Nat} {d : Csdrdevice C R},
      (∀ j, d.sfloat (j + cfg.blocksize.toNat >>> 1) =
        (s.dsp k).sfloat (j + cfg.blocksize.toNat >>> 1)) →
      (s.setDsp k d).refSamples cfg = s.refSamples cfg :=
    fun hd => funext fun j =>
      setDsp_keeps (fun d => d.sfloat (j + cfg.blocksize.toNat >>> 1)) (hd j) 0
  have hsame : (s'.dsp 0).sfloat = (s.dsp 0).sfloat → s'.refSamples cfg = s.refSamples cfg :=
    fun hd => funext fun j => congrFun hd (j + cfg.blocksize.toNat >>> 1)
  cases h with
  | refConv hpc => exact .inr hpc
  | conv => exact .inl (hsecond fun j => Csdrdevice.convtofloat_of_ge (Nat.le_add_left _ _))
  | phase => exact .inl (hsecond fun j => Csdrdevice.phasecorrect_of_ge (Nat.le_add_left _ _))
  | est => exact .inl (hsecond fun _ => rfl)
  | refQueue | queue => exact .inl (hsame (by rw [queuelag_dsp]))
  | lag _ _ hs => exact .inl (hsame (computelag_frame hs 0).1)
  | _ => exact .inl rfl

/-- The other threads change the samples of a device by its conversion only. -/
theorem step_sfloat {a : CoherentAction} {k : Nat} (h : s.step cfg a = some s') (ha : a ≠ .loop)
    (hk : a ≠ .cmdphaseConv k) : (s'.dsp k).sfloat = (s.dsp k).sfloat := by
  cases a with
  | loop => exact absurd rfl ha
  | setSynchronized | storeLagrequested | clearLagready =>
    cases h
    exact setDsp_keeps Csdrdevice.sfloat (by rfl) k
  | cmdphaseConv j =>
    have hne : k ≠ j := fun h => hk (by rw [h])
    simp only [step] at h
    split at h <;> cases h
    simp only [setDsp, Function.update_of_ne hne]
  | cmdphaseEst j =>
    simp only [step] at h
    split at h <;> cases h
    exact setDsp_keeps Csdrdevice.sfloat (by rfl) k
  | swapbuffer | setStreaming | setState => cases h; rfl

/-- `phase` converts a signal device. -/
theorem cmdphaseConv_dsp {k : Nat} (h : s.step cfg (.cmdphaseConv k) = some s') :
    k ≠ 0 ∧ s'.dsp k = (s.dsp k).convtofloat cfg.cf cfg.blocksize.toNat (s.blockOf k) := by
  simp only [step] at h
  split at h
  case isTrue => cases h
  case isFalse hk =>
    cases h
    exact ⟨hk, Function.update_self ..⟩

theorem step_refSamples {a : CoherentAction} (h : s.step cfg a = some s') (ha : a ≠ .loop) :
    s'.refSamples cfg = s.refSamples cfg := by
  have hsame : (s'.dsp 0).sfloat = (s.dsp 0).sfloat :=
    step_sfloat h ha fun hk => (cmdphaseConv_dsp (hk ▸ h)).1 rfl
  funext j
  exact congrFun hsame (j + cfg.blocksize.toNat >>> 1)

/-- Only the console changes the noise. -/
theorem step_noise_eq {a : CoherentAction} (h : s.step cfg a = some s')
    (ha : ∀ on, a ≠ .setState on) : s'.noise = s.noise := by
  cases a with
  | loop => exact (loopStep_cases h).noise_eq
  | setState on => exact absurd rfl (ha on)
  | cmdphaseConv | cmdphaseEst =>
    simp only [step] at h
    split at h <;> cases h
    rfl
  | _ => cases h; rfl

end CoherentState
end Aegir
