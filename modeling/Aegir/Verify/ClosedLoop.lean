import Aegir.Verify.Controller
import Aegir.Verify.Convergence

/-!
# The control loop among its threads

The controller with its corrections (`Aegir.Model.Controller`), the console and the coherent thread, and
the device of `Aegir.Verify.Convergence` that they control, whose lag a correction `p` for the time `t`
at the rate `fs` takes down by `p * fs * t`. A lag that `set_lag` stores is the one that the device had
when its samples were queued; nothing is known of samples that were queued while a correction was on.
So the controller must not take a lag for its own that was measured before (`Measured`). In every such
run, with any number of requests of the console for a lag or for a resynchronization, each correction
leaves a tenth of the lag, there are only as many as the first lag needs, and the device counts as
synchronized only while its lag is below the threshold (`converges_of_run`).
-/

namespace Aegir

open Real

/-- `fabs(lag) > sync_threshold`. -/
noncomputable def tooLarge (lag : ℝ) : Bool := decide (syncThreshold exactFloat < |lag|)

/-- The rate of a correction. -/
noncomputable def rateOf (lag : ℝ) : ℝ := (descent exactFloat lag).getD 0

/-- The time of a correction. -/
noncomputable def timeOf (fs lag : ℝ) : ℝ := (correctionTime exactFloat lag (rateOf lag) fs).getD 0

section
variable {fs lag : ℝ}

theorem tooLarge_iff : tooLarge lag = true ↔ syncThreshold exactFloat < |lag| := decide_eq_true_iff

theorem tooLarge_eq_false_iff : tooLarge lag = false ↔ |lag| ≤ syncThreshold exactFloat := by
  rw [← not_lt, ← tooLarge_iff, Bool.not_eq_true]

/-- What the controller does with a lag. -/
theorem control_eq (hfs : 0 < fs) : control exactFloat lag fs =
    some (if tooLarge lag then .correct (rateOf lag) (timeOf fs lag) else .synchronize) := by
  by_cases h : tooLarge lag = true
  · obtain ⟨p, t, hc, -⟩ := control_of_lt hfs (tooLarge_iff.mp h)
    have hp : descent exactFloat lag = some (rateOf lag) := by
      rw [rateOf, descent_exactFloat, Option.getD_some]
    rw [if_pos h]
    simp only [control, if_pos (tooLarge_iff.mp h), hp, Option.bind_eq_bind, Option.bind_some] at hc ⊢
    obtain ⟨t', ht', -⟩ := Option.bind_eq_some_iff.mp hc
    rw [timeOf, ht', Option.getD_some]
    rfl
  · rw [if_neg h]
    exact control_of_le (tooLarge_eq_false_iff.mp (Bool.eq_false_iff.mpr h))

/-- A correction leaves a tenth of the lag. -/
theorem sub_correction (hfs : 0 < fs) (h : tooLarge lag = true) :
    rateOf lag ≠ 0 ∧ lag - rateOf lag * fs * timeOf fs lag = lag / 10 := by
  obtain ⟨p, t, hc, hpos, -, hlag⟩ := control_of_lt hfs (tooLarge_iff.mp h)
  rw [control_eq hfs, if_pos h] at hc
  cases hc
  exact ⟨abs_pos.mp hpos, hlag⟩

end

/-- The controlled device. -/
structure Plant where
  /-- Between the device and the reference. -/
  lag : ℝ
  /-- The lag that the device had when its samples were queued last, unless a correction was on. -/
  measured : Option ℝ
  /-- They were queued since the controller's last request. -/
  fresh : Bool
  /-- The number of corrections that the resampler has performed. -/
  corrections : ℕ

/-- What a step does to the device, which runs at the rate `fs`. -/
noncomputable def Plant.observe (fs : ℝ) (s : ControllerState ℝ ℝ) (a : ControllerAction ℝ)
    (_ : ControllerState ℝ ℝ) (q : Plant) : Plant :=
  match a with
  | .sync .test =>
    if s.sync.lagrequested then
      { q with measured := if s.pc = .sleeping then none else some q.lag, fresh := true }
    else q
  | .sync (.request .controller) => { q with fresh := false }
  | .wakeUp =>
    match s.sync.ctrl with
    | .branch lag =>
      { q with
        lag := q.lag - s.correction * fs * timeOf fs lag
        corrections := if s.correction = 0 then q.corrections else q.corrections + 1 }
    | _ => q
  | _ => q

namespace ControllerState

/-- `set_lag` stores the lag that was measured, and where the controller clears `lagready`, no
measurement is under way that was begun before its request. The driver accepts the resets. -/
def Measured (p : ControllerState ℝ ℝ × Plant) (a : ControllerAction ℝ) : Prop :=
  ResetsAccepted tooLarge p.1 a ∧
    match a with
    | .sync (.storeLag lag) => ∀ m, p.2.measured = some m → lag = m
    | .sync (.clearReady .controller) => p.1.sync.coherent = .idle ∨ p.2.fresh = true
    | _ => True

/-- What the coherent thread has in hand is the lag of the device. -/
def InHand (s : ControllerState ℝ ℝ) (q : Plant) : Prop :=
  match s.sync.coherent with
  | .idle => True
  | .queued => q.measured = some q.lag
  | .stored | .readied => s.sync.lagp = q.lag

/-- The controller has cleared `lagready` for its request and has not read the lag yet. -/
def Asking (s : SyncState ℝ) : Prop :=
  s.req .controller = .cleared ∨ s.req .controller = .blocked ∨ s.ctrl = .readLag

/-- What holds of the controlled device until the device is asked to exit. -/
structure Converging (lag₀ : ℝ) (s : ControllerState ℝ ℝ) (q : Plant) : Prop where
  lag : q.lag = lag₀ / 10 ^ q.corrections
  /-- There was a reason for each correction. -/
  far : ∀ k < q.corrections, syncThreshold exactFloat < |lag₀| / 10 ^ k
  fresh : q.fresh = true → s.sync.req .controller ≠ .out → InHand s q
  asking : Asking s.sync → InHand s q ∧ (s.sync.lagready = true → s.sync.lagp = q.lag)
  read : s.sync.ctrl = .readLag → s.sync.lagp = q.lag
  decided : ∀ lag, s.sync.ctrl = .branch lag → s.pc ≠ .resetting → lag = q.lag
  correction : ∀ lag, s.pc = .sleeping → s.sync.ctrl = .branch lag →
    s.correction = 0 ∨ s.correction = rateOf lag
  near : s.sync.synced = true → |q.lag| ≤ syncThreshold exactFloat

variable {fs lag₀ : ℝ} {s s' : ControllerState ℝ ℝ} {q : Plant} {a : SyncAction ℝ} {t : SyncState ℝ}

/-- The steps of the controller in `wait_synchronized` and `requestfftblocking`. -/
theorem Converging.own (h : Converging lag₀ s q) (hc : Controls tooLarge s)
    (ha : a.ofController = true) (hp : s.pc = .body) (hok : Measured (s, q) (.sync a))
    (hend : a.endsBody = false) (ht : s.sync.step tooLarge a = some t) :
    Converging lag₀ { s with sync := t, pc := s.afterSync a } (Plant.observe fs s (.sync a) s' q) := by
  have hcase := SyncState.ctrl_cases hend ht
  rw [hc.afterSync_eq hcase, hp]
  have hbody : ∀ lag, s.sync.ctrl = .branch lag → lag = q.lag :=
    fun lag hctrl => h.decided lag hctrl (by simp [hp])
  cases a <;> simp only [SyncState.step] at ht
  case wake =>
    split at ht <;> try contradiction
    split at ht <;> cases ht
    exact
      { h with
        asking := fun hask => h.asking (hask.imp_right (Or.imp_right fun hr => by cases hr))
        read := fun hr => by cases hr
        decided := fun _ hb => by cases hb
        correction := fun _ hq => by cases hq }
  case retest =>
    have hs := (hc.own_step hcase ha).1
    split at ht <;> cases ht
    simp only [hs, Bool.false_eq_true, if_false]
    exact
      { h with
        asking := fun hask => h.asking (hask.imp_right (Or.imp_right fun hr => by cases hr))
        read := fun hr => by cases hr
        decided := fun _ hb => by cases hb
        correction := fun _ hq => by cases hq
        near := fun hn => by cases hn }
  case request c =>
    obtain rfl : c = .controller := of_decide_eq_true ha
    obtain ⟨-, heq⟩ := Option.ite_none_right_eq_some.mp ht
    cases heq
    cases hcase with
    | request hctrl _ _ hr' =>
      exact
        { h with
          fresh := fun hf => by cases hf
          asking := fun hask => by simp [Asking, SyncState.setReq, hctrl] at hask
          read := fun hr => by cases hctrl.symm.trans hr
          decided := fun _ hb => by cases hctrl.symm.trans hb
          correction := fun _ hq => by cases hq }
    | other hno => cases hno
  case clearReady c =>
    obtain rfl : c = .controller := of_decide_eq_true ha
    obtain ⟨hr, heq⟩ := Option.ite_none_right_eq_some.mp ht
    cases heq
    have hin : InHand s q := by
      rcases hok.2 with hidle | hfresh
      · have hidle : s.sync.coherent = .idle := hidle
        simp [InHand, hidle]
      · exact h.fresh hfresh (by simp [hr])
    exact
      { h with
        fresh := fun _ _ => hin
        asking := fun _ => ⟨hin, fun hl => by cases hl⟩
        decided := fun lag hb _ => hbody lag hb
        correction := fun _ hq => by cases hq }
  case block c =>
    obtain rfl : c = .controller := of_decide_eq_true ha
    obtain ⟨⟨hr, -⟩, heq⟩ := Option.ite_none_right_eq_some.mp ht
    cases heq
    exact
      { h with
        fresh := fun hf _ => h.fresh hf (by simp [hr])
        asking := fun _ => h.asking (.inl hr)
        decided := fun lag hb _ => hbody lag hb
        correction := fun _ hq => by cases hq }
  case ret c =>
    obtain rfl : c = .controller := of_decide_eq_true ha
    obtain ⟨⟨hr, -, hl⟩, heq⟩ := Option.ite_none_right_eq_some.mp ht
    cases heq
    have hask := h.asking (hr.imp_right .inl)
    exact
      { h with
        fresh := fun _ hr' => by simp [SyncState.setReq] at hr'
        asking := fun _ => hask
        read := fun _ => hask.2 hl
        decided := fun _ hb => by simp at hb
        correction := fun _ hq => by cases hq }
  case readLag =>
    split at ht <;> cases ht
    rename_i hctrl
    exact
      { h with
        asking := fun hask => h.asking (hask.imp_right (Or.imp_right fun hr => by cases hr))
        read := fun hr => by cases hr
        decided := fun _ hb _ => by cases hb; exact h.read hctrl
        correction := fun _ hq => by cases hq }
  case correct => cases hend
  case synchronize => cases hend
  all_goals cases ha

/-- A controller that asks for a lag does not sleep. -/
theorem Controls.awake (hc : Controls tooLarge s)
    (h : s.sync.req .controller ≠ .out ∨ Asking s.sync) : s.pc ≠ .sleeping := by
  intro hp
  obtain ⟨lag, hb, -⟩ := hc.correcting (.inl hp)
  have hout := hc.req_of_branch hb
  simp [Asking, hout, hb] at h

/-- A step that leaves alone what the controller and the coherent thread have to do with a lag. -/
theorem Converging.of_flags (h : Converging lag₀ s q)
    (hreq : t.req .controller = s.sync.req .controller) (hctrl : t.ctrl = s.sync.ctrl)
    (hcoherent : t.coherent = s.sync.coherent) (hlagp : t.lagp = s.sync.lagp)
    (hready : t.lagready = true → s.sync.lagready = true)
    (hsynced : t.synced = true → s.sync.synced = true) : Converging lag₀ { s with sync := t } q := by
  have hin : InHand { s with sync := t } q = InHand s q := by simp only [InHand, hcoherent, hlagp]
  have hask : Asking t = Asking s.sync := by rw [Asking, Asking, hreq, hctrl]
  exact
    { lag := h.lag
      far := h.far
      fresh := fun hf hr => hin ▸ h.fresh hf (hreq ▸ hr)
      asking := fun ha =>
        ⟨hin ▸ (h.asking (hask ▸ ha)).1, fun hl => hlagp ▸ (h.asking (hask ▸ ha)).2 (hready hl)⟩
      read := fun hr => hlagp ▸ h.read (hctrl ▸ hr)
      decided := fun lag hb => h.decided lag (hctrl ▸ hb)
      correction := fun lag hp hb => h.correction lag hp (hctrl ▸ hb)
      near := fun hn => h.near (hsynced hn) }

/-- The steps of the console and of the coherent thread. -/
theorem Converging.other (h : Converging lag₀ s q) (hc : Controls tooLarge s)
    (ha : a.ofController = false) (hok : Measured (s, q) (.sync a))
    (ht : s.sync.step tooLarge a = some t) :
    Converging lag₀ { s with sync := t, pc := s.afterSync a } (Plant.observe fs s (.sync a) s' q) := by
  have hreq : ∀ pc, (s.sync.setReq .console pc).req .controller = s.sync.req .controller :=
    fun pc => by simp [SyncState.setReq]
  cases a <;> simp only [SyncState.step] at ht
  case request c =>
    cases c with
    | controller => cases ha
    | console =>
      obtain ⟨-, heq⟩ := Option.ite_none_right_eq_some.mp ht
      cases heq
      exact h.of_flags (hreq .requested) rfl rfl rfl (fun hl => hl) fun hn => hn
  case clearReady c =>
    cases c with
    | controller => cases ha
    | console =>
      obtain ⟨-, heq⟩ := Option.ite_none_right_eq_some.mp ht
      cases heq
      exact h.of_flags (hreq .cleared) rfl rfl rfl (fun hl => by cases hl) fun hn => hn
  case block c =>
    cases c with
    | controller => cases ha
    | console =>
      obtain ⟨-, heq⟩ := Option.ite_none_right_eq_some.mp ht
      cases heq
      exact h.of_flags (hreq .blocked) rfl rfl rfl (fun hl => hl) fun hn => hn
  case ret c =>
    cases c with
    | controller => cases ha
    | console =>
      obtain ⟨-, heq⟩ := Option.ite_none_right_eq_some.mp ht
      cases heq
      exact h.of_flags (hreq .out) rfl rfl rfl (fun hl => hl) fun hn => hn
  case clear =>
    obtain ⟨-, heq⟩ := Option.ite_none_right_eq_some.mp ht
    cases heq
    exact { h with near := fun hn => by cases hn }
  case test =>
    split at ht <;> cases ht
    cases hl : s.sync.lagrequested with
    | false =>
      simp only [Plant.observe, hl, Bool.false_eq_true, if_false]
      exact { h with fresh := fun _ _ => trivial, asking := fun ha => ⟨trivial, (h.asking ha).2⟩ }
    | true =>
      simp only [Plant.observe, hl, if_true]
      have hin : s.pc ≠ .sleeping → (if s.pc = .sleeping then none else some q.lag) = some q.lag :=
        fun hp => if_neg hp
      exact
        { h with
          fresh := fun _ hr => hin (hc.awake (.inl hr))
          asking := fun ha => ⟨hin (hc.awake (.inr ha)), (h.asking ha).2⟩ }
  case storeLag lag =>
    split at ht <;> cases ht
    rename_i hqueued
    have hstored : InHand s q → lag = q.lag := fun hin => by
      simp only [InHand, hqueued] at hin
      exact hok.2 _ hin
    exact
      { h with
        fresh := fun hf hr => hstored (h.fresh hf hr)
        asking := fun ha => ⟨hstored (h.asking ha).1, fun _ => hstored (h.asking ha).1⟩
        read := fun hr => hstored (h.asking (.inr (.inr hr))).1 }
  case setReady =>
    split at ht <;> cases ht
    rename_i hst
    have hready : InHand s q → s.sync.lagp = q.lag := fun hin => by
      simpa only [InHand, hst] using hin
    exact
      { h with
        fresh := fun hf hr => hready (h.fresh hf hr)
        asking := fun ha => ⟨hready (h.asking ha).1, fun _ => hready (h.asking ha).1⟩ }
  case setRequested =>
    split at ht <;> cases ht
    exact
      { h with
        fresh := fun _ _ => trivial
        asking := fun ha => ⟨trivial, (h.asking ha).2⟩ }
  all_goals cases ha

/-- A step that leaves the flags and the device alone. -/
theorem Converging.of_sync (h : Converging lag₀ s q) (hs : s'.sync = s.sync)
    (hdecided : ∀ lag, s.sync.ctrl = .branch lag → s'.pc ≠ .resetting → s.pc ≠ .resetting)
    (hcorrection : ∀ lag, s'.pc = .sleeping → s.sync.ctrl = .branch lag →
      s'.correction = 0 ∨ s'.correction = rateOf lag) : Converging lag₀ s' q := by
  have hin : InHand s' q = InHand s q := by simp only [InHand, hs]
  exact
    { lag := h.lag
      far := h.far
      fresh := by simpa only [hs, hin] using h.fresh
      asking := by simpa only [hs, hin] using h.asking
      read := by simpa only [hs] using h.read
      decided := fun lag hb hp => h.decided lag (hs ▸ hb) (hdecided lag (hs ▸ hb) hp)
      correction := fun lag hp hb => hcorrection lag hp (hs ▸ hb)
      near := by simpa only [hs] using h.near }

/-- While the controller has nothing to do with a lag, the flags do not matter. -/
theorem converging_of_out (hlag : q.lag = lag₀ / 10 ^ q.corrections)
    (hfar : ∀ k < q.corrections, syncThreshold exactFloat < |lag₀| / 10 ^ k)
    (hout : s.sync.req .controller = .out) (hread : s.sync.ctrl ≠ .readLag)
    (hreset : ∀ lag, s.sync.ctrl = .branch lag → s.pc = .resetting)
    (hnear : s.sync.synced = true → |q.lag| ≤ syncThreshold exactFloat) :
    Converging lag₀ s q where
  lag := hlag
  far := hfar
  fresh _ hr := absurd hout hr
  asking ha := by simp [Asking, hout, hread] at ha
  read hr := absurd hr hread
  decided lag hb hp := absurd (hreset lag hb) hp
  correction lag hp hb := by cases hp.symm.trans (hreset lag hb)
  near := hnear

theorem devExit_of_step {a : ControllerAction ℝ} (hs : ControllerStep tooLarge rateOf s a s')
    (hd : s'.devExit = false) : s.devExit = false := by
  cases hs with
  | correct | small | reset => simpa using hd
  | storeDevExit => cases hd
  | _ => exact hd

theorem Corrects.eq_zero (h : Corrects s) (hd : s.devExit = false)
    (hp : ¬ (s.pc = .sleeping ∨ s.pc = .resetting)) : s.correction = 0 :=
  by_contra fun hne => hp (h hd hne)

/-- The resampler takes the lag down. -/
theorem Converging.wakeUp (h : Converging lag₀ s q) (hfs : 0 < fs) (hc : Controls tooLarge s)
    (hp : s.pc = .sleeping) :
    Converging lag₀ { s with pc := .resetting } (Plant.observe fs s .wakeUp s' q) := by
  obtain ⟨lag, hb, hbig⟩ := hc.correcting (.inl hp)
  obtain rfl : lag = q.lag := h.decided lag hb (by simp [hp])
  obtain ⟨hne, hsub⟩ := sub_correction hfs hbig
  have hwait : s.sync.synced ≠ true := fun hs => by cases hb.symm.trans (hc.synced hs)
  have hstep : ∀ q' : Plant, q'.lag = lag₀ / 10 ^ q'.corrections →
      (∀ k < q'.corrections, syncThreshold exactFloat < |lag₀| / 10 ^ k) →
      Converging lag₀ { s with pc := .resetting } q' := fun q' hlag hfar =>
    converging_of_out hlag hfar (hc.req_of_branch hb) (by simp [hb]) (fun _ _ => rfl)
      fun hs => absurd hs hwait
  simp only [Plant.observe, hb]
  rcases h.correction _ hp hb with hzero | hrate
  · refine hstep _ ?_ ?_
    · simpa [hzero] using h.lag
    · simpa [hzero] using h.far
  · refine hstep _ ?_ fun k hk => ?_
    · simp only [hrate, if_neg hne, hsub]
      rw [h.lag, pow_succ, ← div_div]
    · simp only [hrate, if_neg hne] at hk
      rcases Nat.lt_succ_iff_lt_or_eq.mp hk with hk | rfl
      · exact h.far k hk
      · have hlarge := tooLarge_iff.mp hbig
        rwa [h.lag, SyncLoop.abs_div_pow] at hlarge

theorem Converging.step {a : ControllerAction ℝ} (h : Converging lag₀ s q) (hfs : 0 < fs)
    (hc : Controls tooLarge s) (hr : Corrects s) (hok : Measured (s, q) a)
    (hd : s'.devExit = false) (hs : ControllerStep tooLarge rateOf s a s') :
    Converging lag₀ s' (Plant.observe fs s a s' q) := by
  cases hs with
  | loopTest hp =>
    refine h.of_sync rfl (fun lag hb _ => by simp [hp]) fun lag hq hb => ?_
    cases (hc.outside (.inl hp)).symm.trans hb
  | @sync a t ha hp ht =>
    cases hctrl : a.ofController with
    | true => exact h.own hc hctrl (hp hctrl) hok ha ht
    | false => exact h.other hc hctrl hok ht
  | @correct lag accepted hp hb hbig =>
    refine h.of_sync (by simp) (fun lag' hb' _ => by simp [hp]) fun lag' _ hb' => ?_
    cases hb.symm.trans hb'
    have hd : s.devExit = false := by simpa using hd
    unfold setCorrectionF
    split
    · exact .inr rfl
    · exact .inl (hr.eq_zero hd (by simp [hp]))
  | small accepted hp hb hsmall =>
    exact h.of_sync (by simp) (fun _ _ _ => by simp [hp]) fun _ hq => by simp at hq
  | wakeUp hp => exact h.wakeUp hfs hc hp
  | @reset t accepted hp ht =>
    obtain ⟨lag, hb, -⟩ := hc.correcting (.inr hp)
    obtain ⟨hct, hreq, hsync⟩ := SyncState.of_correct ht
    refine converging_of_out h.lag h.far (hreq.trans (hc.req_of_branch hb)) (by simp [hct])
      (fun _ hb' => by cases hct.symm.trans hb') fun hs => ?_
    cases hb.symm.trans (hc.synced (hsync.symm.trans hs))
  | @synchronize t hp ht =>
    obtain ⟨lag, hb, hsmall⟩ := hc.synchronizing hp
    obtain ⟨hct, hreq⟩ := SyncState.of_synchronize ht
    refine converging_of_out h.lag h.far (hreq.trans (hc.req_of_branch hb)) (by simp [hct])
      (fun _ hb' => by cases hct.symm.trans hb') fun _ => ?_
    obtain rfl : lag = q.lag := h.decided lag hb (by simp [hp])
    exact tooLarge_eq_false_iff.mp hsmall
  | storeDoExit he => exact { h with }
  | desynchronize he => exact { h with near := fun hn => by cases hn }
  | storeDevExit he => cases hd

/-- For every first lag, every rate and every interleaving in which the lags are measured as `Measured`
says: until the device is asked to exit, each correction has left a tenth of the lag, there have been no
more of them than the least number that brings the lag down to the threshold, and the device counts as
synchronized only when its lag is not above it. -/
theorem converges_of_run {lagp : ℝ} {p : ControllerState ℝ ℝ × Plant}
    {tr : List (ControllerAction ℝ)} (hfs : 0 < fs)
    (h : Run (observed (step tooLarge rateOf) (Plant.observe fs)) Measured
      (init lagp, ⟨lag₀, none, false, 0⟩) tr p) (hd : p.1.devExit = false) :
    p.2.lag = lag₀ / 10 ^ p.2.corrections ∧
      (∀ n : ℕ, |lag₀| / 10 ^ n ≤ syncThreshold exactFloat → p.2.corrections ≤ n) ∧
      (p.1.sync.synced = true → |p.2.lag| ≤ syncThreshold exactFloat) := by
  have hinv : Controls tooLarge p.1 ∧ Corrects p.1 ∧
      (p.1.devExit = false → Converging lag₀ p.1 p.2) := by
    refine h.invariant (I := fun p => Controls tooLarge p.1 ∧ Corrects p.1 ∧
      (p.1.devExit = false → Converging lag₀ p.1 p.2)) ?_ fun p a p' hi hok hs => ?_
    · refine ⟨controls_init, fun _ hne => absurd rfl hne, fun _ => ?_⟩
      exact converging_of_out (by simp) (fun k hk => absurd hk (Nat.not_lt_zero k)) rfl
        (fun hr => by cases hr) (fun _ hb => by cases hb) fun hs => by cases hs
    · obtain ⟨hc, hr, hconv⟩ := hi
      obtain ⟨hs, hq⟩ := observed_eq_some.mp hs
      have hstep := step_cases hs
      refine ⟨hc.step hstep, hr.step hc hok.1 hstep, fun hd' => ?_⟩
      rw [hq]
      exact (hconv (devExit_of_step hstep hd')).step hfs hc hr hok hd' hstep
  obtain ⟨-, -, hconv⟩ := hinv
  have hi := hconv hd
  exact ⟨hi.lag, fun n hn => not_lt.mp fun hlt => (hi.far n hlt).not_ge hn, hi.near⟩

/-- The controller asks for the lag, gets `lag`, and corrects it. -/
def correctTrace (lag : ℝ) : List (ControllerAction ℝ) :=
  [.loopTest, .sync .wake, .sync .retest, .sync (.request .controller),
   .sync (.clearReady .controller), .sync .test, .sync (.storeLag lag), .sync .setReady,
   .sync .setRequested, .sync (.ret .controller), .sync .readLag, .setCorrection true, .wakeUp]

theorem exists_run_correctTrace {lag : ℝ} (h : tooLarge lag = true) :
    ∃ p : ControllerState ℝ ℝ × Plant,
      Run (observed (step tooLarge rateOf) (Plant.observe 2048000)) Measured
        (init 0, ⟨lag, none, false, 0⟩) (correctTrace lag) p ∧
      p.1.devExit = false ∧ p.2.corrections = 1 := by
  classical
  have hne := (sub_correction (by norm_num : (0 : ℝ) < 2048000) h).1
  obtain ⟨p, hrun, hp⟩ := Run.exists_of_exec
    (observed (step tooLarge rateOf) (Plant.observe 2048000)) Measured
    (init 0, ⟨lag, none, false, 0⟩) (correctTrace lag)
    (fun p => p.1.devExit = false ∧ p.2.corrections = 1) (by
      simp [exec, correctTrace, observed, step, syncStep, SyncState.step, Measured, ResetsAccepted,
        Plant.observe, init, SyncState.init, SyncState.setReq, SyncState.mayRequest,
        SyncAction.endsBody, SyncAction.ofController, afterSync, setCorrectionF, h, hne])
  exact ⟨p, hrun, of_decide_eq_true hp⟩

/-- A lag of a twentieth of a sample takes one correction. -/
theorem converges_of_run_twentieth :
    ∃ p : ControllerState ℝ ℝ × Plant,
      Run (observed (step tooLarge rateOf) (Plant.observe 2048000)) Measured
        (init 0, ⟨1 / 20, none, false, 0⟩) (correctTrace (1 / 20)) p ∧
      p.1.devExit = false ∧ p.2.corrections = 1 ∧ p.2.lag = 1 / 20 / 10 ^ p.2.corrections ∧
      (∀ n : ℕ, |(1 / 20 : ℝ)| / 10 ^ n ≤ syncThreshold exactFloat → p.2.corrections ≤ n) ∧
      (p.1.sync.synced = true → |p.2.lag| ≤ syncThreshold exactFloat) := by
  have hlarge : tooLarge (1 / 20) = true := by
    rw [tooLarge_iff, syncThreshold_exactFloat, abs_of_pos (by norm_num)]
    norm_num
  obtain ⟨p, hrun, hd, hone⟩ := exists_run_correctTrace hlarge
  exact ⟨p, hrun, hd, hone, converges_of_run (by norm_num) hrun hd⟩

end ControllerState

end Aegir
