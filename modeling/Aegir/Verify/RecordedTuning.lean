import Aegir.Std.Run
import Aegir.Model.Tuning
import Aegir.Verify.Tuning

/-!
# What is recorded of the tuning

Every setter stores its field, whatever the driver returns. After each command of a sequence the
fields are what the drivers last accepted, and the same for all devices, if and only if no driver has
refused another value than the one that it last accepted (`recorded_iff`).
-/

namespace Aegir

namespace TunedReceiver

variable {r r' r₀ : TunedReceiver} {erange : ℚ → Bool} {codes : Nat → Int32}

/-- The reference and the signal devices. -/
def all (r : TunedReceiver) : List TunedDevice := r.refdev :: r.devices

/-- The fields of every device are what its driver last accepted, and what the reference has. -/
structure Recorded (r : TunedReceiver) : Prop where
  driver : ∀ d ∈ r.all, d.driver = ⟨d.fcenter, d.samplerate⟩
  agree : ∀ d ∈ r.all, d.fcenter = r.refdev.fcenter ∧ d.samplerate = r.refdev.samplerate

/-! ## The calls of a command -/

/-- What a handler calls the setters of all devices with. -/
inductive Call
  | fcenter (f : UInt32)
  | samplerate (fs : UInt32)

/-- The calls of the setters. -/
def apply (r : TunedReceiver) (codes : Nat → Int32) : Call → TunedReceiver
  | .fcenter f => r.setFcenter f codes
  | .samplerate fs => r.setSamplerate fs codes

/-- What a command calls the setters with, if it comes to its end and calls them. -/
def calls (erange : ℚ → Bool) : TuningCommand → Except Fault (Option Call)
  | .samplerate opt => cmdfsWith (stof erange) none (some ∘ .samplerate) opt
  | .tuningfrequency opt => cmdretuneWith (stof erange) none (some ∘ .fcenter) opt

theorem cmdfs_eq {opt : List Char} : r.cmdfs erange codes opt =
    (calls erange (.samplerate opt)).map fun c => c.elim r (r.apply codes) := by
  rw [calls, cmdfsWith_map]
  rfl

theorem cmdretune_eq {opt : List Char} : r.cmdretune erange codes opt =
    (calls erange (.tuningfrequency opt)).map fun c => c.elim r (r.apply codes) := by
  rw [calls, cmdretuneWith_map]
  rfl

/-- A command that comes to its end calls the setters, or does nothing. -/
theorem step_eq_some {a : TuningCommand × (Nat → Int32)} (h : r.step erange a = some r') :
    ∃ c, calls erange a.1 = .ok c ∧ r' = c.elim r (r.apply a.2) := by
  obtain ⟨cmd, codes⟩ := a
  have hstep : r.step erange (cmd, codes) =
      ((calls erange cmd).map fun c => c.elim r (r.apply codes)).toOption := by
    cases cmd with
    | samplerate opt => rw [step, cmdfs_eq]
    | tuningfrequency opt => rw [step, cmdretune_eq]
  rw [hstep] at h
  cases hc : calls erange cmd with
  | error e => rw [hc] at h; cases h
  | ok c => rw [hc] at h; cases h; exact ⟨c, rfl, rfl⟩

/-! ## The fields -/

section
variable {refnoise : Bool} {biasTee : List Bool} {logReadable : Bool}

theorem fields_setSamplerate {fs : UInt32} :
    (r.setSamplerate fs codes).fields refnoise biasTee logReadable =
      (r.fields refnoise biasTee logReadable).setSamplerate fs := by
  have hdevices : ((r.setSamplerate fs codes).fields refnoise biasTee logReadable).devices =
      ((r.fields refnoise biasTee logReadable).setSamplerate fs).devices := by
    apply List.ext_getElem <;> simp [fields, setSamplerate, Receiver.setSamplerate,
      TunedDevice.setSamplerate, TunedDevice.setSynchronized]
  rw [Receiver.mk.injEq]
  exact ⟨rfl, hdevices, rfl, rfl, rfl⟩

theorem fields_setFcenter {fc : UInt32} :
    (r.setFcenter fc codes).fields refnoise biasTee logReadable =
      (r.fields refnoise biasTee logReadable).setFcenter fc := by
  have hdevices : ((r.setFcenter fc codes).fields refnoise biasTee logReadable).devices =
      ((r.fields refnoise biasTee logReadable).setFcenter fc).devices := by
    apply List.ext_getElem <;> simp [fields, setFcenter, Receiver.setFcenter, TunedDevice.setFcenter]
  rw [Receiver.mk.injEq]
  exact ⟨rfl, hdevices, rfl, rfl, rfl⟩

/-- The commands set the fields as those of `Receiver` do. -/
theorem cmdfs_fields {opt : List Char} :
    (r.cmdfs erange codes opt).map (·.fields refnoise biasTee logReadable) =
      Aegir.cmdfs erange (r.fields refnoise biasTee logReadable) opt := by
  rw [cmdfs, cmdfsWith_map, Aegir.cmdfs]
  congr 1
  exact funext fun fs => fields_setSamplerate

theorem cmdretune_fields {opt : List Char} :
    (r.cmdretune erange codes opt).map (·.fields refnoise biasTee logReadable) =
      Aegir.cmdretune erange (r.fields refnoise biasTee logReadable) opt := by
  rw [cmdretune, cmdretuneWith_map, Aegir.cmdretune]
  congr 1
  exact funext fun fc => fields_setFcenter

end

/-! ## Records -/

/-- The setter of one device, with what the handler does to it afterwards. -/
def Call.set (i : Nat) (code : Int32) (d : TunedDevice) : Call → TunedDevice
  | .fcenter f => d.setFcenter f code
  | .samplerate fs =>
    if i = 0 then d.setSamplerate fs code else (d.setSamplerate fs code).setSynchronized false

/-- The value of the call is the one that the driver last accepted. -/
def Call.Known (driver : DriverState) : Call → Prop
  | .fcenter f => driver.fcenter = f
  | .samplerate fs => driver.samplerate = fs

theorem all_apply {c : Call} :
    (r.apply codes c).all = r.all.mapIdx fun i d => c.set i (codes i) d := by
  cases c <;> simp [all, apply, setFcenter, setSamplerate, Call.set, List.mapIdx_cons]

theorem Call.set_driver_iff {c : Call} {i : Nat} {code : Int32} {d : TunedDevice}
    (hd : d.driver = ⟨d.fcenter, d.samplerate⟩) :
    (c.set i code d).driver = ⟨(c.set i code d).fcenter, (c.set i code d).samplerate⟩ ↔
      (code ≠ 0 → c.Known d.driver) := by
  cases c with
  | fcenter f =>
    by_cases hcode : code = 0 <;>
      simp [Call.set, TunedDevice.setFcenter, Call.Known, hd, hcode]
  | samplerate fs =>
    by_cases hcode : code = 0 <;> by_cases hi : i = 0 <;>
      simp [Call.set, TunedDevice.setSamplerate, TunedDevice.setSynchronized, Call.Known, hd, hcode, hi]

/-- All devices get the same values. -/
theorem Call.set_agree {c : Call} {i j : Nat} {code code' : Int32} {d d' : TunedDevice}
    (h : d.fcenter = d'.fcenter ∧ d.samplerate = d'.samplerate) :
    (c.set i code d).fcenter = (c.set j code' d').fcenter ∧
      (c.set i code d).samplerate = (c.set j code' d').samplerate := by
  cases c with
  | fcenter f => exact ⟨rfl, h.2⟩
  | samplerate fs =>
    simp only [Call.set]
    split <;> split <;> exact ⟨h.1, rfl⟩

/-- Every driver that refuses the call has last accepted its value. -/
def OnlyKnownRefused (r : TunedReceiver) (codes : Nat → Int32) (c : Call) : Prop :=
  ∀ i d, r.all[i]? = some d → codes i ≠ 0 → c.Known d.driver

/-- One call: what is recorded stays what the drivers have if and only if they refuse nothing new. -/
theorem recorded_apply_iff {c : Call} (h : Recorded r) :
    Recorded (r.apply codes c) ↔ r.OnlyKnownRefused codes c := by
  constructor
  · intro h' i d hd hcode
    have hmem : c.set i (codes i) d ∈ (r.apply codes c).all := by
      rw [all_apply]
      exact List.mem_of_getElem? (i := i) (by simp [hd])
    exact (Call.set_driver_iff (h.driver d (List.mem_of_getElem? hd))).mp (h'.driver _ hmem) hcode
  · intro hknown
    have href : (r.apply codes c).refdev = c.set 0 (codes 0) r.refdev := by cases c <;> rfl
    refine ⟨fun d' hd' => ?_, fun d' hd' => ?_⟩
    all_goals
      rw [all_apply] at hd'
      obtain ⟨i, hi, rfl⟩ := List.mem_mapIdx.mp hd'
      have hd : r.all[i]? = some r.all[i] := List.getElem?_eq_getElem hi
    · exact (Call.set_driver_iff (h.driver _ (List.getElem_mem hi))).mpr (hknown i _ hd)
    · rw [href]
      exact Call.set_agree (h.agree _ (List.getElem_mem hi))

/-- Every driver that refuses what a command asks of it has last accepted it. -/
def RefusesKnown (erange : ℚ → Bool) (r : TunedReceiver) (a : TuningCommand × (Nat → Int32)) :
    Prop :=
  ∀ c, calls erange a.1 = .ok (some c) → r.OnlyKnownRefused a.2 c

theorem recorded_step_iff {a : TuningCommand × (Nat → Int32)} (h : Recorded r)
    (hs : r.step erange a = some r') : Recorded r' ↔ RefusesKnown erange r a := by
  obtain ⟨c, hc, rfl⟩ := step_eq_some hs
  cases c with
  | none => simp [RefusesKnown, hc, h]
  | some c =>
    rw [Option.elim_some, recorded_apply_iff h]
    simp [RefusesKnown, hc]

/-- What `open` sets before the first command. -/
theorem recorded_of_openTuner {fcenter samplerate : UInt32}
    (h : ∀ d ∈ r.all, ∃ d₀ : TunedDevice, d₀.fcenter = fcenter ∧ d₀.samplerate = samplerate ∧
      ∃ codeSamplerate codeFcenter, d₀.openTuner codeSamplerate codeFcenter = some d) :
    Recorded r := by
  have hall : ∀ d ∈ r.all, d.fcenter = fcenter ∧ d.samplerate = samplerate ∧
      d.driver = ⟨d.fcenter, d.samplerate⟩ := by
    intro d hd
    obtain ⟨d₀, rfl, rfl, codeSamplerate, codeFcenter, hopen⟩ := h d hd
    simp only [TunedDevice.openTuner] at hopen
    split at hopen
    · cases hopen
    · rename_i hsamplerate
      split at hopen
      · cases hopen
      · rename_i hfcenter
        cases hopen
        simp only [not_not] at hsamplerate hfcenter
        simp [TunedDevice.setFcenter, TunedDevice.setSamplerate, hsamplerate, hfcenter]
  have href := hall r.refdev (by simp [all])
  exact ⟨fun d hd => (hall d hd).2.2, fun d hd =>
    ⟨(hall d hd).1.trans href.1.symm, (hall d hd).2.1.trans href.2.1.symm⟩⟩

/-! ## Sequences of commands -/

/-- The fields are right after each command if and only if the drivers refuse nothing new. -/
theorem recorded_iff {tr : List (TuningCommand × (Nat → Int32))} (h₀ : Recorded r₀)
    (h : Run (step erange) anyStep r₀ tr r) :
    (∀ tr₁ tr₂ r₁, tr = tr₁ ++ tr₂ → Run (step erange) anyStep r₀ tr₁ r₁ → Recorded r₁) ↔
      Run (step erange) (RefusesKnown erange) r₀ tr r := by
  constructor
  · intro hall
    induction h with
    | nil => exact .nil
    | @snoc tr r a r' h _ hs ih =>
      have hr : Recorded r := hall tr [a] r rfl h
      have hr' : Recorded r' := hall (tr ++ [a]) [] r' (by simp) (h.snoc trivial hs)
      refine .snoc (ih fun tr₁ tr₂ r₁ htr h₁ => ?_) ((recorded_step_iff hr hs).mp hr') hs
      exact hall tr₁ (tr₂ ++ [a]) r₁ (by simp [htr]) h₁
  · rintro hknown tr₁ tr₂ r₁ rfl h₁
    obtain ⟨r₂, h₂, -⟩ := hknown.split
    cases h₂.unique h₁
    exact h₂.invariant h₀ fun r a r' hr hok hs => (recorded_step_iff hr hs).mpr hok

/-- One signal device, tuned like the reference. -/
def pair (fcenter samplerate : UInt32) : TunedReceiver where
  refdev := ⟨⟨fcenter, samplerate, 0, true, true⟩, fcenter, samplerate⟩
  devices := [⟨⟨fcenter, samplerate, 0, true, true⟩, fcenter, samplerate⟩]

theorem recorded_pair {fcenter samplerate : UInt32} : Recorded (pair fcenter samplerate) :=
  ⟨by simp [pair, all], by simp [pair, all]⟩

theorem step_tuningfrequency {fc : UInt32} (hlo : 1000000 ≤ fc) (hhi : fc < 1800000000)
    (hfc : 2 ^ (Nat.log 2 fc.toNat - 23) ∣ fc.toNat) :
    r.step erange (.tuningfrequency (toString fc), codes) = some (r.setFcenter fc codes) := by
  have hopt : toString fc ≠ chars "fcenter" := toString_ne ⟨'f', by decide +kernel, by decide⟩
  have hconv := (toUint32_binary32_eq_iff fc).mpr hfc
  simp [step, cmdretune, cmdretuneWith, hopt, stof_toString, hconv, hlo, hhi, Except.toOption]

theorem calls_tuningfrequency {fc : UInt32} (hlo : 1000000 ≤ fc) (hhi : fc < 1800000000)
    (hfc : 2 ^ (Nat.log 2 fc.toNat - 23) ∣ fc.toNat) :
    calls erange (.tuningfrequency (toString fc)) = .ok (some (.fcenter fc)) := by
  have hopt : toString fc ≠ chars "fcenter" := toString_ne ⟨'f', by decide +kernel, by decide⟩
  have hconv := (toUint32_binary32_eq_iff fc).mpr hfc
  simp [calls, cmdretuneWith, hopt, stof_toString, hconv, hlo, hhi]

theorem twoMegahertz : 1000000 ≤ (2000000 : UInt32) ∧ (2000000 : UInt32) < 1800000000 ∧
    2 ^ (Nat.log 2 (2000000 : UInt32).toNat - 23) ∣ (2000000 : UInt32).toNat := by
  have hnat : (2000000 : UInt32).toNat = 2000000 := rfl
  refine ⟨by decide, by decide, ?_⟩
  rw [hnat]
  norm_num

/-- The signal device refuses, the reference does not. -/
def refused (i : Nat) : Int32 := if i = 1 then -1 else 0

/-- The two devices at the frequency `2000000`, which the signal device has refused to repeat. -/
theorem recorded_iff_accepted :
    Recorded (((pair 1000000 2000000).setFcenter 2000000 fun _ => 0).setFcenter 2000000 refused) := by
  obtain ⟨hlo, hhi, hdigits⟩ := twoMegahertz
  have hcalls : calls (fun _ => true) (.tuningfrequency (toString 2000000)) =
      .ok (some (.fcenter 2000000)) := calls_tuningfrequency hlo hhi hdigits
  have h₁ : Run (step fun _ => true) (RefusesKnown fun _ => true) (pair 1000000 2000000)
      [(.tuningfrequency (toString 2000000), fun _ => 0)]
      ((pair 1000000 2000000).setFcenter 2000000 fun _ => 0) := by
    refine .snoc .nil (fun c hc => ?_) (step_tuningfrequency hlo hhi hdigits)
    intro i d hd hcode
    exact absurd rfl hcode
  have h₂ := h₁.snoc (a := (.tuningfrequency (toString 2000000), refused)) (fun c hc => ?_)
    (step_tuningfrequency hlo hhi hdigits)
  · exact (recorded_iff recorded_pair (h₂.mono fun _ _ _ => trivial)).mpr h₂ _ [] _ (by simp)
      (h₂.mono fun _ _ _ => trivial)
  · cases hcalls.symm.trans hc
    intro i d hd _
    have hmem := List.mem_of_getElem? hd
    simp only [all, setFcenter, pair, TunedDevice.setFcenter, List.mapIdx_cons, List.mapIdx_nil,
      List.mem_cons, List.not_mem_nil, or_false] at hmem
    rcases hmem with rfl | rfl <;> rfl

/-- The signal device refuses a frequency, which is recorded all the same. -/
theorem not_recorded : ¬ ∀ (erange : ℚ → Bool) (r₀ r : TunedReceiver)
    (tr : List (TuningCommand × (Nat → Int32))), Recorded r₀ →
    Run (step erange) anyStep r₀ tr r → Recorded r := by
  intro h
  obtain ⟨hlo, hhi, hdigits⟩ := twoMegahertz
  have hrun : Run (step fun _ => true) anyStep (pair 1000000 2000000)
      [(.tuningfrequency (toString 2000000), refused)]
      ((pair 1000000 2000000).setFcenter 2000000 refused) :=
    Run.singleton_iff.mpr ⟨trivial, step_tuningfrequency hlo hhi hdigits⟩
  have hdriver := (h _ _ _ _ recorded_pair hrun).driver ⟨⟨2000000, 2000000, 0, true, true⟩, 1000000, 2000000⟩
  exact absurd (hdriver (by decide)) (by decide)

end TunedReceiver
end Aegir
