import Aegir.Verify.CommandLine
import Aegir.Verify.RemoteCommands

/-!
# Frequencies and sample rates

What the clients print, the console reads as a `float`. A frequency and a sample rate arrive if and
only if they are a `float`, which has 24 binary digits (`arrives_iff`); what is set for another is the
nearest that is one. The line is taken to reach the console as it was sent.
-/

namespace Aegir

variable {erange : ℚ → Bool} {r : Receiver}

/-- The reference and every signal device are tuned to a frequency. -/
def Receiver.TunedTo (r : Receiver) (f : ℕ) : Prop :=
  r.refdev.fcenter.toNat = f ∧ ∀ d ∈ r.devices, d.fcenter.toNat = f

/-- Every device has a sample rate. -/
def Receiver.SampledAt (r : Receiver) (fs : ℕ) : Prop :=
  r.refdev.samplerate.toNat = fs ∧ ∀ d ∈ r.devices, d.samplerate.toNat = fs

/-- A client sends a line, and whatever the receiver was, the console makes it one as required. -/
def Arrives (line : Option (List Char)) (P : Receiver → Prop) : Prop :=
  ∀ erange r, ∃ inputln r', line = some inputln ∧ dispatch erange r inputln = .ok r' ∧ P r'

/-! ## What is sent -/

theorem toUint32_toNat (f : UInt32) : (FloatValue.finite f.toNat).toUint32 = some f := by
  rw [toUint32_natCast, if_pos f.toNat_lt, UInt32.ofNat_toNat]

theorem length_toString (f : UInt32) : (toString f).length ≤ 10 := by
  rw [toString, Nat.length_toDigits_le_iff (by norm_num) (by norm_num)]
  have := f.toNat_lt
  omega

/-- Nothing is cut off. -/
theorem snprintf_toString {s : List Char} (f : UInt32) (h : s.length ≤ 53) :
    snprintf 64 (s ++ toString f) = s ++ toString f := by
  have := length_toString f
  rw [snprintf, List.take_of_length_le (by rw [List.length_append]; omega)]

theorem setFrequency_eq (client : TuningClient) (f : UInt32) :
    client.setFrequency (.finite f.toNat) = some (chars "tuningfrequency" ++ ' ' :: toString f) := by
  have hlen : (chars "tuningfrequency ").length ≤ 53 := by decide +kernel
  have hspace : chars "tuningfrequency " = chars "tuningfrequency" ++ [' '] := by decide +kernel
  rw [List.append_cons, ← hspace]
  cases client with
  | aegirSDRImpl => simp [TuningClient.setFrequency, toUint32_toNat, snprintf_toString f hlen]
  | aegirDevice => simp [TuningClient.setFrequency, toUint32_toNat]

theorem setSampleRate_eq (client : TuningClient) (fs : UInt32) :
    client.setSampleRate (.finite fs.toNat) = some (chars "samplerate" ++ ' ' :: toString fs) := by
  have hlen : (chars "samplerate ").length ≤ 53 := by decide +kernel
  have hspace : chars "samplerate " = chars "samplerate" ++ [' '] := by decide +kernel
  rw [List.append_cons, ← hspace]
  cases client with
  | aegirSDRImpl => simp [TuningClient.setSampleRate, toUint32_toNat, snprintf_toString fs hlen]
  | aegirDevice => simp [TuningClient.setSampleRate, toUint32_toNat]

/-! ## What is executed -/

theorem toString_ne {f : UInt32} {opt : List Char} (h : ∃ c ∈ opt, c.isDigit = false) :
    toString f ≠ opt := by
  rintro rfl
  obtain ⟨c, hc, hdigit⟩ := h
  exact Bool.false_ne_true (hdigit.symm.trans (isDigit_of_mem_toDigits hc))

theorem stof_toString (f : UInt32) :
    stof erange (toString f) = .ok (.finite (binary32 f.toNat)) :=
  stof_toDigits (f.toNat_lt.trans (by norm_num))

theorem exists_dispatch_tuningfrequency (f : UInt32) {P : Receiver → Prop} :
    (∃ r', dispatch erange r (chars "tuningfrequency" ++ ' ' :: toString f) = .ok r' ∧ P r') ↔
      ∃ fc, (FloatValue.finite (binary32 f.toNat)).toUint32 = some fc ∧
        P (if 1000000 ≤ fc ∧ fc < 1800000000 then r.setFcenter fc else r) := by
  have hcmd : (chars "tuningfrequency", .tuningfrequency) ∈ commandCodes := by simp [commandCodes]
  have hopt : toString f ≠ chars "fcenter" :=
    toString_ne ⟨'f', by decide +kernel, by decide⟩
  rw [dispatch_command hcmd, execute, cmdretune, cmdretuneWith, if_neg hopt, stof_toString]
  cases hfc : (FloatValue.finite (binary32 f.toNat)).toUint32 <;> simp [hfc]

theorem exists_dispatch_samplerate (fs : UInt32) {P : Receiver → Prop} :
    (∃ r', dispatch erange r (chars "samplerate" ++ ' ' :: toString fs) = .ok r' ∧ P r') ↔
      ∃ fs', (FloatValue.finite (binary32 fs.toNat)).toUint32 = some fs' ∧
        P (r.setSamplerate fs') := by
  have hcmd : (chars "samplerate", .samplerate) ∈ commandCodes := by simp [commandCodes]
  have hopt : toString fs ≠ chars "samplerate" :=
    toString_ne ⟨'s', by decide +kernel, by decide⟩
  rw [dispatch_command hcmd, execute, cmdfs, cmdfsWith, if_neg hopt, stof_toString]
  cases hfs : (FloatValue.finite (binary32 fs.toNat)).toUint32 <;> simp [hfs]

@[simp] theorem tunedTo_setFcenter {fc : UInt32} {f : ℕ} :
    (r.setFcenter fc).TunedTo f ↔ fc.toNat = f := by
  constructor
  · exact fun h => h.1
  · rintro rfl
    exact ⟨rfl, by simp [Receiver.setFcenter]⟩

@[simp] theorem sampledAt_setSamplerate {fs : UInt32} {n : ℕ} :
    (r.setSamplerate fs).SampledAt n ↔ fs.toNat = n := by
  constructor
  · exact fun h => h.1
  · rintro rfl
    exact ⟨rfl, by simp [Receiver.setSamplerate]⟩

/-! ## What arrives -/

/-- A value that the console passes to `set` arrives if and only if it comes back from `float`. -/
theorem arrives_of_dispatch {inputln : List Char} {n : UInt32} {P : Receiver → Prop}
    {set : UInt32 → Receiver → Receiver}
    (hdispatch : ∀ erange r (Q : Receiver → Prop), (∃ r', dispatch erange r inputln = .ok r' ∧ Q r') ↔
      ∃ v, (FloatValue.finite (binary32 n.toNat)).toUint32 = some v ∧ Q (set v r))
    (hset : ∀ r, P (set n r)) (hidle : ∀ v, P (set v .idle) → v = n) :
    Arrives (some inputln) P ↔ 2 ^ (Nat.log 2 n.toNat - 23) ∣ n.toNat := by
  rw [← toUint32_binary32_eq_iff]
  constructor
  · intro h
    obtain ⟨_, r', hline, hr'⟩ := h (fun _ => true) .idle
    cases hline
    obtain ⟨v, hv, hP⟩ := (hdispatch _ _ P).mp ⟨r', hr'⟩
    rwa [hidle v hP] at hv
  · intro h erange r
    obtain ⟨r', hr'⟩ := (hdispatch erange r P).mpr ⟨n, h, hset r⟩
    exact ⟨_, r', rfl, hr'⟩

theorem arrives_setFrequency_iff (client : TuningClient) {f : UInt32} (hlo : 1000000 ≤ f)
    (hhi : f < 1800000000) :
    Arrives (client.setFrequency (.finite f.toNat)) (·.TunedTo f.toNat) ↔
      2 ^ (Nat.log 2 f.toNat - 23) ∣ f.toNat := by
  rw [setFrequency_eq]
  refine arrives_of_dispatch (fun _ _ _ => exists_dispatch_tuningfrequency f) (fun r => ?_)
    fun fc hfc => ?_
  · rw [if_pos ⟨hlo, hhi⟩, tunedTo_setFcenter]
  · split at hfc
    · exact UInt32.toNat_inj.mp (tunedTo_setFcenter.mp hfc)
    · -- the receiver is left as it is, at frequency 0
      have hzero : 0 = f := UInt32.toNat_inj.mp hfc.1
      exact absurd hlo (by rw [← hzero]; decide)

theorem arrives_setSampleRate_iff (client : TuningClient) (fs : UInt32) :
    Arrives (client.setSampleRate (.finite fs.toNat)) (·.SampledAt fs.toNat) ↔
      2 ^ (Nat.log 2 fs.toNat - 23) ∣ fs.toNat := by
  rw [setSampleRate_eq]
  refine arrives_of_dispatch (fun _ _ _ => exists_dispatch_samplerate fs) (fun r => ?_)
    fun fs' hfs => ?_
  · rw [sampledAt_setSamplerate]
  · exact UInt32.toNat_inj.mp (sampledAt_setSamplerate.mp hfs)

/-- The frequencies and sample rates that arrive are those with 24 binary digits in front of zeros. -/
theorem arrives_iff (client : TuningClient) :
    (∀ f : ℕ, 1000000 ≤ f → f < 1800000000 →
      (Arrives (client.setFrequency (.finite f)) (·.TunedTo f) ↔ 2 ^ (Nat.log 2 f - 23) ∣ f)) ∧
    ∀ fs : UInt32, Arrives (client.setSampleRate (.finite fs.toNat)) (·.SampledAt fs.toNat) ↔
      2 ^ (Nat.log 2 fs.toNat - 23) ∣ fs.toNat := by
  refine ⟨fun f hlo hhi => ?_, arrives_setSampleRate_iff client⟩
  have hf : (UInt32.ofNat f).toNat = f := by
    rw [UInt32.toNat_ofNat', Nat.mod_eq_of_lt (by omega)]
  have h := arrives_setFrequency_iff client (f := .ofNat f)
    (UInt32.le_iff_toNat_le.mpr (by rw [hf]; exact hlo))
    (UInt32.lt_iff_toNat_lt.mpr (by rw [hf]; exact hhi))
  rwa [hf] at h

theorem arrives_iff_hundredMegahertz :
    Arrives (TuningClient.aegirDevice.setFrequency (.finite (100000000 : ℕ)))
      (·.TunedTo 100000000) :=
  ((arrives_iff .aegirDevice).1 100000000 (by norm_num) (by norm_num)).mpr (by norm_num)

/-- The first frequency and the first sample rate that do not arrive. -/
theorem not_arrives :
    (¬ ∀ client : TuningClient, ∀ f : ℕ, 1000000 ≤ f → f < 1800000000 →
      Arrives (client.setFrequency (.finite f)) (·.TunedTo f)) ∧
    ¬ ∀ client : TuningClient, ∀ fs : UInt32,
      Arrives (client.setSampleRate (.finite fs.toNat)) (·.SampledAt fs.toNat) := by
  have hnat : (16777217 : UInt32).toNat = 16777217 := rfl
  have hdigits : ¬ 2 ^ (Nat.log 2 (16777217 : UInt32).toNat - 23) ∣ (16777217 : UInt32).toNat := by
    rw [hnat]
    norm_num
  refine ⟨fun h => ?_, fun h => ?_⟩
  · refine hdigits ((arrives_setFrequency_iff .aegirSDRImpl (by decide) (by decide)).mp ?_)
    rw [hnat]
    exact h .aegirSDRImpl 16777217 (by norm_num) (by norm_num)
  · exact hdigits ((arrives_setSampleRate_iff .aegirSDRImpl 16777217).mp (h .aegirSDRImpl 16777217))

end Aegir
