import Aegir.Verify.RoundTrip

/-!
# The quantization error

The server multiplies by 127 and rounds, and the clients divide by 128. The step of the client is
smaller than that of the server, so that what it produces for a component falls short by up to `1/128`
at full scale, in addition to the rounding. It is within half a step, `1/254`, of the components outside
the gaps (`accurate_iff_not_inGap`): between two successive multiples of the server's step lies a gap whose
width grows with the multiple, and full scale lies in the last one.
-/

namespace Aegir

open TransportConfig

variable {K : Type*} [Field K] {cfg : TransportConfig} {o : ByteOrder} {q : UInt32}
  {r : Nat → UInt32} {s : Nat → Nat → Int8} {m : Mem} {msg : Message}

/-! ## What the clients produce -/

/-- The three clients, each configured for the sizes of the server, produce `z` for the sample `i` of
channel `c`. -/
structure Produce (cfg : TransportConfig) (o : ByteOrder) (msg : Message) (c i : Nat) (z : K × K) :
    Prop where
  work : ∀ buf, let d : AegirSDRImpl := ⟨cfg.nchannels.toInt32, (cfg.blocksize >>> 1).toInt32⟩
    ∃ w, d.work o buf (some msg) = some w ∧ w.out c i = some z
  readStream : ∀ (h : StreamHandle) (buffs : Nat → Bool) (numElems : Nat), h.format = .cf32 →
    i < numElems → ∃ n more out, Aegir.readStream o h buffs numElems (some msg) = .ok n more out ∧
      ∀ k, h.channels[k]? = some c → buffs k = true → out k i = some (.cf32 z.1 z.2)
  mexRead : cfg.packetlen ≤ bufferLength → ∀ buffer,
    ∃ f, (Aegir.mexRead o buffer (some msg)).1 = some f ∧ f.entry i c = some z

theorem Encodes.produce (heven : 2 ∣ cfg.B) (hf : cfg.Fits) (he : Encodes cfg o q r s msg.data)
    (hsize : 16 + 4 * cfg.N + cfg.N * cfg.B ≤ msg.size)
    (hcap : cfg.packetlen ≤ bufferLength → msg.size ≤ bufferLength) {c i : Nat} (hc : c < cfg.N)
    (hi : i < cfg.B / 2) : Produce cfg o msg c i (sampleValue (s c) i : K × K) where
  work buf := by
    obtain ⟨w, hw, -, hout⟩ := he.work (K := K) heven (d := ⟨_, _⟩) rfl rfl hf hsize buf
    exact ⟨w, hw, hout c hc i hi⟩
  readStream h buffs numElems hfmt hnum := by
    have hN := he.toNat_N
    have hL := he.toNat_L
    refine ⟨_, _, _, readStream_of_long (by omega) (by omega) (by omega), fun k hk hbuf => ?_⟩
    rw [readSamples_of_lt hk (hN ▸ hc) hbuf (by omega), hN, hL, hfmt]
    exact congrArg some (he.streamSample heven hc hi .cf32)
  mexRead hlen buffer := by
    obtain ⟨f, hread, -, -, -, hentry, -⟩ := he.mexRead (K := K) heven hf hsize (hcap hlen) buffer
    exact ⟨f, hread, hentry c hc i hi⟩

/-- What the clients produce for a component. -/
def FloatFormat.decoded (ff : FloatFormat K) (v : K) : K := (ff.convert8i v).toInt / 128.0

theorem produce_of_store {ff : FloatFormat K} {x : Nat → Nat → K} (h8 : cfg.f32bit = false)
    (hn : cfg.noheader = false) (heven : 2 ∣ cfg.B) (hf : cfg.Fits) {ops : List PacketOp}
    (hops : ops.Perm (PacketOp.all cfg))
    (hmsg : msg.Carries (cfg.message (ops.foldl (PacketOp.store cfg o ff q r x) m))) {c i : Nat}
    (hc : c < cfg.N) (hi : i < cfg.B / 2) :
    Produce cfg o msg c i (ff.decoded (x c (2 * i)), ff.decoded (x c (2 * i + 1))) := by
  obtain ⟨he, hlen⟩ := encodes_of_carries h8 hn hf hops hmsg
  exact he.produce heven hf hlen (fun h => hmsg.size_eq ▸ h) hc hi

theorem Produce.unique {c i : Nat} {z z' : K × K} (h : Produce cfg o msg c i z)
    (h' : Produce cfg o msg c i z') : z = z' := by
  obtain ⟨w, hw, hout⟩ := h.work fun _ => 0
  obtain ⟨w', hw', hout'⟩ := h'.work fun _ => 0
  obtain rfl : w = w' := Option.some.inj (hw.symm.trans hw')
  exact Option.some.inj (hout.symm.trans hout')

variable [LinearOrder K] {ff : FloatFormat K} {v : K}

/-- Of a component `v`, wherever it is written in a frame, the clients produce a number that differs
from it by at most half a step of the server. -/
def FloatFormat.Accurate (ff : FloatFormat K) (v : K) : Prop :=
  ∀ (cfg : TransportConfig) (o : ByteOrder) (q : UInt32) (r : Nat → UInt32) (x : Nat → Nat → K)
    (m : Mem) (ops : List PacketOp) (msg : Message),
    cfg.f32bit = false → cfg.noheader = false → 2 ∣ cfg.B → cfg.Fits →
    ops.Perm (PacketOp.all cfg) →
    msg.Carries (cfg.message (ops.foldl (PacketOp.store cfg o ff q r x) m)) →
    ∀ c < cfg.N, ∀ i < cfg.B / 2, ∃ z, Produce cfg o msg c i z ∧
      (x c (2 * i) = v → |z.1 - v| ≤ 1 / 254.0) ∧ (x c (2 * i + 1) = v → |z.2 - v| ≤ 1 / 254.0)

/-- A frame of one sample. -/
def oneSample : TransportConfig := ⟨false, false, false, 1, 2⟩

theorem FloatFormat.accurate_iff_decoded : ff.Accurate v ↔ |ff.decoded v - v| ≤ 1 / 254.0 := by
  constructor
  · intro h
    have hf : oneSample.Fits := by unfold Fits; decide
    have hmsg : Message.Carries ⟨oneSample.packetlen, (PacketOp.all oneSample).foldl
        (PacketOp.store oneSample .little ff 0 (fun _ => 0) fun _ _ => v) fun _ => 0⟩
        (oneSample.message _) := carries_message rfl fun _ _ => rfl
    obtain ⟨z, hz, hre, -⟩ := h oneSample .little 0 (fun _ => 0) (fun _ _ => v) (fun _ => 0)
      (PacketOp.all oneSample) _ rfl rfl (by decide) hf (.refl _) hmsg 0 (by decide) 0 (by decide)
    have heq := hz.unique (produce_of_store rfl rfl (by decide) hf (.refl _) hmsg (by decide)
      (by decide))
    rw [heq] at hre
    exact hre rfl
  · intro h cfg o q r x m ops msg h8 hn heven hf hops hmsg c hc i hi
    exact ⟨_, produce_of_store h8 hn heven hf hops hmsg hc hi, fun hx => hx ▸ h, fun hx => hx ▸ h⟩

/-! ## The error -/

/-- More than half a step of the server above `k` steps of the client, and not nearer to `k + 1` steps of
the server than to `k`. -/
def InGap (v : K) : Prop :=
  ∃ k : ℕ, 1 ≤ k ∧ k / 128.0 + 1 / 254.0 < |v| ∧ |v| ≤ (k + 0.5) / 127.0

variable [IsStrictOrderedRing K]

/-- Up to full scale, nothing is clamped. -/
theorem FloatFormat.decoded_of_nearest {n : ℤ} (hv : |v| ≤ 1) (hn : |127 * v - n| ≤ 1 / 2)
    (hk : (ff.convert8i v).toInt = max (-128) (min 127 n)) : ff.decoded v = n / 128 := by
  obtain ⟨hn1, hn2⟩ := abs_le.mp hn
  obtain ⟨hv1, hv2⟩ := abs_le.mp hv
  have hlo : ((-128 : ℤ) : K) < n := by
    push_cast
    linarith
  have hhi : ((n : ℤ) : K) < (128 : ℤ) := by
    push_cast
    linarith
  have hlo : -128 < n := by exact_mod_cast hlo
  have hhi : n < 128 := by exact_mod_cast hhi
  rw [decoded, hk, max_eq_right (by omega), min_eq_right (by omega)]
  norm_num

theorem FloatFormat.RoundsAndClamps.decoded_eq (hff : ff.RoundsAndClamps) (hv : |v| ≤ 1) :
    ∃ n : ℤ, |127 * v - n| ≤ 1 / 2 ∧ ff.decoded v = n / 128 := by
  obtain ⟨n, hn, hk⟩ := hff v
  norm_num at hn
  exact ⟨n, hn, decoded_of_nearest hv hn hk⟩

/-- What the client makes of the nearest integer is never too large by more than half a step: only what
it falls short counts. -/
theorem abs_div_sub_le_iff {n : ℤ} (hv : |v| ≤ 1) (hn : |127 * v - n| ≤ 1 / 2) :
    |n / 128 - v| ≤ 1 / 254 ↔ |v| ≤ n.natAbs / 128 + 1 / 254 := by
  obtain ⟨hv1, hv2⟩ := abs_le.mp hv
  obtain ⟨hn1, hn2⟩ := abs_le.mp hn
  rw [abs_le, Nat.cast_natAbs, Int.cast_abs]
  rcases lt_trichotomy n 0 with h | rfl | h
  · have hn0 : (n : K) ≤ -1 := by exact_mod_cast (by omega : n ≤ -1)
    rw [abs_of_neg (show v < 0 by linarith), abs_of_neg (show (n : K) < 0 by linarith)]
    constructor
    · rintro ⟨-, h⟩
      linarith
    · intro h
      constructor <;> linarith
  · simp only [Int.cast_zero, abs_zero, zero_div, zero_sub, zero_add, abs_le]
    constructor <;> rintro ⟨h1, h2⟩ <;> constructor <;> linarith
  · have hn0 : (1 : K) ≤ n := by exact_mod_cast (by omega : 1 ≤ n)
    rw [abs_of_pos (show 0 < v by linarith), abs_of_pos (show 0 < (n : K) by linarith)]
    constructor
    · rintro ⟨h, -⟩
      linarith
    · intro h
      constructor <;> linarith

/-- Outside the gaps, every way of rounding is good enough. -/
theorem FloatFormat.RoundsAndClamps.accurate (hff : ff.RoundsAndClamps) (hv : |v| ≤ 1)
    (hgap : ¬ InGap v) : ff.Accurate v := by
  obtain ⟨n, hn, hdec⟩ := hff.decoded_eq hv
  norm_num [accurate_iff_decoded, hdec, abs_div_sub_le_iff hv hn]
  by_contra hlt
  refine hgap ⟨n.natAbs, ?_, ?_, ?_⟩
  · by_contra hz
    obtain rfl : n = 0 := by omega
    norm_num [abs_mul] at hn hlt
    linarith
  · norm_num at hlt ⊢
    exact hlt
  · have habs : |127 * v| ≤ |(n : K)| + 1 / 2 := by
      linarith [abs_sub_abs_le_abs_sub (127 * v) (n : K)]
    rw [abs_mul, abs_of_pos (by norm_num : (0 : K) < 127)] at habs
    rw [Nat.cast_natAbs, Int.cast_abs]
    norm_num [le_div_iff₀]
    linarith

/-- In a gap, the component is rounded down, unless it is halfway. -/
theorem natAbs_eq_of_inGap {n : ℤ} (hv : |v| ≤ 1) (hn : |127 * v - n| ≤ 1 / 2)
    (hup : |(n : K)| < |127 * v| + 1 / 2) {k : ℕ} (hlo : k / 128.0 + 1 / 254.0 < |v|)
    (hhi : |v| ≤ (k + 0.5) / 127.0) : n.natAbs = k := by
  have hdown : |127 * v| ≤ |(n : K)| + 1 / 2 := by
    linarith [abs_sub_abs_le_abs_sub (127 * v) (n : K)]
  rw [abs_mul, abs_of_pos (by norm_num : (0 : K) < 127), ← Int.cast_abs, Int.abs_eq_natAbs,
    Int.cast_natCast] at hup hdown
  norm_num [le_div_iff₀] at hlo hhi
  have hle : (n.natAbs : K) < k + 1 := by linarith
  have hge : (k : K) < n.natAbs + 1 := by linarith
  have hle' : n.natAbs < k + 1 := by exact_mod_cast hle
  have hge' : k < n.natAbs + 1 := by exact_mod_cast hge
  omega

/-- In a gap, a component that is rounded down is decoded with too large an error. -/
theorem not_accurate_of_inGap (hv : |v| ≤ 1) {n : ℤ} (hn : |127 * v - n| ≤ 1 / 2)
    (hdec : ff.decoded v = n / 128) (hup : |(n : K)| < |127 * v| + 1 / 2) (hgap : InGap v) :
    ¬ ff.Accurate v := by
  obtain ⟨k, -, hlo, hhi⟩ := hgap
  have hk := natAbs_eq_of_inGap hv hn hup hlo hhi
  norm_num [FloatFormat.accurate_iff_decoded, hdec, abs_div_sub_le_iff hv hn, hk]
  norm_num at hlo
  exact hlo

/-- A component that is not halfway between two multiples of the server's step has one nearest. -/
theorem FloatFormat.RoundsAndClamps.accurate_iff_of_ne (hff : ff.RoundsAndClamps) (hv : |v| ≤ 1)
    (hhalf : ∀ n : ℤ, 127.0 * v ≠ n + 0.5) : ff.Accurate v ↔ ¬ InGap v := by
  refine ⟨fun h hgap => ?_, hff.accurate hv⟩
  obtain ⟨n, hn, hdec⟩ := hff.decoded_eq hv
  have hne : |127 * v - n| ≠ 1 / 2 := by
    intro heq
    rcases (abs_eq (by norm_num)).mp heq with h | h
    · refine hhalf n ?_
      norm_num
      linarith
    · refine hhalf (n - 1) ?_
      push_cast
      norm_num
      linarith
  have hlt := lt_of_le_of_ne hn hne
  have hup : |(n : K)| < |127 * v| + 1 / 2 := by
    linarith [abs_sub_abs_le_abs_sub (n : K) (127 * v), abs_sub_comm (n : K) (127 * v)]
  exact not_accurate_of_inGap hv hn hdec hup hgap h

section
variable [FloorRing K]

/-- The nearest integer, and of two the one closer to zero. -/
def roundTowardsZero (x : K) : ℤ := if 0 ≤ x then -round (-x) else round x

theorem roundTowardsZero_spec (x : K) :
    |x - roundTowardsZero x| ≤ 1 / 2 ∧ |(roundTowardsZero x : K)| < |x| + 1 / 2 := by
  have hbounds : ∀ y : K, y - 1 / 2 < round y ∧ (round y : K) ≤ y + 1 / 2 := fun y => by
    rw [round_eq]
    exact ⟨by linarith [Int.lt_floor_add_one (y + 1 / 2)], Int.floor_le _⟩
  unfold roundTowardsZero
  split
  next h =>
    obtain ⟨hlo, hhi⟩ := hbounds (-x)
    have hlt : (round (-x) : K) < (0 + 1 : ℤ) := by
      push_cast
      linarith
    have hle : (round (-x) : K) ≤ 0 := by exact_mod_cast Int.lt_add_one_iff.mp (Int.cast_lt.mp hlt)
    rw [Int.cast_neg, abs_neg, abs_of_nonneg h, abs_le, abs_lt]
    refine ⟨⟨?_, ?_⟩, ?_, ?_⟩ <;> linarith
  next h =>
    obtain ⟨hlo, hhi⟩ := hbounds x
    rw [abs_of_neg (not_le.mp h), abs_le, abs_lt]
    refine ⟨⟨?_, ?_⟩, ?_, ?_⟩ <;> linarith

variable (K) in
/-- The kernel that rounds so. -/
def towardsZero : FloatFormat K where
  bytes _ _ := 0
  convert8i x := .ofInt (max (-128) (min 127 (roundTowardsZero (127.0 * x))))

omit [IsStrictOrderedRing K] in
theorem towardsZero_convert8i (x : K) :
    ((towardsZero K).convert8i x).toInt = max (-128) (min 127 (roundTowardsZero (127.0 * x))) :=
  Int8.toInt_ofInt_of_le (by omega) (by omega)

theorem towardsZero_roundsAndClamps : (towardsZero K).RoundsAndClamps := by
  intro x
  refine ⟨roundTowardsZero (127.0 * x), ?_, towardsZero_convert8i x⟩
  have h := (roundTowardsZero_spec (127.0 * x)).1
  norm_num at h ⊢
  exact h

/-- Whatever the kernel does with halves, the error is at most half a step outside the gaps; and inside
them it is larger for every kernel, except halfway between two steps, where it depends on the kernel. -/
theorem accurate_iff_not_inGap (hv : |v| ≤ 1) :
    ((∀ ff : FloatFormat K, ff.RoundsAndClamps → ff.Accurate v) ↔ ¬ InGap v) ∧
      ∀ ff : FloatFormat K, ff.RoundsAndClamps → (∀ n : ℤ, 127.0 * v ≠ n + 0.5) →
        (ff.Accurate v ↔ ¬ InGap v) := by
  refine ⟨⟨fun h hgap => ?_, fun hgap ff hff => hff.accurate hv hgap⟩,
    fun ff hff hne => hff.accurate_iff_of_ne hv hne⟩
  obtain ⟨hn, hup⟩ := roundTowardsZero_spec (127.0 * v)
  have hk := towardsZero_convert8i v
  norm_num at hn hup hk
  refine not_accurate_of_inGap hv hn (FloatFormat.decoded_of_nearest hv hn hk) ?_ hgap
    (h _ towardsZero_roundsAndClamps)
  norm_num
  exact hup

end

theorem accurate_iff_not_inGap_quarter : ratFormat.Accurate (1 / 4) := by
  refine (accurate_iff_not_inGap (by norm_num [abs_le])).1.mpr ?_ _ ratFormat_roundsAndClamps
  rintro ⟨k, -, hlo, hhi⟩
  norm_num [abs_of_pos, le_div_iff₀] at hlo hhi
  have hk : (k : ℚ) < 32 := by linarith
  have hk' : (31 : ℚ) < k := by linarith
  have hk : k < 32 := by exact_mod_cast hk
  have hk' : 31 < k := by exact_mod_cast hk'
  omega

/-- Full scale is decoded as 127/128. -/
theorem not_accurate :
    ¬ ∀ ff : FloatFormat ℝ, ff.RoundsAndClamps → ∀ v, -1 ≤ v → v ≤ 1 → ff.Accurate v := by
  intro h
  obtain ⟨ff, hff⟩ : ∃ ff : FloatFormat ℝ, ff.RoundsAndClamps := ⟨_, towardsZero_roundsAndClamps⟩
  have hv : |(1 : ℝ)| ≤ 1 := by norm_num
  have hgap : InGap (1 : ℝ) := ⟨127, by norm_num, by norm_num, by norm_num⟩
  have hne : ∀ n : ℤ, 127.0 * (1 : ℝ) ≠ n + 0.5 := by
    intro n hn
    norm_num at hn
    have hn : (2 * 127 : ℤ) = 2 * n + 1 := by
      have : (2 * 127 : ℝ) = 2 * n + 1 := by linarith
      exact_mod_cast this
    omega
  exact (hff.accurate_iff_of_ne hv hne).mp (h ff hff 1 (by norm_num) le_rfl) hgap

end Aegir
