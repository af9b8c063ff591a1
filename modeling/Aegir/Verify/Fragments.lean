import Aegir.Verify.RoundTrip

/-!
# The stream of the SoapySDR driver

A call of `readStream` receives a message of its own and returns the first samples of it; when the
caller has asked for fewer samples than the packet has, it sets `SOAPY_SDR_MORE_FRAGMENTS` and drops
the rest with the message. So the samples that the calls return are without gaps if and only if every
call that receives a packet asks for all of it, the last one excepted (`gapFree_iff`).
-/

namespace Aegir

variable {K : Type*} [Field K]

/-! ## The samples of a packet -/

/-- An int8 packet with `L` samples for each of `nchannels` channels. -/
structure WellFormed (o : ByteOrder) (nchannels : UInt32) (L : Nat) (msg : Message) : Prop where
  channels : (readHdr0 o msg.data).N = nchannels
  samples : (readHdr0 o msg.data).L.toNat = L
  size : 16 + 4 * nchannels.toNat + 2 * (nchannels.toNat * L) ≤ msg.size

/-- The samples of the channel `ch` of a packet. -/
def packetSamples (K : Type*) [Field K] (nchannels : UInt32) (fmt : StreamFormat) (msg : Message)
    (L ch : Nat) : List (StreamSample K) :=
  (List.range L).map fun s =>
    streamSample K msg.data (16 + 4 * nchannels.toNat + ch * (2 * L) + 2 * s) fmt

/-! ## Calls of `readStream` -/

/-- A call: how many samples it asks for, and the message that it receives. -/
structure ReadCall where
  numElems : Nat
  msg : Option Message

/-- The samples that a call has stored for the `k`-th subscribed channel. -/
def ReadStreamResult.samples (k : Nat) : ReadStreamResult K → List (StreamSample K)
  | .ok nSamples _ out => (List.range nSamples).filterMap (out k)
  | _ => []

/-- The samples that a call returns for the `k`-th subscribed channel. -/
def ReadCall.returned (K : Type*) [Field K] (o : ByteOrder) (h : StreamHandle) (buffs : Nat → Bool)
    (k : Nat) (c : ReadCall) : List (StreamSample K) :=
  (readStream (K := K) o h buffs c.numElems c.msg).samples k

/-- The samples of the channel `ch` that a call has received. -/
def ReadCall.received (K : Type*) [Field K] (o : ByteOrder) (nchannels : UInt32)
    (fmt : StreamFormat) (ch : Nat) (c : ReadCall) : List (StreamSample K) :=
  match c.msg with
  | none => []
  | some msg => packetSamples K nchannels fmt msg (readHdr0 o msg.data).L.toNat ch

/-- The samples returned by the calls are a prefix of the samples received. -/
def GapFree (K : Type*) [Field K] (o : ByteOrder) (nchannels : UInt32) (h : StreamHandle)
    (buffs : Nat → Bool) (k ch : Nat) (calls : List ReadCall) : Prop :=
  calls.flatMap (·.returned K o h buffs k) <+: calls.flatMap (·.received K o nchannels h.format ch)

/-- How many samples a call asks for, and how many samples a channel of its packet has. -/
structure CallShape where
  numElems : Nat
  samples : Option Nat

/-- The call receives a packet of this shape, or no message. -/
def ReadCall.HasShape (o : ByteOrder) (nchannels : UInt32) (c : ReadCall) (p : CallShape) : Prop :=
  c.numElems = p.numElems ∧
    match p.samples, c.msg with
    | none, none => True
    | some L, some msg => WellFormed o nchannels L msg
    | _, _ => False

/-- A call asks for samples, and a packet has samples, as many as `blocksize >> 1` may be. -/
structure CallShape.Valid (p : CallShape) : Prop where
  asks : 1 ≤ p.numElems
  samples : ∀ L, p.samples = some L → 1 ≤ L ∧ L < 2 ^ 31

/-- Every call that receives a packet asks for all of it, except the last of these calls. -/
def AskForAll : List CallShape → Prop
  | [] => True
  | p :: ps => (∀ L, p.samples = some L → (∃ p' ∈ ps, p'.samples.isSome) → L ≤ p.numElems) ∧
      AskForAll ps

variable {o : ByteOrder} {nchannels : UInt32} {h : StreamHandle} {buffs : Nat → Bool} {k ch : Nat}
  {c : ReadCall} {p : CallShape} {L : Nat}

theorem received_of_shape (hs : c.HasShape o nchannels p) :
    (p.samples = none ∧ c.msg = none) ∨
      ∃ L msg, p.samples = some L ∧ c.msg = some msg ∧ WellFormed o nchannels L msg := by
  obtain ⟨-, hs⟩ := hs
  cases hp : p.samples with
  | none => cases hc : c.msg with
    | none => exact .inl ⟨rfl, rfl⟩
    | some msg => simp [hp, hc] at hs
  | some L => cases hc : c.msg with
    | none => simp [hp, hc] at hs
    | some msg => exact .inr ⟨L, msg, rfl, rfl, by simpa [hp, hc] using hs⟩

/-- A call that receives a packet returns the first samples of it. -/
theorem returned_eq_take {msg : Message} (hw : WellFormed o nchannels L msg) (hL : 1 ≤ L)
    (hch : ch < nchannels.toNat) (hk : h.channels[k]? = some ch) (hbuf : buffs k = true)
    (hc : c.msg = some msg) :
    c.returned K o h buffs k = (c.received K o nchannels h.format ch).take c.numElems := by
  have h16 : ¬ msg.size < 16 := by have := hw.size; omega
  have hN : (readHdr0 o msg.data).N.toNat ≠ 0 := by rw [hw.channels]; omega
  have hL : (readHdr0 o msg.data).L.toNat ≠ 0 := by rw [hw.samples]; omega
  simp only [ReadCall.returned, ReadCall.received, hc, readStream_of_long h16 hN hL, hw.channels,
    hw.samples, ReadStreamResult.samples, packetSamples, ← List.map_take, List.take_range]
  rw [Nat.min_comm c.numElems, ← List.filterMap_eq_map]
  exact List.filterMap_congr fun s hs => readSamples_of_lt hk hch hbuf (List.mem_range.mp hs) _

/-- A subscribed channel is one of the daemon's. -/
theorem setupStream_lt {n : Nat} {fmt : StreamFormat} {channels : List Nat}
    (hset : setupStream n fmt channels = .ok h) (hk : h.channels[k]? = some ch) : ch < n := by
  unfold setupStream at hset
  split at hset
  · cases hset
    obtain ⟨hlt, rfl⟩ := List.getElem?_eq_some_iff.mp hk
    simpa using hlt
  · split at hset
    · cases hset
    · rename_i hfind
      cases hset
      have hall := List.find?_eq_none.mp hfind ch (List.mem_of_getElem? hk)
      simpa using hall

/-! ## Calls that ask for all -/

section
variable (hch : ch < nchannels.toNat) (hk : h.channels[k]? = some ch) (hbuf : buffs k = true)
include hch hk hbuf

theorem returned_prefix (hv : p.Valid) (hs : c.HasShape o nchannels p) :
    c.returned K o h buffs k <+: c.received K o nchannels h.format ch := by
  rcases received_of_shape hs with ⟨-, hc⟩ | ⟨L, msg, hp, hc, hw⟩
  · simp [ReadCall.returned, hc, readStream, ReadStreamResult.samples]
  · rw [returned_eq_take hw (hv.samples L hp).1 hch hk hbuf hc]
    exact List.take_prefix ..

theorem returned_eq_received (hv : p.Valid) (hs : c.HasShape o nchannels p)
    (hall : ∀ L, p.samples = some L → L ≤ p.numElems) :
    c.returned K o h buffs k = c.received K o nchannels h.format ch := by
  rcases received_of_shape hs with ⟨-, hc⟩ | ⟨L, msg, hp, hc, hw⟩
  · simp [ReadCall.returned, ReadCall.received, hc, readStream, ReadStreamResult.samples]
  · rw [returned_eq_take hw (hv.samples L hp).1 hch hk hbuf hc]
    refine List.take_of_length_le ?_
    simpa [ReadCall.received, hc, packetSamples, hw.samples, hs.1] using hall L hp

omit hch hk hbuf in
theorem received_eq_nil {calls : List ReadCall} {shapes : List CallShape}
    (hs : List.Forall₂ (ReadCall.HasShape o nchannels) calls shapes)
    (hnone : ¬ ∃ p ∈ shapes, p.samples.isSome) (fmt : StreamFormat) (ch : Nat) :
    calls.flatMap (·.received K o nchannels fmt ch) = [] := by
  induction hs with
  | nil => rfl
  | @cons c p calls shapes hc _ ih =>
    rw [List.flatMap_cons, ih fun ⟨p', hp', h'⟩ => hnone ⟨p', List.mem_cons_of_mem _ hp', h'⟩]
    rcases received_of_shape hc with ⟨-, hc⟩ | ⟨L, msg, hp, -, -⟩
    · simp [ReadCall.received, hc]
    · exact absurd ⟨p, List.mem_cons_self, by simp [hp]⟩ hnone

/-- Call after call, the samples received so far have all been returned. -/
theorem gapFree_of_askForAll {calls : List ReadCall} {shapes : List CallShape}
    (hv : ∀ p ∈ shapes, p.Valid) (hall : AskForAll shapes)
    (hs : List.Forall₂ (ReadCall.HasShape o nchannels) calls shapes) :
    GapFree K o nchannels h buffs k ch calls := by
  unfold GapFree
  induction hs with
  | nil => exact List.nil_prefix
  | @cons c p calls shapes hc hs ih =>
    obtain ⟨hfirst, hrest⟩ := hall
    have hvp := hv p List.mem_cons_self
    have ih := ih (fun p hp => hv p (List.mem_cons_of_mem _ hp)) hrest
    rw [List.flatMap_cons, List.flatMap_cons]
    by_cases hlater : ∃ p' ∈ shapes, p'.samples.isSome
    · rw [returned_eq_received hch hk hbuf hvp hc fun L hL => hfirst L hL hlater]
      exact (List.prefix_append_right_inj _).mpr ih
    · -- the last packet: a prefix of it is enough
      rw [received_eq_nil hs hlater] at ih ⊢
      rw [List.prefix_nil.mp ih, List.append_nil, List.append_nil]
      exact returned_prefix hch hk hbuf hvp hc

end

/-! ## A call that does not -/

/-- A packet all of whose samples have the byte `b`. -/
def constantPacket (o : ByteOrder) (nchannels : UInt32) (b : UInt8) (L : Nat) : Message where
  size := 16 + 4 * nchannels.toNat + 2 * (nchannels.toNat * L)
  data := TransportConfig.fillHeader ⟨false, false, false, nchannels, .ofNat (2 * L)⟩ o
    (fun _ => b) 0

/-- A call of the given shape that receives a constant packet. -/
def constantCall (o : ByteOrder) (nchannels : UInt32) (b : UInt8) (p : CallShape) : ReadCall :=
  ⟨p.numElems, p.samples.map (constantPacket o nchannels b)⟩

theorem wellFormed_constantPacket (b : UInt8) (hL : L < 2 ^ 31) :
    WellFormed o nchannels L (constantPacket o nchannels b L) where
  channels := by simp [constantPacket]
  samples := by
    have hu : (UInt32.ofNat (2 * L)).toNat = 2 * L := UInt32.toNat_ofNat_of_lt'
      (show 2 * L < 2 ^ 32 by omega)
    simp only [constantPacket, TransportConfig.readHdr0_fillHeader, TransportConfig.hdr0_L,
      UInt32.toNat_shiftRight, hu]
    exact (TransportConfig.shiftRight_one _).trans (by omega)
  size := le_rfl

theorem hasShape_constantCall (b : UInt8) (hv : p.Valid) :
    (constantCall o nchannels b p).HasShape o nchannels p := by
  refine ⟨rfl, ?_⟩
  cases hp : p.samples with
  | none => simp [constantCall, hp]
  | some L =>
    simpa [constantCall, hp] using wellFormed_constantPacket b (hv.samples L hp).2

theorem received_constantCall (b : UInt8) (hp : p.samples = some L) (hL : L < 2 ^ 31)
    (fmt : StreamFormat) :
    (constantCall o nchannels b p).received K o nchannels fmt ch =
      List.replicate L (streamSample K (fun _ => b) 0 fmt) := by
  simp only [ReadCall.received, constantCall, hp, Option.map_some,
    (wellFormed_constantPacket b hL).samples, packetSamples]
  rw [List.eq_replicate_iff]
  refine ⟨by simp, fun x hx => ?_⟩
  obtain ⟨s, -, rfl⟩ := List.mem_map.mp hx
  have hat : ∀ a, 16 ≤ a → (constantPacket o nchannels b L).data a = b :=
    fun a ha => TransportConfig.fillHeader_of_ge ha
  have hre := hat (16 + 4 * nchannels.toNat + ch * (2 * L) + 2 * s) (by omega)
  have him := hat (16 + 4 * nchannels.toNat + ch * (2 * L) + 2 * s + 1) (by omega)
  cases fmt <;> simp only [streamSample, scaled, hre, him]

/-- How many samples a call of this shape receives, and how many it returns. -/
def CallShape.receives (p : CallShape) : Nat := p.samples.getD 0

def CallShape.returns (p : CallShape) : Nat := min p.numElems p.receives

section
variable (b : UInt8) {shapes : List CallShape} (hv : ∀ p ∈ shapes, p.Valid)
include hv

theorem flatMap_received_constantCall (fmt : StreamFormat) :
    (shapes.map (constantCall o nchannels b)).flatMap (·.received K o nchannels fmt ch) =
      List.replicate (shapes.map CallShape.receives).sum (streamSample K (fun _ => b) 0 fmt) := by
  induction shapes with
  | nil => rfl
  | cons p shapes ih =>
    rw [List.map_cons, List.flatMap_cons, ih fun p hp => hv p (List.mem_cons_of_mem _ hp),
      List.map_cons, List.sum_cons, List.replicate_add]
    congr 1
    cases hp : p.samples with
    | none => simp [constantCall, hp, ReadCall.received, CallShape.receives]
    | some L =>
      rw [received_constantCall b hp ((hv p List.mem_cons_self).samples L hp).2]
      simp [CallShape.receives, hp]

theorem flatMap_returned_constantCall (hch : ch < nchannels.toNat)
    (hk : h.channels[k]? = some ch) (hbuf : buffs k = true) :
    (shapes.map (constantCall o nchannels b)).flatMap (·.returned K o h buffs k) =
      List.replicate (shapes.map CallShape.returns).sum
        (streamSample K (fun _ => b) 0 h.format) := by
  induction shapes with
  | nil => rfl
  | cons p shapes ih =>
    rw [List.map_cons, List.flatMap_cons, ih fun p hp => hv p (List.mem_cons_of_mem _ hp),
      List.map_cons, List.sum_cons, List.replicate_add]
    congr 1
    have hvp := hv p List.mem_cons_self
    cases hp : p.samples with
    | none => simp [constantCall, hp, ReadCall.returned, readStream, ReadStreamResult.samples,
        CallShape.returns, CallShape.receives]
    | some L =>
      obtain ⟨hL, hlt⟩ := hvp.samples L hp
      rw [returned_eq_take (wellFormed_constantPacket b hlt) hL hch hk hbuf (by simp [constantCall, hp]),
        received_constantCall b hp hlt, List.take_replicate]
      simp [CallShape.returns, CallShape.receives, hp, constantCall]

end

theorem sum_returns_le (shapes : List CallShape) :
    (shapes.map CallShape.returns).sum ≤ (shapes.map CallShape.receives).sum :=
  List.sum_le_sum fun _ _ => Nat.min_le_right ..

theorem sum_returns_pos {shapes : List CallShape} (hv : ∀ p ∈ shapes, p.Valid)
    (hsome : ∃ p ∈ shapes, p.samples.isSome) : 0 < (shapes.map CallShape.returns).sum := by
  obtain ⟨p, hp, hs⟩ := hsome
  obtain ⟨L, hL⟩ := Option.isSome_iff_exists.mp hs
  have hle : p.returns ≤ (shapes.map CallShape.returns).sum :=
    List.single_le_sum (fun _ _ => Nat.zero_le _) _ (List.mem_map_of_mem hp)
  have hasks := (hv p hp).asks
  have hpos := ((hv p hp).samples L hL).1
  simp only [CallShape.returns, CallShape.receives, hL, Option.getD_some] at hle
  omega

theorem exists_of_not_askForAll {shapes : List CallShape} (h : ¬ AskForAll shapes) :
    ∃ pre p post, shapes = pre ++ p :: post ∧ (∃ L, p.samples = some L ∧ p.numElems < L) ∧
      ∃ p' ∈ post, p'.samples.isSome := by
  induction shapes with
  | nil => exact absurd trivial h
  | cons p shapes ih =>
    by_cases hrest : AskForAll shapes
    · have hfirst : ¬ ∀ L, p.samples = some L → (∃ p' ∈ shapes, p'.samples.isSome) →
          L ≤ p.numElems := fun hfirst => h ⟨hfirst, hrest⟩
      push Not at hfirst
      obtain ⟨L, hL, hlater, hlt⟩ := hfirst
      exact ⟨[], p, shapes, rfl, ⟨L, hL, hlt⟩, hlater⟩
    · obtain ⟨pre, q, post, rfl, hq, hlater⟩ := ih hrest
      exact ⟨p :: pre, q, post, rfl, hq, hlater⟩

theorem not_prefix_of_lt {α : Type*} {a b : α} {m n i j : Nat} (hab : a ≠ b) (hmn : m < n)
    (hi : 0 < i) :
    ¬ (List.replicate m a ++ List.replicate i b) <+: (List.replicate n a ++ List.replicate j b) := by
  obtain ⟨d, rfl⟩ : ∃ d, n = m + (d + 1) := ⟨n - m - 1, by omega⟩
  obtain ⟨i, rfl⟩ : ∃ i', i = i' + 1 := ⟨i - 1, by omega⟩
  rw [List.replicate_add m, List.append_assoc, List.prefix_append_right_inj, List.replicate_succ,
    List.replicate_succ, List.cons_append, List.cons_prefix_cons]
  exact fun h => hab h.1.symm

theorem streamSample_ne [CharZero K] (fmt : StreamFormat) :
    streamSample K (fun _ => 0) 0 fmt ≠ streamSample K (fun _ => 1) 0 fmt := by
  have h128 : (0 : K) ≠ 128.0 := by norm_num
  cases fmt <;> simp [streamSample, scaled, h128]

/-- When a call leaves samples of its packet and another packet follows, there are packets with which
samples are missing. -/
theorem exists_not_gapFree [CharZero K] (hch : ch < nchannels.toNat)
    (hk : h.channels[k]? = some ch) (hbuf : buffs k = true) {shapes : List CallShape}
    (hv : ∀ p ∈ shapes, p.Valid) (hnot : ¬ AskForAll shapes) :
    ∃ calls, List.Forall₂ (ReadCall.HasShape o nchannels) calls shapes ∧
      ¬ GapFree K o nchannels h buffs k ch calls := by
  obtain ⟨pre, p, post, rfl, ⟨L, hL, hlt⟩, hlater⟩ := exists_of_not_askForAll hnot
  have hsplit : pre ++ p :: post = (pre ++ [p]) ++ post := by simp
  rw [hsplit] at hv ⊢
  have hv₀ : ∀ q ∈ pre ++ [p], q.Valid := fun q hq => hv q (List.mem_append_left _ hq)
  have hv₁ : ∀ q ∈ post, q.Valid := fun q hq => hv q (List.mem_append_right _ hq)
  have hshape : ∀ (b : UInt8) (qs : List CallShape), (∀ q ∈ qs, q.Valid) →
      List.Forall₂ (ReadCall.HasShape o nchannels) (qs.map (constantCall o nchannels b)) qs :=
    fun b qs hqs => List.forall₂_map_left_iff.mpr
      (List.forall₂_same.mpr fun q hq => hasShape_constantCall b (hqs q hq))
  -- zeros up to the incomplete call, ones after it
  refine ⟨(pre ++ [p]).map (constantCall o nchannels 0) ++ post.map (constantCall o nchannels 1),
    List.rel_append (hshape 0 _ hv₀) (hshape 1 _ hv₁), ?_⟩
  rw [GapFree, List.flatMap_append, List.flatMap_append,
    flatMap_returned_constantCall 0 hv₀ hch hk hbuf, flatMap_returned_constantCall 1 hv₁ hch hk hbuf,
    flatMap_received_constantCall 0 hv₀, flatMap_received_constantCall 1 hv₁]
  refine not_prefix_of_lt (streamSample_ne h.format) ?_ (sum_returns_pos hv₁ hlater)
  have hle := sum_returns_le pre
  have hpl : p.returns < p.receives := by simp [CallShape.returns, CallShape.receives, hL, hlt]
  simp only [List.map_append, List.map_cons, List.map_nil, List.sum_append, List.sum_cons,
    List.sum_nil]
  omega

/-- Whatever packets of the given sizes the calls receive, the samples they return for a subscribed
channel are without gaps: if and only if every call that receives a packet, the last of them
excepted, asks for all of it. -/
theorem gapFree_iff [CharZero K] {fmt : StreamFormat} {channels : List Nat}
    (hset : setupStream nchannels.toNat fmt channels = .ok h) (hk : h.channels[k]? = some ch)
    (hbuf : buffs k = true) {shapes : List CallShape} (hv : ∀ p ∈ shapes, p.Valid) :
    (∀ calls, List.Forall₂ (ReadCall.HasShape o nchannels) calls shapes →
      GapFree K o nchannels h buffs k ch calls) ↔ AskForAll shapes := by
  have hch := setupStream_lt hset hk
  refine ⟨fun hall => ?_, fun hask calls hs => gapFree_of_askForAll hch hk hbuf hv hask hs⟩
  by_contra hnot
  obtain ⟨calls, hs, hgap⟩ := exists_not_gapFree (K := K) (o := o) hch hk hbuf hv hnot
  exact hgap (hall calls hs)

/-- The stream of one channel. -/
def oneChannel : StreamHandle := ⟨.cf32, [0]⟩

/-- The last packet may be left unfinished, and a call may receive nothing. -/
theorem gapFree_iff_unfinished :
    AskForAll [⟨2, some 2⟩, ⟨1, none⟩, ⟨1, some 2⟩] ∧
      ∀ calls, List.Forall₂ (ReadCall.HasShape .little 1) calls
          [⟨2, some 2⟩, ⟨1, none⟩, ⟨1, some 2⟩] →
        GapFree ℚ .little 1 oneChannel (fun _ => true) 0 0 calls := by
  have hv : ∀ p ∈ ([⟨2, some 2⟩, ⟨1, none⟩, ⟨1, some 2⟩] : List CallShape), p.Valid := by
    intro p hp
    fin_cases hp <;> exact ⟨by decide, by simp⟩
  have hset : setupStream (1 : UInt32).toNat .cf32 [] = .ok oneChannel := rfl
  have hask : AskForAll [⟨2, some 2⟩, ⟨1, none⟩, ⟨1, some 2⟩] := by simp [AskForAll]
  exact ⟨hask, (gapFree_iff hset rfl rfl hv).mpr hask⟩

/-- Two packets of two samples; the first call asks for one sample, and the second sample is never
returned. -/
theorem not_gapFree :
    ¬ ∀ (shapes : List CallShape) (calls : List ReadCall), (∀ p ∈ shapes, p.Valid) →
      List.Forall₂ (ReadCall.HasShape .little 1) calls shapes →
      GapFree ℚ .little 1 oneChannel (fun _ => true) 0 0 calls := by
  intro h
  have hv : ∀ n, 1 ≤ n → ∀ p ∈ [(⟨n, some 2⟩ : CallShape)], p.Valid := by
    intro n hn p hp
    rw [List.mem_singleton.mp hp]
    exact ⟨hn, by simp⟩
  have hgap := h [⟨1, some 2⟩, ⟨2, some 2⟩]
    ([⟨1, some 2⟩].map (constantCall .little 1 0) ++ [⟨2, some 2⟩].map (constantCall .little 1 1))
    (fun p hp => (List.mem_append.mp hp).elim (hv 1 le_rfl p) (hv 2 (by decide) p))
    (.cons (hasShape_constantCall 0 (hv 1 le_rfl _ List.mem_cons_self))
      (.cons (hasShape_constantCall 1 (hv 2 (by decide) _ List.mem_cons_self)) .nil))
  have hch : 0 < (1 : UInt32).toNat := by decide
  rw [GapFree, List.flatMap_append, List.flatMap_append,
    flatMap_returned_constantCall 0 (hv 1 le_rfl) hch rfl rfl,
    flatMap_returned_constantCall 1 (hv 2 (by decide)) hch rfl rfl,
    flatMap_received_constantCall 0 (hv 1 le_rfl),
    flatMap_received_constantCall 1 (hv 2 (by decide))] at hgap
  exact not_prefix_of_lt (streamSample_ne _) (by decide) (by decide) hgap

end Aegir
