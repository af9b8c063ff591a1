import Aegir.Verify.RowMajor
import Aegir.Verify.ReceivedBytes

/-!
# Which packets the clients read right

The header says how many channels and samples a packet has, but not in which of the two formats they
are, and the clients, which take every packet to be in the int8 format, accept one of the other
format that has the sizes they expect. Packets in the int8 format are read right by both clients,
whatever the samples are, up to the quantization (`notMisread_of_int8`).
-/

namespace Aegir

open TransportConfig

variable {F K : Type*} [Field K] {cfg : TransportConfig} {o : ByteOrder} {ff : FloatFormat F}
  {q : UInt32} {r : Nat → UInt32} {s : Nat → Nat → Int8} {m : Mem} {msg : Message}

/-- What a call of `work` outputs for each channel are the samples `s`. -/
def AegirSDRImpl.WorkResult.Shows (w : WorkResult K) (N : Nat) (s : Nat → Nat → Int8) : Prop :=
  ∀ c < N, ∀ i < w.produced, w.out c i = some (sampleValue (s c) i)

/-- What a call of `readStream` stores for each channel that it has a buffer for are the samples `s`,
when it does not return an error. -/
def ReadStreamResult.Shows (res : ReadStreamResult K) (h : StreamHandle) (buffs : Nat → Bool)
    (N : Nat) (s : Nat → Nat → Int8) : Prop :=
  ∀ n more out, res = .ok n more out → ∀ k c, h.channels[k]? = some c → c < N → buffs k = true →
    ∀ i < n, out k i = some (writtenSample (s c) i h.format)

variable (K) in
/-- Neither the block, configured for the sizes of the server, nor the driver misreads the message,
which the server made of the samples `s`. -/
def NotMisread (cfg : TransportConfig) (o : ByteOrder) (s : Nat → Nat → Int8) (msg : Message) :
    Prop :=
  (∀ buf, let d : AegirSDRImpl := ⟨cfg.nchannels.toInt32, (cfg.blocksize >>> 1).toInt32⟩
    ∃ w : AegirSDRImpl.WorkResult K, d.work o buf (some msg) = some w ∧ w.Shows cfg.N s) ∧
  ∀ h buffs numElems,
    (readStream (K := K) o h buffs numElems (some msg)).Shows h buffs cfg.N s

theorem Encodes.readStream_shows (heven : 2 ∣ cfg.B) (he : Encodes cfg o q r s msg.data)
    (h : StreamHandle) (buffs : Nat → Bool) (numElems : Nat) :
    (Aegir.readStream (K := K) o h buffs numElems (some msg)).Shows h buffs cfg.N s := by
  intro n more out hres k c hk hc hbuf i hi
  by_cases hs : msg.size < 16 ∨ (readHdr0 o msg.data).N.toNat = 0 ∨
      (readHdr0 o msg.data).L.toNat = 0
  · rw [readStream_of_short hs] at hres
    cases hres
  obtain ⟨h16, hNL⟩ := not_or.mp hs
  rw [readStream_of_long h16 (not_or.mp hNL).1 (not_or.mp hNL).2] at hres
  cases hres
  have hL := he.toNat_L
  rw [readSamples_of_lt hk (he.toNat_N ▸ hc) hbuf hi, he.toNat_N, hL]
  exact congrArg some (he.streamSample heven hc (by omega) h.format)

/-- A packet in the int8 format with header, whatever the layout option and the order of the calls,
is not misread. -/
theorem notMisread_of_int8 (h8 : cfg.f32bit = false) (hn : cfg.noheader = false)
    (heven : 2 ∣ cfg.B) (hf : cfg.Fits) {x : Nat → Nat → F} {ops : List PacketOp}
    (hops : ops.Perm (PacketOp.all cfg))
    (hmsg : msg.Carries (cfg.message (ops.foldl (PacketOp.store cfg o ff q r x) m))) :
    NotMisread K cfg o (fun c i => ff.convert8i (x c i)) msg := by
  obtain ⟨he, hlen⟩ := encodes_of_carries h8 hn hf hops hmsg
  refine ⟨fun buf => ?_, he.readStream_shows heven⟩
  obtain ⟨w, hw, hprod, hout⟩ := he.work (K := K) heven (d := ⟨_, _⟩) rfl rfl hf hlen buf
  exact ⟨w, hw, fun c hc i hi => hout c hc i (hprod ▸ hi)⟩

/-- Two channels, each of one sample that the quantization does not change. -/
def twoChannelFrame : Mem :=
  [.header, .write 0, .write 1].foldl
    (PacketOp.store twoChannels .little ratFormat 7 (fun _ => 0) fun _ _ => 3 / 127) fun _ => 255

theorem notMisread_twoChannelFrame :
    NotMisread ℚ twoChannels .little (fun _ _ => ratFormat.convert8i (3 / 127))
      ⟨twoChannels.packetlen, twoChannelFrame⟩ :=
  notMisread_of_int8 rfl rfl (by decide) (by unfold Fits; decide)
    (.of_eq (show [.header, .write 0, .write 1] = PacketOp.all twoChannels by decide))
    (carries_message rfl fun _ _ => rfl)

/-! ### Misread packets -/

/-- No message of the server is misread, whatever the frame. -/
def NeverMisread (cfg : TransportConfig) : Prop :=
  ∀ (o : ByteOrder) (conv : UInt32 → Int8) q r (x : Nat → Nat → UInt32)
    (ops : List PacketOp) m (msg : Message), ops.Perm (PacketOp.all cfg) →
    msg.Carries (cfg.message (ops.foldl (PacketOp.store cfg o (bitFormat o conv) q r x) m)) →
    NotMisread ℚ cfg o (fun c i => conv (x c i)) msg

/-- One channel of one sample in the float format. -/
def oneFloat : TransportConfig := ⟨false, false, true, 1, 2⟩

/-- One channel of `2 ^ 30` samples in the int8 format. -/
def longInt8 : TransportConfig := ⟨false, false, false, 1, 2 ^ 31⟩

/-- The kernel of the int8 format, as far as the examples need it: `1.0f` is converted to 127. -/
def convertOne (w : UInt32) : Int8 := if w = 0x3F800000 then 127 else 0

/-- The frame of `oneFloat` whose sample is `1.0f`, twice. -/
def oneFloatFrame : Mem :=
  [.header, .write 0].foldl (PacketOp.store oneFloat .little (bitFormat .little convertOne) 0
    (fun _ => 0) fun _ _ => 0x3F800000) fun _ => 0

theorem not_neverMisread_oneFloat : ¬ NeverMisread oneFloat := by
  intro h
  have hcarries : Message.Carries ⟨28, oneFloatFrame⟩ (oneFloat.message oneFloatFrame) :=
    carries_message (by decide) fun _ _ => rfl
  obtain ⟨d, hd⟩ : ∃ d : AegirSDRImpl, ⟨1, 1⟩ = d := ⟨_, rfl⟩
  obtain ⟨w, hw, hshows⟩ : ∃ w : AegirSDRImpl.WorkResult ℚ,
      d.work .little (fun _ => 0) (some ⟨28, oneFloatFrame⟩) = some w ∧ w.Shows 1 fun _ _ => 127 :=
    hd ▸ (h .little convertOne 0 (fun _ => 0) (fun _ _ => 0x3F800000) [.header, .write 0]
      (fun _ => 0) _ (.of_eq (by decide)) hcarries).1 fun _ => 0
  have hacc : ¬ d.Rejects .little (fun _ => 0) ⟨28, oneFloatFrame⟩ := by
    rw [← hd, AegirSDRImpl.Rejects]
    decide
  have hfit : d.OffsetsFit := by rw [← hd]; decide
  rw [AegirSDRImpl.work_of_accepts (by decide) hacc hfit, Option.some.injEq] at hw
  subst hw hd
  have hat := hshows 0 (by decide) 0 (by decide)
  -- the byte where the block reads the real part is zero
  have hbyte : zmqRecv (fun _ => 0) 22 ⟨28, oneFloatFrame⟩ 20 = (0 : Int8).toUInt8 := by decide
  have hre : (scaled (zmqRecv (fun _ => 0) 22 ⟨28, oneFloatFrame⟩) 20 : ℚ) =
      (127 : Int8).toInt / 128.0 := congrArg Prod.fst (Option.some.inj hat)
  rw [scaled_eq hbyte] at hre
  norm_num at hre
  exact absurd hre (by decide)

theorem not_neverMisread_longInt8 : ¬ NeverMisread longInt8 := by
  intro h
  obtain ⟨m, hm⟩ : ∃ m, [.write 0, .header].foldl (PacketOp.store longInt8 .little
      (bitFormat .little convertOne) 0 (fun _ => 0) fun _ _ => 0) (fun _ => 0) = m := ⟨_, rfl⟩
  have hhdr : readHdr0 .little m = longInt8.hdr0 0 := by
    rw [← hm, List.foldl_cons, List.foldl_cons, List.foldl_nil, PacketOp.store]
    exact readHdr0_fillHeader
  -- behind the message, which ends with the readcount, there is a 1 where the sample is read
  obtain ⟨m', hm'⟩ : ∃ m' : Mem, (fun a => if a = 20 then 1 else m a) = m' := ⟨_, rfl⟩
  have hlow : ∀ a < 20, m' a = m a := fun a ha => by
    rw [← hm']
    exact if_neg (by omega)
  have hhdr' : readHdr0 .little m' = longInt8.hdr0 0 :=
    (readHdr0_congr fun a ha => hlow a (by omega)).trans hhdr
  have hcarries : Message.Carries ⟨20, m'⟩ (longInt8.message m) :=
    carries_message (by decide) hlow
  have hshows : (readStream (K := ℚ) .little ⟨.cs8, [0]⟩ (fun _ => true) 1 (some ⟨20, m'⟩)).Shows
      ⟨.cs8, [0]⟩ (fun _ => true) 1 fun _ _ => 0 :=
    (h .little convertOne 0 (fun _ => 0) (fun _ _ => 0) [.write 0, .header] (fun _ => 0) ⟨20, m'⟩
      (List.Perm.swap ..) (hm ▸ hcarries)).2 ⟨.cs8, [0]⟩ (fun _ => true) 1
  have hN : (readHdr0 .little m').N.toNat ≠ 0 := by rw [hhdr']; decide
  have hL : (readHdr0 .little m').L.toNat ≠ 0 := by rw [hhdr']; decide
  have hlong : readStream (K := ℚ) .little ⟨.cs8, [0]⟩ (fun _ => true) 1 (some ⟨20, m'⟩) = _ :=
    readStream_of_long (show ¬ 20 < 16 by decide) hN hL
  have hat := hshows _ _ _ hlong 0 0 rfl (by decide) rfl 0 (by simp only [hhdr']; decide)
  simp only [hhdr'] at hat
  change some (StreamSample.cs8 (m' 20).toInt8 (m' 21).toInt8) = some (.cs8 0 0) at hat
  have hre := StreamSample.cs8.inj (Option.some.inj hat)
  have hone : m' 20 = 1 := hm' ▸ if_pos rfl
  rw [hone] at hre
  exact absurd hre.1 (by decide)

/-- The bytes of `1.0f` are not its quantization; and when the size of a packet in the int8 format
overflows, the samples are not in the message at all. -/
theorem not_neverMisread : ¬ NeverMisread oneFloat ∧ ¬ NeverMisread longInt8 :=
  ⟨not_neverMisread_oneFloat, not_neverMisread_longInt8⟩

end Aegir
