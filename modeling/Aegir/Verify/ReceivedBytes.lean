import Aegir.Verify.RoundTrip

/-!
# Which bytes the clients use

Each client takes the number of channels and samples from the packet or from its configuration and
computes offsets from them; none of them compares the offsets with the length of what it received. A
result that is computed from the message alone is the same whatever the receive buffer contained
before and whatever lies behind the message. For each client this is so exactly when it reports no
samples or the message covers everything that the announced sizes make it read, and the offsets of
`work`, which are `int`s, do not overflow (`onlyMessage_iff`).
-/

namespace Aegir

variable {K : Type*} [Field K] {o : ByteOrder} {msg msg' : Message} {buf : Mem} {cap a i : Nat}

/-- The same message, with anything behind it. -/
structure SameBytes (msg msg' : Message) : Prop where
  size : msg'.size = msg.size
  data : ∀ i < msg.size, msg'.data i = msg.data i

theorem zmqRecv_of_ge (h : min msg.size cap ≤ i) : zmqRecv buf cap msg i = buf i :=
  Mem.blit_of_ge (by omega)

/-- Inside the message, a receive buffer does not depend on what it contained. -/
theorem zmqRecv_congr (h : SameBytes msg msg') (buf' : Mem) (hi : i < min msg.size cap) :
    zmqRecv buf' cap msg' i = zmqRecv buf cap msg i := by
  rw [zmqRecv_of_lt (by rw [h.size]; exact hi), zmqRecv_of_lt hi, h.data i (by omega)]

/-- The memory with another byte at the address. -/
def Mem.flip (m : Mem) (a : Nat) : Mem := Function.update m a (m a + 1)

theorem Mem.flip_of_ne {m : Mem} (h : i ≠ a) : m.flip a i = m i := Function.update_of_ne h ..

theorem Mem.flip_self {m : Mem} : m.flip a a ≠ m a := by
  rw [Mem.flip, Function.update_self]
  exact fun h => absurd (add_eq_left.mp h) (by decide)

theorem zmqRecv_flip (h : min msg.size cap ≤ a) :
    zmqRecv (buf.flip a) cap msg = (zmqRecv buf cap msg).flip a := by
  funext i
  by_cases hi : i < min msg.size cap
  · rw [zmqRecv_of_lt hi, Mem.flip_of_ne (by omega), zmqRecv_of_lt hi]
  · rw [zmqRecv_of_ge (by omega)]
    by_cases hia : i = a
    · subst hia
      simp [Mem.flip, zmqRecv_of_ge h]
    · rw [Mem.flip_of_ne hia, Mem.flip_of_ne hia, zmqRecv_of_ge (by omega)]

theorem scaled_inj [CharZero K] {m m' : Mem} (h : (scaled m a : K) = scaled m' a) :
    m a = m' a := by
  have h128 : (1 / 128.0 : K) ≠ 0 := by norm_num
  have hint : (m a).toInt8.toInt = (m' a).toInt8.toInt := by
    exact_mod_cast mul_right_cancel₀ h128 h
  exact congrArg Int8.toUInt8 (Int8.toInt_inj.mp hint)

/-! ## `AegirSDR_impl::work` -/

namespace AegirSDRImpl

variable (K) in
/-- A call of `work` reports no samples, or computes them from the message alone. -/
def OnlyMessage (d : AegirSDRImpl) (o : ByteOrder) (buf : Mem) (msg : Message) : Prop :=
  ∃ w : WorkResult K, d.work o buf (some msg) = some w ∧
    (w.produced = 0 ∨ ∀ buf' msg', SameBytes msg msg' →
      ∃ w' : WorkResult K, d.work o buf' (some msg') = some w' ∧ w'.out = w.out)

/-- The header in the receive buffer is not the one that the block expects. -/
def Rejects (d : AegirSDRImpl) (o : ByteOrder) (buf : Mem) (msg : Message) : Prop :=
  (readHdr0 o (zmqRecv buf d.pktSize msg)).N.toInt32 ≠ d.nchannels ∨
    (readHdr0 o (zmqRecv buf d.pktSize msg)).L.toInt32 ≠ d.blocksize

/-- The message is empty, is rejected, or, if there are any samples, covers them and no offset
overflows. -/
def Covered (d : AegirSDRImpl) (o : ByteOrder) (buf : Mem) (msg : Message) : Prop :=
  msg.size = 0 ∨ d.Rejects o buf msg ∨ d.N = 0 ∨ d.L = 0 ∨ d.OffsetsFit ∧ d.pktSize ≤ msg.size

/-- What an accepted message leaves, read from the receive buffer `m`. -/
def decoded (K : Type*) [Field K] (d : AegirSDRImpl) (m : Mem) : WorkResult K where
  produced := d.L
  out ch i :=
    if ch < d.N ∧ i < d.L then
      some (scaled m (sizeofHdr0 + d.N * sizeofUint32 + ch * d.L * 2 + 2 * i),
        scaled m (sizeofHdr0 + d.N * sizeofUint32 + ch * d.L * 2 + (2 * i + 1)))
    else none
  buf := m

variable {d : AegirSDRImpl}

theorem work_of_rejects (h : msg.size = 0 ∨ d.Rejects o buf msg) :
    d.work (K := K) o buf (some msg) = some ⟨0, fun _ _ => none, zmqRecv buf d.pktSize msg⟩ := by
  by_cases h0 : msg.size = 0
  · simp only [work, if_pos h0]
  · have hr := h.resolve_left h0
    rw [Rejects] at hr
    simp only [work, if_neg h0, if_pos hr]

theorem work_of_accepts (h0 : msg.size ≠ 0) (h : ¬ d.Rejects o buf msg) (hfit : d.OffsetsFit) :
    d.work (K := K) o buf (some msg) = some (d.decoded K (zmqRecv buf d.pktSize msg)) := by
  rw [Rejects] at h
  simp only [work, if_neg h0, if_neg h, if_neg (not_not.mpr hfit), decoded]

theorem work_of_overflow (h0 : msg.size ≠ 0) (h : ¬ d.Rejects o buf msg) (hfit : ¬ d.OffsetsFit) :
    d.work (K := K) o buf (some msg) = none := by
  rw [Rejects] at h
  simp only [work, if_neg h0, if_neg h, if_pos hfit]

/-- The block allocates the 3 GiB of three such channels, and cannot compute where the last one starts. -/
example : ¬ (⟨3, 2 ^ 29⟩ : AegirSDRImpl).OffsetsFit := by decide

theorem offsetsFit_of_empty (h : d.N = 0 ∨ d.L = 0) : d.OffsetsFit := by
  intro ch hch
  have hL : d.L = 0 := h.resolve_left (by omega)
  simp [hL]

theorem address_lt {ch k : Nat} (hch : ch < d.N) (hk : k < 2 * d.L) :
    sizeofHdr0 + d.N * sizeofUint32 + ch * d.L * 2 + k < d.pktSize := by
  have hle : (ch + 1) * d.L ≤ d.N * d.L := Nat.mul_le_mul_right _ hch
  rw [Nat.succ_mul] at hle
  rw [pktSize]
  omega

theorem onlyMessage_of_covered (h : d.Covered o buf msg) : d.OnlyMessage K o buf msg := by
  by_cases hr : msg.size = 0 ∨ d.Rejects o buf msg
  · exact ⟨_, work_of_rejects hr, .inl rfl⟩
  obtain ⟨h0, hacc⟩ := not_or.mp hr
  have hcov := (h.resolve_left h0).resolve_left hacc
  have hfit : d.OffsetsFit := by
    rcases hcov with hN | hL | hcov
    · exact offsetsFit_of_empty (.inl hN)
    · exact offsetsFit_of_empty (.inr hL)
    · exact hcov.1
  refine ⟨_, work_of_accepts h0 hacc hfit, ?_⟩
  by_cases hL : d.L = 0
  · exact .inl hL
  refine .inr fun buf' msg' hsame => ?_
  by_cases hN : d.N = 0
  · -- no channel, nothing is stored
    by_cases hr' : msg'.size = 0 ∨ d.Rejects o buf' msg'
    · refine ⟨_, work_of_rejects hr', ?_⟩
      simp [decoded, hN]
    · obtain ⟨h0', hacc'⟩ := not_or.mp hr'
      refine ⟨_, work_of_accepts h0' hacc' hfit, ?_⟩
      simp [decoded, hN]
  · have hsize : d.pktSize ≤ msg.size := ((hcov.resolve_left hN).resolve_left hL).2
    have hbuf : ∀ i < d.pktSize, zmqRecv buf' d.pktSize msg' i = zmqRecv buf d.pktSize msg i :=
      fun i hi => zmqRecv_congr hsame buf' (by omega)
    have hhdr : readHdr0 o (zmqRecv buf' d.pktSize msg') = readHdr0 o (zmqRecv buf d.pktSize msg) :=
      TransportConfig.readHdr0_congr fun i hi => hbuf i (by rw [pktSize, sizeofHdr0]; omega)
    have hacc' : ¬ d.Rejects o buf' msg' := by rwa [Rejects, hhdr]
    refine ⟨_, work_of_accepts (hsame.size ▸ h0) hacc' hfit, ?_⟩
    funext ch i
    simp only [decoded]
    split
    · rename_i hlt
      simp only [scaled, hbuf _ (address_lt hlt.1 (by omega : 2 * i < 2 * d.L)),
        hbuf _ (address_lt hlt.1 (by omega : 2 * i + 1 < 2 * d.L))]
    · rfl

theorem covered_of_onlyMessage [CharZero K] (h : d.OnlyMessage K o buf msg) :
    d.Covered o buf msg := by
  by_contra hnot
  simp only [Covered, not_or] at hnot
  obtain ⟨h0, hacc, hN, hL, hnot⟩ := hnot
  obtain ⟨w, hw, h⟩ := h
  by_cases hfit : d.OffsetsFit
  swap
  · rw [work_of_overflow h0 hacc hfit] at hw
    cases hw
  rw [work_of_accepts h0 hacc hfit, Option.some.injEq] at hw
  subst hw
  have hsize : ¬ d.pktSize ≤ msg.size := fun hle => hnot ⟨hfit, hle⟩
  -- another byte where the last sample of the last channel is read
  obtain ⟨n, hn⟩ : ∃ n, d.N = n + 1 := ⟨d.N - 1, by omega⟩
  obtain ⟨l, hl⟩ : ∃ l, d.L = l + 1 := ⟨d.L - 1, by omega⟩
  obtain ⟨last, hlast⟩ : ∃ last,
      sizeofHdr0 + d.N * sizeofUint32 + n * d.L * 2 + (2 * l + 1) = last := ⟨_, rfl⟩
  have hend : last + 1 = d.pktSize := by
    have hmul : d.N * d.L = n * d.L + d.L := by rw [hn, Nat.succ_mul]
    rw [← hlast, pktSize, hmul]
    omega
  have hge : 16 ≤ last := by rw [← hlast, sizeofHdr0]; omega
  have hflip : zmqRecv (buf.flip last) d.pktSize msg = (zmqRecv buf d.pktSize msg).flip last :=
    zmqRecv_flip (by omega)
  have hhdr : readHdr0 o (zmqRecv (buf.flip last) d.pktSize msg) =
      readHdr0 o (zmqRecv buf d.pktSize msg) :=
    TransportConfig.readHdr0_congr fun i hi => by rw [hflip, Mem.flip_of_ne (by omega)]
  have hacc' : ¬ d.Rejects o (buf.flip last) msg := by rwa [Rejects, hhdr]
  obtain ⟨w', hw', hout⟩ := (h.resolve_left hL) (buf.flip last) msg ⟨rfl, fun _ _ => rfl⟩
  rw [work_of_accepts h0 hacc' hfit, Option.some.injEq] at hw'
  subst hw'
  have hat := congrFun (congrFun hout n) l
  simp only [decoded] at hat
  rw [if_pos ⟨by omega, by omega⟩, if_pos ⟨by omega, by omega⟩, hlast, hflip] at hat
  exact Mem.flip_self (scaled_inj (Prod.mk.inj (Option.some.inj hat)).2)

end AegirSDRImpl

/-! ## `AegirDevice::readStream` -/

/-- The `int` that a call returns: `SOAPY_SDR_TIMEOUT`, `SOAPY_SDR_OVERFLOW` or the number of samples. -/
def ReadStreamResult.returned : ReadStreamResult K → Int
  | .timeout => -1
  | .overflow => -4
  | .ok nSamples _ _ => (Int32.ofNat nSamples).toInt

variable {h : StreamHandle} {buffs : Nat → Bool} {numElems : Nat}

variable (K) in
/-- A call of `readStream` reports no samples, or computes its result from the message alone. -/
def ReadOnlyMessage (o : ByteOrder) (h : StreamHandle) (buffs : Nat → Bool) (numElems : Nat)
    (msg : Message) : Prop :=
  (readStream (K := K) o h buffs numElems (some msg)).returned ≤ 0 ∨
    ∀ msg', SameBytes msg msg' →
      readStream (K := K) o h buffs numElems (some msg') = readStream o h buffs numElems (some msg)

/-- The call reports no samples, or the message covers what it reads for every subscribed channel. -/
def ReadCovered (o : ByteOrder) (h : StreamHandle) (buffs : Nat → Bool) (numElems : Nat)
    (msg : Message) : Prop :=
  let N := (readHdr0 o msg.data).N.toNat
  let L := (readHdr0 o msg.data).L.toNat
  msg.size < 16 ∨ N = 0 ∨ L = 0 ∨ (Int32.ofNat (min L numElems)).toInt ≤ 0 ∨
    ∀ k ch, h.channels[k]? = some ch → ch < N → buffs k = true →
      16 + 4 * N + ch * (2 * L) + 2 * min L numElems ≤ msg.size

theorem streamSample_congr {m m' : Mem} {fmt : StreamFormat} (hre : m' a = m a)
    (him : m' (a + 1) = m (a + 1)) : streamSample K m' a fmt = streamSample K m a fmt := by
  cases fmt <;> simp only [streamSample, scaled, hre, him]

theorem streamSample_inj [CharZero K] {m m' : Mem} {fmt : StreamFormat}
    (h : streamSample K m' a fmt = streamSample K m a fmt) : m' (a + 1) = m (a + 1) := by
  cases fmt with
  | cf32 => exact scaled_inj (StreamSample.cf32.inj h).2
  | cs8 => exact congrArg Int8.toUInt8 (StreamSample.cs8.inj h).2

theorem readOnlyMessage_of_covered (hc : ReadCovered o h buffs numElems msg) :
    ReadOnlyMessage K o h buffs numElems msg := by
  by_cases hs : msg.size < 16 ∨ (readHdr0 o msg.data).N.toNat = 0 ∨
      (readHdr0 o msg.data).L.toNat = 0
  · rw [ReadOnlyMessage, readStream_of_short hs]
    exact .inl (show (-4 : Int) ≤ 0 by decide)
  obtain ⟨h16, hNL⟩ := not_or.mp hs
  obtain ⟨hN, hL⟩ := not_or.mp hNL
  rw [ReadOnlyMessage, readStream_of_long h16 hN hL]
  rcases ((hc.resolve_left h16).resolve_left hN).resolve_left hL with hneg | hcov
  · exact .inl hneg
  refine .inr fun msg' hsame => ?_
  have hhdr : readHdr0 o msg'.data = readHdr0 o msg.data :=
    TransportConfig.readHdr0_congr fun i hi => hsame.data i (by omega)
  rw [readStream_of_long (hsame.size ▸ h16) (hhdr ▸ hN) (hhdr ▸ hL), hhdr]
  congr 1
  funext k s
  unfold readSamples
  split
  · rfl
  rename_i ch hk
  split
  · rfl
  rename_i hok
  split
  · rfl
  rename_i hlt
  have hle := hcov k ch hk (by omega) (Bool.eq_true_of_not_eq_false fun hb => hok (.inr hb))
  rw [streamSample_congr (hsame.data _ (by omega)) (hsame.data _ (by omega))]

theorem readCovered_of_onlyMessage [CharZero K] (ho : ReadOnlyMessage K o h buffs numElems msg) :
    ReadCovered o h buffs numElems msg := by
  by_contra hnot
  simp only [ReadCovered, not_or] at hnot
  obtain ⟨h16, hN, hL, hpos, hcov⟩ := hnot
  push Not at hcov
  obtain ⟨k, ch, hk, hch, hbuf, hlt⟩ := hcov
  rw [ReadOnlyMessage, readStream_of_long h16 hN hL] at ho
  -- another byte behind the message, where the last sample of the channel is read
  obtain ⟨n, hn⟩ : ∃ n, min (readHdr0 o msg.data).L.toNat numElems = n + 1 := by
    refine ⟨min (readHdr0 o msg.data).L.toNat numElems - 1, ?_⟩
    have : min (readHdr0 o msg.data).L.toNat numElems ≠ 0 := fun h0 => hpos (by rw [h0]; decide)
    omega
  obtain ⟨last, hlast⟩ : ∃ last, 16 + 4 * (readHdr0 o msg.data).N.toNat +
      ch * (2 * (readHdr0 o msg.data).L.toNat) + 2 * n + 1 = last := ⟨_, rfl⟩
  have hsame : SameBytes msg ⟨msg.size, msg.data.flip last⟩ :=
    ⟨rfl, fun i hi => Mem.flip_of_ne (by omega)⟩
  have hhdr : readHdr0 o (msg.data.flip last) = readHdr0 o msg.data :=
    TransportConfig.readHdr0_congr fun i hi => Mem.flip_of_ne (by omega)
  have heq := (ho.resolve_left hpos) _ hsame
  have hlong : readStream (K := K) o h buffs numElems (some ⟨msg.size, msg.data.flip last⟩) = _ :=
    readStream_of_long h16 (hhdr ▸ hN) (hhdr ▸ hL)
  rw [hlong] at heq
  simp only [hhdr, ReadStreamResult.ok.injEq, true_and] at heq
  have hat := congrFun (congrFun heq k) n
  rw [readSamples_of_lt hk hch hbuf (by omega), readSamples_of_lt hk hch hbuf (by omega)] at hat
  have hbyte := streamSample_inj (Option.some.inj hat)
  rw [hlast] at hbyte
  exact Mem.flip_self hbyte

/-! ## The operation `'r'` of the MATLAB client -/

variable (K) in
/-- The operation returns no frame, or computes the frame from the message alone. -/
def MexOnlyMessage (o : ByteOrder) (buf : Mem) (msg : Message) : Prop :=
  (mexRead (K := K) o buf (some msg)).1 = none ∨
    ∀ buf' msg', SameBytes msg msg' →
      (mexRead (K := K) o buf' (some msg')).1 = (mexRead (K := K) o buf (some msg)).1

/-- The message is empty, or what the buffer takes of it covers the header, the readcounts and the
values that the announced sizes make the operation convert. -/
def MexCovered (o : ByteOrder) (buf : Mem) (msg : Message) : Prop :=
  let c := ((zmqRecv buf bufferLength msg).load32 o 4).toNat
  let r := ((zmqRecv buf bufferLength msg).load32 o 8).toNat
  msg.size = 0 ∨ 12 ≤ min msg.size bufferLength ∧
    (c = 0 ∨ 16 + 4 * c + u32 (u32 (r * c) <<< 1) ≤ min msg.size bufferLength)

/-- The frame that the operation computes from the receive buffer. -/
def mexFrame (K : Type*) [Field K] (o : ByteOrder) (m : Mem) : MexFrame K where
  r := (m.load32 o 8).toNat
  c := (m.load32 o 4).toNat
  gseq := m.load32 o 0
  outptr n := if n < u32 (u32 ((m.load32 o 8).toNat * (m.load32 o 4).toNat) <<< 1) then
    some (scaled m (16 + 4 * (m.load32 o 4).toNat + n)) else none
  seqptr n := if n < (m.load32 o 4).toNat then some (m.load32 o (16 + 4 * n)) else none

theorem mexRead_eq (h0 : msg.size ≠ 0) :
    (mexRead (K := K) o buf (some msg)).1 =
      some (mexFrame K o (zmqRecv buf bufferLength msg)) := by
  simp only [mexRead, if_neg h0, mexFrame, sizeofUint32, Nat.mul_add]

theorem mexOnlyMessage_of_covered (hc : MexCovered o buf msg) : MexOnlyMessage K o buf msg := by
  by_cases h0 : msg.size = 0
  · exact .inl (by simp only [mexRead, if_pos h0])
  obtain ⟨h12, hcov⟩ := hc.resolve_left h0
  refine .inr fun buf' msg' hsame => ?_
  rw [mexRead_eq h0, mexRead_eq (hsame.size ▸ h0)]
  have hbuf : ∀ i < min msg.size bufferLength,
      zmqRecv buf' bufferLength msg' i = zmqRecv buf bufferLength msg i :=
    fun i hi => zmqRecv_congr hsame buf' hi
  generalize zmqRecv buf' bufferLength msg' = m' at hbuf
  generalize zmqRecv buf bufferLength msg = m at hbuf hcov
  have hword : ∀ a, a + 4 ≤ min msg.size bufferLength → m'.load32 o a = m.load32 o a :=
    fun a ha => Mem.load32_congr fun i hi => hbuf _ (by omega)
  have hgseq := hword 0 (by omega)
  have hN := hword 4 (by omega)
  have hL := hword 8 (by omega)
  congr 1
  simp only [mexFrame, hgseq, hN, hL, MexFrame.mk.injEq, true_and]
  refine ⟨funext fun n => ?_, funext fun n => ?_⟩ <;> split
  · rename_i hlt
    have hc0 : (m.load32 o 4).toNat ≠ 0 := fun h0 => by simp [h0, u32] at hlt
    rw [scaled, scaled, hbuf _ (by have := hcov.resolve_left hc0; omega)]
  · rfl
  · rw [hword _ (by have := hcov.resolve_left (by omega); omega)]
  · rfl

theorem load32_flip_ne (m : Mem) {a w i : Nat} (ha : a = w + i) (hi : i < 4) :
    (m.flip a).load32 o w ≠ m.load32 o w := by
  subst ha
  exact fun heq => Mem.flip_self (Mem.load32_inj heq i hi)

/-- Every byte of the first three words of the header is used. -/
theorem mexFrame_flip_of_lt (m : Mem) {a : Nat} (ha : a < 12) :
    mexFrame K o (m.flip a) ≠ mexFrame K o m := by
  intro heq
  have hgseq : (m.flip a).load32 o 0 = m.load32 o 0 := congrArg MexFrame.gseq heq
  have hN : (m.flip a).load32 o 4 = m.load32 o 4 :=
    UInt32.toNat_inj.mp (congrArg MexFrame.c heq)
  have hL : (m.flip a).load32 o 8 = m.load32 o 8 :=
    UInt32.toNat_inj.mp (congrArg MexFrame.r heq)
  rcases Nat.lt_or_ge a 4 with h4 | h4
  · exact load32_flip_ne m (Nat.zero_add a).symm h4 hgseq
  · rcases Nat.lt_or_ge a 8 with h8 | h8
    · exact load32_flip_ne m (show a = 4 + (a - 4) by omega) (by omega) hN
    · exact load32_flip_ne m (show a = 8 + (a - 8) by omega) (by omega) hL

/-- How many values are converted. -/
def mexSamples (o : ByteOrder) (m : Mem) : Nat :=
  u32 (u32 ((m.load32 o 8).toNat * (m.load32 o 4).toNat) <<< 1)

/-- The last byte behind the words is used: it belongs to a sample, or else to a readcount. -/
theorem exists_mexFrame_flip_ne [CharZero K] (m : Mem) {k : Nat} (hc : (m.load32 o 4).toNat ≠ 0)
    (hk : k < 16 + 4 * (m.load32 o 4).toNat + mexSamples o m) :
    ∃ a, k ≤ a ∧ mexFrame K o (m.flip a) ≠ mexFrame K o m := by
  rcases Nat.eq_zero_or_pos (mexSamples o m) with hn0 | hn
  · obtain ⟨c, hc⟩ := Nat.exists_eq_succ_of_ne_zero hc
    refine ⟨16 + 4 * c + 3, by omega, fun heq => ?_⟩
    have hN : (m.flip (16 + 4 * c + 3)).load32 o 4 = m.load32 o 4 :=
      UInt32.toNat_inj.mp (congrArg MexFrame.c heq)
    have hat := congrFun (congrArg MexFrame.seqptr heq) c
    simp only [mexFrame, hN, hc, if_pos (Nat.lt_succ_self c)] at hat
    exact load32_flip_ne m rfl (by decide) (Option.some.inj hat)
  · obtain ⟨n, hn⟩ := Nat.exists_eq_succ_of_ne_zero hn.ne'
    refine ⟨16 + 4 * (m.load32 o 4).toNat + n, by omega, fun heq => ?_⟩
    have hN := UInt32.toNat_inj.mp (congrArg MexFrame.c heq)
    have hL := UInt32.toNat_inj.mp (congrArg MexFrame.r heq)
    have hat := congrFun (congrArg MexFrame.outptr heq) n
    simp only [mexFrame, mexSamples] at hN hL hat hn
    rw [hN, hL, if_pos (by omega), if_pos (by omega)] at hat
    exact Mem.flip_self (scaled_inj (Option.some.inj hat))

theorem mexCovered_of_onlyMessage [CharZero K] (ho : MexOnlyMessage K o buf msg) :
    MexCovered o buf msg := by
  by_contra hnot
  simp only [MexCovered, not_or] at hnot
  obtain ⟨h0, hnot⟩ := hnot
  rw [MexOnlyMessage, mexRead_eq h0] at ho
  -- with another byte in the buffer, behind what the message fills, the frame is the same
  have hsame : ∀ a, min msg.size bufferLength ≤ a →
      mexFrame K o ((zmqRecv buf bufferLength msg).flip a) =
        mexFrame K o (zmqRecv buf bufferLength msg) := by
    intro a ha
    have heq := (ho.resolve_left (by simp)) (buf.flip a) msg ⟨rfl, fun _ _ => rfl⟩
    rw [mexRead_eq h0, zmqRecv_flip ha] at heq
    exact Option.some.inj heq
  generalize zmqRecv buf bufferLength msg = m at hsame hnot
  rcases Nat.lt_or_ge (min msg.size bufferLength) 12 with h12 | h12
  · exact mexFrame_flip_of_lt m h12 (hsame _ le_rfl)
  · obtain ⟨hc, hlt⟩ := not_or.mp fun h => hnot ⟨h12, h⟩
    obtain ⟨a, ha, hne⟩ := exists_mexFrame_flip_ne (K := K) m hc (not_le.mp hlt)
    exact hne (hsame a ha)

/-- No client uses other bytes than those of the message if and only if the message covers what the
sizes, announced or configured, make the client read. -/
theorem onlyMessage_iff [CharZero K] (o : ByteOrder) (buf : Mem) (msg : Message) :
    (∀ d : AegirSDRImpl, d.OnlyMessage K o buf msg ↔ d.Covered o buf msg) ∧
    (∀ h buffs numElems, ReadOnlyMessage K o h buffs numElems msg ↔
      ReadCovered o h buffs numElems msg) ∧
    (MexOnlyMessage K o buf msg ↔ MexCovered o buf msg) :=
  ⟨fun _ => ⟨AegirSDRImpl.covered_of_onlyMessage, AegirSDRImpl.onlyMessage_of_covered⟩,
    fun _ _ _ => ⟨readCovered_of_onlyMessage, readOnlyMessage_of_covered⟩,
    mexCovered_of_onlyMessage, mexOnlyMessage_of_covered⟩

/-- A header that announces one channel of one sample, and nothing behind it. -/
def headerOnly : Message := ⟨16, fun i => if i = 4 ∨ i = 8 then 1 else 0⟩

theorem onlyMessage_iff_headerOnly :
    ¬ AegirSDRImpl.OnlyMessage ℚ ⟨1, 1⟩ .little (fun _ => 0) headerOnly ∧
    ReadOnlyMessage ℚ .little ⟨.cf32, [0]⟩ (fun _ => true) 0 headerOnly ∧
    ¬ MexOnlyMessage ℚ .little (fun _ => 0) headerOnly := by
  obtain ⟨hwork, hread, hmex⟩ := onlyMessage_iff (K := ℚ) .little (fun _ => 0) headerOnly
  refine ⟨mt (hwork ⟨1, 1⟩).mp ?_, (hread _ _ _).mpr (.inr (.inr (.inr (.inl ?_)))), mt hmex.mp ?_⟩
  · unfold AegirSDRImpl.Covered AegirSDRImpl.Rejects
    decide
  · decide
  · unfold MexCovered
    decide

/-- The three clients, on a header that announces one channel of one sample. -/
theorem not_onlyMessage :
    (¬ ∀ (d : AegirSDRImpl) o buf msg, d.OnlyMessage ℚ o buf msg) ∧
    (¬ ∀ o h buffs numElems msg, ReadOnlyMessage ℚ o h buffs numElems msg) ∧
    ¬ ∀ o buf msg, MexOnlyMessage ℚ o buf msg := by
  refine ⟨fun h => absurd (AegirSDRImpl.covered_of_onlyMessage
      (h ⟨1, 1⟩ .little (fun _ => 0) headerOnly)) ?_,
    fun h => ?_,
    fun h => absurd (mexCovered_of_onlyMessage (h .little (fun _ => 0) headerOnly)) ?_⟩
  · unfold AegirSDRImpl.Covered AegirSDRImpl.Rejects
    decide
  · have hc := readCovered_of_onlyMessage
      (h .little ⟨.cf32, [0]⟩ (fun _ => true) 1 headerOnly)
    rcases hc with hc | hc | hc | hc | hc
    · exact absurd hc (by decide)
    · exact absurd hc (by decide)
    · exact absurd hc (by decide)
    · exact absurd hc (by decide)
    · exact absurd (hc 0 0 rfl (by decide) rfl) (by decide)
  · unfold MexCovered
    decide

end Aegir
