import Aegir.Model.Server
import Aegir.Verify.DeliveredBlocks
import Aegir.Verify.ChannelFrames
import Aegir.Verify.Formats
import Aegir.Verify.Quantization

/-!
# From the drivers to the clients

The whole way of a sample: the driver's callback stores its block in the ring, the loop converts it and
writes it into the packet of its iteration, `send` publishes the packet, and a client takes it apart.
The packet of an iteration is what its calls of `write` leave of a buffer (`frame`); no two of them are
for the same channel (`FrameInv`). In every run that does not overrun a ring, the clients show as
channel 0 of the packet number `t` the bytes of the block number `t` of the reference, less 128
(`reference_of_run`), and as the channel of a signal device its own block, turned by a coefficient and
quantized (`signal_of_run`).
-/

namespace Aegir

open TransportConfig

variable {C R F K : Type*} {ndev N : Nat} {o : ByteOrder}

/-! ## The calls of `write` in an iteration -/

/-- The loop has written no other channels than those below the next one. -/
def LoopPc.Below (n : Nat) : LoopPc → Prop
  | .refRead | .refConv | .refQueue | .refWrite => False
  | .refConsume | .syncTest _ => n < 1
  | .dev _ _ c p => n < if p = .debug ∨ p = .consume then c + 1 else c
  | .lag | .notify => True

theorem below_nextDev {b : Bool} {i c n : Nat} (h : n < c) : (nextDev ndev b i c).Below n := by
  unfold nextDev
  split
  · simpa [LoopPc.Below] using h
  · trivial

theorem not_written {p : DevPc} (h : p.correcting = true ∨ p = .write) :
    ¬ (p = .debug ∨ p = .consume) := by
  rintro (rfl | rfl) <;> simp [DevPc.correcting] at h

/-- Two calls of one iteration are for different channels. -/
def Written.Apart (w w' : Written C) : Prop := w.iter = w'.iter → w.channeln ≠ w'.channeln

instance : Std.Symm (Written.Apart (C := C)) := ⟨fun _ _ h ht hc => h ht.symm hc.symm⟩

namespace LoopCore

variable {s s' : LoopCore C}

/-- The calls of an iteration are for different channels. -/
structure FrameInv (s : LoopCore C) : Prop where
  below : ∀ w ∈ s.hist.writes,
    w.iter < s.hist.iter ∨ w.iter = s.hist.iter ∧ s.pc.Below w.channeln
  distinct : s.hist.writes.Pairwise Written.Apart

theorem FrameInv.of_below (hi : FrameInv s) (hw : s'.hist.writes = s.hist.writes)
    (ht : s'.hist.iter = s.hist.iter) (hb : ∀ n, s.pc.Below n → s'.pc.Below n) : FrameInv s' where
  below w hm := by
    rw [ht]
    exact (hi.below w (hw ▸ hm)).imp_right (And.imp_right (hb _))
  distinct := hw ▸ hi.distinct

theorem FrameInv.append {w : Written C} (hi : FrameInv s)
    (hw : s'.hist.writes = s.hist.writes ++ [w]) (ht : s'.hist.iter = s.hist.iter)
    (hit : w.iter = s.hist.iter) (hold : ∀ n, s.pc.Below n → n < w.channeln ∧ s'.pc.Below n)
    (hnew : s'.pc.Below w.channeln) : FrameInv s' where
  below v hv := by
    rw [hw] at hv
    rw [ht]
    rcases List.mem_append.mp hv with hv | hv
    · exact (hi.below v hv).imp_right (And.imp_right fun hb => (hold _ hb).2)
    · rw [List.mem_singleton.mp hv]
      exact .inr ⟨hit, hnew⟩
  distinct := by
    rw [hw]
    refine List.pairwise_append.mpr ⟨hi.distinct, List.pairwise_singleton .., ?_⟩
    intro v hv v' hv' heq
    rw [List.mem_singleton.mp hv'] at heq ⊢
    have hb := (hi.below v hv).resolve_left (by omega)
    exact (hold _ hb.2).1.ne

theorem FrameInv.step {a : CoherentAction} (hi : FrameInv s) (h : CoreStep ndev o a s s') :
    FrameInv s' := by
  cases h with
  | refWrite samples hpc =>
    exact hi.append rfl rfl rfl (fun n hn => by simp [hpc, LoopPc.Below] at hn) Nat.zero_lt_one
  | @write _ b i c samples hpc =>
    refine hi.append rfl rfl rfl (fun n hn => ?_) (by simp [goto, LoopPc.Below])
    have hn : n < c := by simpa [hpc, LoopPc.Below] using hn
    exact ⟨hn, by simpa [goto, LoopPc.Below] using hn.le⟩
  | notify hpc =>
    refine ⟨fun w hw => .inl ?_, hi.distinct⟩
    have hb := hi.below w hw
    simp only [goto, notifysend]
    omega
  | syncEnd b hpc =>
    exact hi.of_below rfl rfl fun n hn => below_nextDev (by simpa [hpc, LoopPc.Below] using hn)
  | notReady hpc =>
    exact hi.of_below rfl rfl fun n hn => below_nextDev (by simpa [hpc, LoopPc.Below] using hn)
  | consume hpc =>
    exact hi.of_below rfl rfl fun n hn => below_nextDev (by simpa [hpc, LoopPc.Below] using hn)
  | @correcting _ b i c p p' hpc hp hp' =>
    have hb := not_written (.inl hp)
    have hb' := not_written hp'
    refine hi.of_below rfl rfl fun n hn => ?_
    have hn : n < c := by simpa [hpc, LoopPc.Below, hb] using hn
    simpa [goto, LoopPc.Below, hb'] using hn
  | refRead hpc | refConv hpc | refQueue hpc =>
    exact hi.of_below rfl rfl fun n hn => by simp [hpc, LoopPc.Below] at hn
  | refConsume hpc | syncNext hpc | read hpc | ready hpc | debug _ hpc =>
    exact hi.of_below rfl rfl fun n hn => by simpa [goto, hpc, LoopPc.Below] using hn
  | lag => exact hi.of_below rfl rfl fun _ _ => trivial
  | swapbuffer | setStreaming => exact hi.of_below rfl rfl fun _ => id
  | quiet => exact hi

end LoopCore

/-! ## The packet of an iteration -/

/-- The call of `write` with the floats of the samples, real and imaginary part in turn. -/
def Written.call (parts : ComplexParts C F) (w : Written C) : WriteCall F where
  channeln := w.channeln
  readcnt := w.readcnt
  inp := parts.floats w.samples

/-- The calls of `write` in the iteration `t`. -/
def frame (parts : ComplexParts C F) (s : LoopCore C) (t : Nat) :
    List (WriteCall F) :=
  (s.hist.writes.filter (·.iter = t)).map (Written.call parts)

section
variable {parts : ComplexParts C F} {s : LoopCore C} {w : Written C}

theorem mem_frame {q : WriteCall F} {t : Nat} :
    q ∈ frame parts s t ↔ ∃ w ∈ s.hist.writes, w.iter = t ∧ w.call parts = q := by
  simp [frame, and_assoc]

/-- Each call is the last one for its channel. -/
theorem LoopCore.FrameInv.lastCall_frame (hi : s.FrameInv) (hw : w ∈ s.hist.writes) :
    lastCall (frame parts s w.iter) w.channeln = some (w.call parts) := by
  have hmem : w.call parts ∈ frame parts s w.iter := mem_frame.mpr ⟨w, hw, rfl, rfl⟩
  unfold lastCall
  obtain ⟨q, hq⟩ : ∃ q, (frame parts s w.iter).reverse.find? (·.channeln = w.channeln) = some q := by
    refine Option.isSome_iff_exists.mp (List.find?_isSome.mpr ⟨w.call parts, ?_, ?_⟩)
    · exact List.mem_reverse.mpr hmem
    · exact decide_eq_true rfl
  have hfound := List.find?_some hq
  have hc : q.channeln = w.channeln := of_decide_eq_true hfound
  obtain ⟨v, hv, ht, rfl⟩ := mem_frame.mp (List.mem_reverse.mp (List.mem_of_find?_eq_some hq))
  have hvw : v = w := by_contra fun hne => hi.distinct.forall hv hw hne ht hc
  rw [hq, hvw]

end

/-! ## What the clients show -/

variable [Field K]

/-- The three clients show the samples `x` and the readcount `rc` as the channel `c` of a message: the
GNU Radio block configured for the sizes of the server, the SoapySDR driver for each stream that has
the channel, and the MATLAB client when the packet fits its buffer. -/
structure Shown (K : Type*) [Field K] (cfg : TransportConfig) (o : ByteOrder) (msg : Message)
    (c : Nat) (rc : UInt32) (x : Nat → Int8) : Prop where
  work : ∀ buf, let d : AegirSDRImpl := ⟨cfg.nchannels.toInt32, (cfg.blocksize >>> 1).toInt32⟩
    ∃ w : AegirSDRImpl.WorkResult K, d.work o buf (some msg) = some w ∧ w.produced = cfg.B / 2 ∧
      ∀ i < cfg.B / 2, w.out c i = some (sampleValue x i)
  readStream : ∀ (h : StreamHandle) (buffs : Nat → Bool) (numElems k : Nat),
    h.channels[k]? = some c → buffs k = true →
    ∃ more out, readStream (K := K) o h buffs numElems (some msg) =
        .ok (min (cfg.B / 2) numElems) more out ∧
      ∀ i < min (cfg.B / 2) numElems, out k i = some (writtenSample x i h.format)
  mex : cfg.packetlen ≤ bufferLength → ∀ buffer,
    ∃ f, (mexRead (K := K) o buffer (some msg)).1 = some f ∧ f.seqptr c = some rc ∧
      ∀ i < cfg.B / 2, f.entry i c = some (sampleValue x i)

section
variable {cfg : TransportConfig} {ff : FloatFormat F} {m : Mem} {msg : Message} {q : UInt32}
  {c : Nat} {rc : UInt32} {x y : Nat → Int8} {calls : List (WriteCall F)}
  {call : WriteCall F}

theorem sampleValue_congr {i : Nat} (hxy : ∀ j < cfg.B, x j = y j) (hi : i < cfg.B / 2) :
    (sampleValue x i : K × K) = sampleValue y i := by
  simp only [sampleValue, hxy (2 * i) (by omega), hxy (2 * i + 1) (by omega)]

theorem writtenSample_congr {i : Nat} (hxy : ∀ j < cfg.B, x j = y j) (hi : i < cfg.B / 2)
    (fmt : StreamFormat) : (writtenSample x i fmt : StreamSample K) = writtenSample y i fmt := by
  cases fmt with
  | cf32 => simp only [writtenSample, sampleValue_congr hxy hi]
  | cs8 => simp only [writtenSample, hxy (2 * i) (by omega), hxy (2 * i + 1) (by omega)]

/-- A message that is a packet shows its channels. -/
theorem Encodes.shown {r : Nat → UInt32} {s : Nat → Nat → Int8} (he : Encodes cfg o q r s msg.data)
    (heven : 2 ∣ cfg.B) (hf : cfg.Fits) (hB : cfg.B ≠ 0)
    (hsize : 16 + 4 * cfg.N + cfg.N * cfg.B ≤ msg.size) (hmex : msg.size = cfg.packetlen)
    (hc : c < cfg.N) : Shown K cfg o msg c (r c) (s c) where
  work buf := by
    obtain ⟨w, hw, hprod, hout⟩ := he.work (K := K) heven (d := ⟨_, _⟩) rfl rfl hf hsize buf
    exact ⟨w, hw, hprod, hout c hc⟩
  readStream h buffs numElems k hk hbuf := by
    have hlong : Aegir.readStream (K := K) o h buffs numElems (some msg) = _ :=
      readStream_of_long (by omega) (he.toNat_N ▸ by omega) (he.toNat_L ▸ by omega)
    simp only [he.toNat_N, he.toNat_L] at hlong
    refine ⟨_, _, hlong, fun i hi => ?_⟩
    rw [readSamples_of_lt hk hc hbuf hi]
    exact congrArg some (he.streamSample heven hc (by omega) h.format)
  mex hcap buffer := by
    obtain ⟨f, hread, -, -, -, hentry, hseq⟩ := he.mexRead (K := K) heven hf hsize (hmex ▸ hcap) buffer
    exact ⟨f, hread, hseq c hc, hentry c hc⟩

theorem Shown.congr (h : Shown K cfg o msg c rc x) (hxy : ∀ j < cfg.B, x j = y j) :
    Shown K cfg o msg c rc y where
  work buf := by
    obtain ⟨w, hw, hprod, hout⟩ := h.work buf
    exact ⟨w, hw, hprod, fun i hi => (hout i hi).trans (congrArg some (sampleValue_congr hxy hi))⟩
  readStream h' buffs numElems k hk hbuf := by
    obtain ⟨more, out, hread, hout⟩ := h.readStream h' buffs numElems k hk hbuf
    refine ⟨more, out, hread, fun i hi => ?_⟩
    exact (hout i hi).trans (congrArg some (writtenSample_congr hxy (by omega) _))
  mex hcap buffer := by
    obtain ⟨f, hread, hseq, hentry⟩ := h.mex hcap buffer
    exact ⟨f, hread, hseq, fun i hi =>
      (hentry i hi).trans (congrArg some (sampleValue_congr hxy hi))⟩

/-- In the int8 format there is nothing to transpose. -/
theorem writes_of_int8 (h8 : cfg.f32bit = false) :
    cfg.writes o ff m calls =
      ({ cfg with rowmajor := false } : TransportConfig).writes o ff m calls := by
  have hwrite : ∀ (m : Mem) (call : WriteCall F),
      cfg.write o ff m call.channeln call.readcnt call.inp =
        ({ cfg with rowmajor := false } : TransportConfig).write o ff m call.channeln call.readcnt
          call.inp := fun m call => by
    simp only [TransportConfig.write, h8, Bool.false_eq_true, if_false]
    rfl
  simp only [TransportConfig.writes, hwrite]

theorem hasCall_of_int8 (h8 : cfg.f32bit = false) (hf : cfg.Fits)
    (hcalls : ∀ q ∈ calls, q.channeln < cfg.N) (hc : c < cfg.N)
    (hcall : lastCall calls c = some call) :
    HasCall cfg o ff (cfg.writes o ff m calls) c call := by
  have hf' : ({ cfg with rowmajor := false } : TransportConfig).NoOverflow := hf.noOverflow
  rw [writes_of_int8 h8]
  have h : HasCall { cfg with rowmajor := false } o ff
      (({ cfg with rowmajor := false } : TransportConfig).writes o ff m calls) c call :=
    hasCall_writes hf' rfl hcalls hc hcall
  exact ⟨h.readcnt, h.sample⟩

/-- A message with header shows a channel as the call of `write` has stored it. -/
theorem shown_of_hasCall (h8 : cfg.f32bit = false) (hn : cfg.noheader = false) (hf : cfg.Fits)
    (heven : 2 ∣ cfg.B) (hB : cfg.B ≠ 0) (hsize : msg.size = cfg.packetlen)
    (hhdr : readHdr0 o msg.data = cfg.hdr0 q) (hhas : HasCall cfg o ff msg.data c call)
    (hc : c < cfg.N) : Shown K cfg o msg c call.readcnt fun i => ff.convert8i (call.inp i) := by
  have hlen := packetlen_of_int8 h8 hn hf
  have hle : cfg.N * cfg.B ≤ 2 * cfg.N * cfg.B := by rw [Nat.mul_assoc]; omega
  have he : Encodes cfg o q (fun c => msg.data.load32 o (16 + 4 * c))
      (fun c i => (msg.data (16 + 4 * cfg.N + c * cfg.B + i)).toInt8) msg.data :=
    ⟨hhdr, fun _ _ => rfl, fun _ _ _ _ => by simp⟩
  rw [← hhas.readcnt hn]
  refine (he.shown (K := K) heven hf hB (by omega) hsize hc).congr fun j hj => ?_
  have hloc := sampleLoc_add_of_int8 h8 hn c j
  have hbytes : cfg.sampleBytes = cfg.B := by simp [sampleBytes, h8]
  have hstored := hhas.sample j (hbytes ▸ hj)
  rw [← hloc, hstored]
  simp [sampleByte, h8]

/-- A message with header shows each channel as its last call of `write` has stored it. -/
theorem shown_of_lastCall (h8 : cfg.f32bit = false) (hn : cfg.noheader = false) (hf : cfg.Fits)
    (heven : 2 ∣ cfg.B) (hB : cfg.B ≠ 0) (hcalls : ∀ q ∈ calls, q.channeln < cfg.N)
    (hmsg : msg.Carries (cfg.message (cfg.fillHeader o (cfg.writes o ff m calls) q)))
    (hc : c < cfg.N) (hcall : lastCall calls c = some call) :
    Shown K cfg o msg c call.readcnt fun i => ff.convert8i (call.inp i) := by
  have hhas : HasCall cfg o ff (cfg.writes o ff m calls) c call :=
    hasCall_of_int8 h8 hf hcalls hc hcall
  have hlen := packetlen_of_int8 h8 hn hf
  refine shown_of_hasCall h8 hn hf heven hB hmsg.size_eq (q := q) ?_ (hhas.congr fun i hi => ?_) hc
  · rw [readHdr0_congr fun i hi => hmsg.byte (by omega)]
    exact readHdr0_fillHeader
  · rw [hmsg.byte (hi.lt_packetlen hf.noOverflow hc), fillHeader_of_ge (le_of_stores hn hi)]

end

/-! ## Runs -/

/-- `re` and `im` take the samples of `convtofloat` apart. -/
def ComplexParts.Exact [Field C] (parts : ComplexParts C K) (cf : ComplexFloat C) : Prop :=
  ∀ a b : ℤ, parts.re (a / 127.0 + cf.I * (b / 127.0)) = a / 127.0 ∧
    parts.im (a / 127.0 + cf.I * (b / 127.0)) = b / 127.0

namespace CoherentState

variable [Field C] [Star C] [Field R] [DecidableEq R] {cfg : CoherentConfig C R} {noise : Bool}
  {r₀ : Correction C} {tr : List CoherentAction} {p : CoherentState C R × Reception C}

theorem run_of_observed {ok : CoherentState C R × Reception C → CoherentAction → Prop}
    {p₀ p : CoherentState C R × Reception C}
    (h : Run (observed (CoherentState.step cfg) Reception.observe) ok p₀ tr p) :
    Run (CoherentState.step cfg) anyStep p₀.1 tr p.1 := by
  have hrun : Run (observed (CoherentState.step cfg) Reception.observe)
      (fun p a => anyStep p.1 a) p₀ tr p := h.mono fun _ _ _ => trivial
  exact hrun.of_observed

/-- What holds of the frames in every run that does not overrun a ring. -/
structure PacketInv (N : Nat) (cfg : CoherentConfig C R) (p : CoherentState C R × Reception C) :
    Prop where
  received : ReceptionInv N cfg p.1 p.2.deliveries
  order : LoopCore.OrderInv p.1.toLoopCore
  frames : LoopCore.FrameInv p.1.toLoopCore
  refHeld : RefHeld cfg p.1 p.2.deliveries
  refWritten : RefWritten cfg p.1 p.2.deliveries

theorem PacketInv.of_run (hN : RingSize cfg.asyncbufn N) (hsize : BlockSize cfg.blocksize)
    (h : Run (observed (CoherentState.step cfg) Reception.observe)
      (fun p a => LoopCore.NoOverrun cfg.ndev N p.1.toLoopCore a)
      (init cfg noise, ⟨fun _ => [], r₀⟩) tr p) : PacketInv N cfg p := by
  refine h.invariant (I := PacketInv N cfg) ?_ fun p a p' hi hok hs => ?_
  · exact
      { received := .init hN
        order := fun k => by simp [LoopCore.writesOf, init, LoopPc.hasWritten]
        frames := ⟨fun _ h => by simp [init] at h, .nil⟩
        refHeld := fun h => by simp [init] at h
        refWritten := fun _ h => by simp [init] at h }
  · obtain ⟨hs, hrec⟩ := observed_eq_some.mp hs
    rw [← Prod.mk.eta (p := p'), hrec]
    exact
      { received := hi.received.step hsize hok hs
        order := hi.order.step (step_core hs)
        frames := hi.frames.step (step_core hs)
        refHeld := hi.refHeld.step hi.received hs
        refWritten := hi.refWritten.step hi.refHeld hi.received hs }

omit [Star C] [Field R] [DecidableEq R] in
/-- Every iteration that is over has written its block of the reference. -/
theorem PacketInv.exists_ref (hi : PacketInv N cfg p) {t : Nat} (ht : t < p.1.hist.iter) :
    ∃ w ∈ p.1.hist.writes, w.dev = 0 ∧ w.iter = t ∧ w.block = t := by
  have hblocks := hi.received.blocks
  obtain ⟨-, hbal⟩ := hblocks.views 0 (Nat.zero_le _)
  have hskip := hblocks.ref
  simp only [LoopCore.view] at hbal
  have hmem : t ∈ (p.1.writesOf 0).map (·.block) := by
    rw [hi.order 0, List.mem_range]
    omega
  obtain ⟨w, hw, hblock⟩ := List.mem_map.mp hmem
  obtain ⟨hw, hdev⟩ := List.mem_filter.mp hw
  have hdev : w.dev = 0 := of_decide_eq_true hdev
  have hinv := hblocks.writes w hw
  have hiter := hinv.iter
  have hzero := hinv.ref hdev
  exact ⟨w, hw, hdev, by omega, hblock⟩

omit [Star C] [Field R] [DecidableEq R] in
theorem PacketInv.readcnt (hi : PacketInv N cfg p) {w : Written C} (hw : w ∈ p.1.hist.writes) :
    w.readcnt = .ofNat w.block := by
  have hinv := hi.received.blocks.writes w hw
  have hiter := hinv.iter
  rw [hinv.readcnt_eq (hi.received.room.writes w hw)]
  congr 1
  omega

/-- The server packs the samples of the loop: the same block size, a channel for each device, the int8
format with header, and sizes that fit. -/
structure Packs (tcfg : TransportConfig) (cfg : CoherentConfig C R) : Prop where
  blocksize : tcfg.blocksize = cfg.blocksize
  pos : 0 < cfg.blocksize.toNat
  channels : cfg.ndev < tcfg.N
  int8 : tcfg.f32bit = false
  header : tcfg.noheader = false
  fits : tcfg.Fits

variable {tcfg : TransportConfig} {parts : ComplexParts C F} {ff : FloatFormat F} {m : Mem}
  {q : UInt32} {msg : Message} {t : Nat} {s₀ : CoherentState C R}

theorem channeln_le (hrun : Run (CoherentState.step cfg) anyStep s₀ tr p.1) (h₀ : AtStart s₀)
    {w : Written C} (hw : w ∈ p.1.hist.writes) : w.channeln ≤ w.dev := by
  rw [((channelInv_of_run h₀ hrun).1.writes w hw).channel]
  exact channelOf_le

/-- A call of `write` in an iteration that is over is shown by the clients. -/
theorem PacketInv.shown (hi : PacketInv N cfg p)
    (hrun : Run (CoherentState.step cfg) anyStep s₀ tr p.1) (h₀ : AtStart s₀)
    (hsize : BlockSize cfg.blocksize) (hp : Packs tcfg cfg)
    (hmsg : msg.Carries (tcfg.message (tcfg.fillHeader o
      (tcfg.writes o ff m (frame parts p.1.toLoopCore t)) q)))
    {w : Written C} (hw : w ∈ p.1.hist.writes) (ht : w.iter = t) :
    Shown K tcfg o msg w.channeln (.ofNat w.block) fun i => ff.convert8i ((w.call parts).inp i) := by
  subst ht
  have hB : tcfg.B = cfg.blocksize.toNat := congrArg UInt32.toNat hp.blocksize
  have hwords := hsize.words
  have hpos := hp.pos
  have hlt : ∀ v ∈ p.1.hist.writes, v.channeln < tcfg.N := fun v hv => by
    have hle := channeln_le hrun h₀ hv
    have hdev := (hi.received.blocks.writes v hv).dev_le
    have hch := hp.channels
    omega
  have hcalls : ∀ q ∈ frame parts p.1.toLoopCore w.iter, q.channeln < tcfg.N := fun q hq => by
    obtain ⟨v, hv, -, rfl⟩ := mem_frame.mp hq
    exact hlt v hv
  rw [← hi.readcnt hw]
  exact shown_of_lastCall hp.int8 hp.header hp.fits (by omega) (by omega) hcalls hmsg (hlt w hw)
    (hi.frames.lastCall_frame hw)

variable [LinearOrder K] [IsStrictOrderedRing K] {ff : FloatFormat K} {parts : ComplexParts C K}

omit [Star C] [Field R] [DecidableEq R] in
/-- The floats of a block of the reference are quantized to its bytes. -/
theorem convert8i_sample (hff : ff.RoundsAndClamps) (hparts : parts.Exact cfg.cf) {b : Mem}
    {x : Nat → C} {n : Nat} (hx : ∀ j < n >>> 1, x j = Csdrdevice.sample cfg.cf b j) {i : Nat}
    (hi : i < n) (heven : 2 ∣ n) :
    ff.convert8i (if i % 2 = 0 then parts.re (x (i / 2)) else parts.im (x (i / 2))) =
      (b i).toInt8 := by
  have hj : i / 2 < n >>> 1 := by
    rw [Nat.shiftRight_eq_div_pow, pow_one]
    omega
  obtain ⟨hre, him⟩ := hparts (b (2 * (i / 2))).toInt8.toInt (b (2 * (i / 2) + 1)).toInt8.toInt
  rw [hx _ hj, Csdrdevice.sample]
  split
  next h => rw [hre, hff.convert8i_div, show 2 * (i / 2) = i by omega]
  next h => rw [him, hff.convert8i_div, show 2 * (i / 2) + 1 = i by omega]

omit [Star C] [Field R] [DecidableEq R] in
/-- What is written of a block of the reference are its bytes, less 128. -/
theorem PacketInv.reference (hi : PacketInv N cfg p) (hsize : BlockSize cfg.blocksize)
    (hff : ff.RoundsAndClamps) (hparts : parts.Exact cfg.cf) {w : Written C}
    (hw : w ∈ p.1.hist.writes) (hdev : w.dev = 0) :
    ∃ b, (p.2.deliveries 0)[w.block]? = some b ∧ ∃ x : Nat → Int8,
      (∀ i < cfg.blocksize.toNat, (x i).toInt = ((b.2 i).toNat : ℤ) - 128) ∧
      ∀ i < cfg.blocksize.toNat, ff.convert8i (parts.floats w.samples i) = x i := by
  obtain ⟨hlt, hsamples⟩ := hi.refWritten w hw hdev
  have hwords := hsize.words
  refine ⟨(p.2.deliveries 0)[w.block], List.getElem?_eq_getElem hlt,
    fun i => (signed (p.2.deliveries.block 0 w.block) i).toInt8, fun i hi => ?_, fun i hi => ?_⟩
  · simp only [signed, toInt_xor_sign, Deliveries.block, List.getD_eq_getElem _ _ hlt]
  · exact convert8i_sample hff hparts hsamples hi (by omega)

/-- In every run in which no ring is overrun, and for every packet made of the calls of `write` in an
iteration `t` that is over, over any earlier contents of the buffer: the clients show as channel 0 the
bytes of the block number `t` of the reference, less 128, with the readcount `t`. -/
theorem reference_of_run (hN : RingSize cfg.asyncbufn N) (hsize : BlockSize cfg.blocksize)
    (hp : Packs tcfg cfg) (hff : ff.RoundsAndClamps) (hparts : parts.Exact cfg.cf)
    (h : Run (observed (CoherentState.step cfg) Reception.observe)
      (fun p a => LoopCore.NoOverrun cfg.ndev N p.1.toLoopCore a)
      (init cfg noise, ⟨fun _ => [], r₀⟩) tr p) (ht : t < p.1.hist.iter)
    (hmsg : msg.Carries (tcfg.message (tcfg.fillHeader o
      (tcfg.writes o ff m (frame parts p.1.toLoopCore t)) q))) :
    ∃ b, (p.2.deliveries 0)[t]? = some b ∧ ∃ x : Nat → Int8,
      (∀ i < tcfg.B, (x i).toInt = ((b.2 i).toNat : ℤ) - 128) ∧
      Shown K tcfg o msg 0 (.ofNat t) x := by
  have hi : PacketInv N cfg p := .of_run hN hsize h
  have hrun : Run (CoherentState.step cfg) anyStep (init cfg noise) tr p.1 := run_of_observed h
  obtain ⟨w, hw, hdev, hiter, hblock⟩ := hi.exists_ref ht
  have h₀ : AtStart (init cfg noise) := ⟨rfl, rfl, rfl⟩
  have hchannel : w.channeln = 0 := Nat.le_zero.mp (hdev ▸ channeln_le hrun h₀ hw)
  have hshown : Shown K tcfg o msg w.channeln (.ofNat w.block) _ :=
    hi.shown hrun h₀ hsize hp hmsg hw hiter
  obtain ⟨b, hb, x, hx, hquant⟩ := hi.reference hsize hff hparts hw hdev
  have hB : tcfg.B = cfg.blocksize.toNat := congrArg UInt32.toNat hp.blocksize
  rw [hblock] at hb
  rw [hchannel, hblock] at hshown
  exact ⟨b, hb, x, fun i hi => hx i (hB ▸ hi), hshown.congr fun i hi => hquant i (hB ▸ hi)⟩

/-- No ring is overrun, and `phase` keeps the samples that the loop has in hand. -/
def Undisturbed (N : Nat) (cfg : CoherentConfig C R) (p : CoherentState C R × Reception C)
    (a : CoherentAction) : Prop :=
  LoopCore.NoOverrun cfg.ndev N p.1.toLoopCore a ∧ KeepsSamples (p.1, p.2.correction) a

omit [LinearOrder K] [IsStrictOrderedRing K] [Field K] in
theorem signalWritten_of_run (hN : RingSize cfg.asyncbufn N) (hsize : BlockSize cfg.blocksize)
    (h : Run (observed (CoherentState.step cfg) Reception.observe) (Undisturbed N cfg)
      (init cfg noise, ⟨fun _ => [], r₀⟩) tr p) : SignalWritten cfg p.1 p.2.deliveries := by
  have hi : ReceptionInv N cfg p.1 p.2.deliveries ∧ SignalHeld cfg p.1 p.2 ∧
      SignalWritten cfg p.1 p.2.deliveries := by
    refine h.invariant (I := fun p => ReceptionInv N cfg p.1 p.2.deliveries ∧
      SignalHeld cfg p.1 p.2 ∧ SignalWritten cfg p.1 p.2.deliveries) ?_ fun p a p' hi hok hs => ?_
    · exact ⟨.init hN, ⟨trivial, fun _ _ _ _ h => by cases h⟩, fun _ h => by simp [init] at h⟩
    · obtain ⟨hs, hrec⟩ := observed_eq_some.mp hs
      obtain ⟨hr, hheld, hwritten⟩ := hi
      rw [← Prod.mk.eta (p := p'), hrec]
      exact ⟨hr.step hsize hok.1 hs, hheld.step hr hok.2 hs, hwritten.step hheld hr hs⟩
  exact hi.2.2

omit [LinearOrder K] [IsStrictOrderedRing K] in
/-- In every run in which no ring is overrun and `phase` does not touch samples that the loop has in
hand, and for every packet made of the calls of an iteration: a signal device that was written in it is
shown as its channel, with the number of its block as readcount. Its samples are those of the block that
its driver has delivered as that number, each times one coefficient, quantized. -/
theorem signal_of_run {parts : ComplexParts C F} {ff : FloatFormat F}
    (hN : RingSize cfg.asyncbufn N) (hsize : BlockSize cfg.blocksize) (hp : Packs tcfg cfg)
    (h : Run (observed (CoherentState.step cfg) Reception.observe) (Undisturbed N cfg)
      (init cfg noise, ⟨fun _ => [], r₀⟩) tr p) {w : Written C} (hw : w ∈ p.1.hist.writes)
    (hdev : w.dev ≠ 0)
    (hmsg : msg.Carries (tcfg.message (tcfg.fillHeader o
      (tcfg.writes o ff m (frame parts p.1.toLoopCore w.iter)) q))) :
    ∃ b, (p.2.deliveries w.dev)[w.block]? = some b ∧
      (∃ z : C, ∀ j < tcfg.B / 2, w.samples j = z * Csdrdevice.sample cfg.cf (signed b.2) j) ∧
      Shown K tcfg o msg w.channeln (.ofNat w.block) fun i => ff.convert8i ((w.call parts).inp i) := by
  have hrun : Run (observed (CoherentState.step cfg) Reception.observe)
      (fun p a => LoopCore.NoOverrun cfg.ndev N p.1.toLoopCore a)
      (init cfg noise, ⟨fun _ => [], r₀⟩) tr p := h.mono fun _ _ hok => hok.1
  have hi : PacketInv N cfg p := .of_run hN hsize hrun
  obtain ⟨hlt, z, hz⟩ := signalWritten_of_run hN hsize h w hw hdev
  refine ⟨(p.2.deliveries w.dev)[w.block], List.getElem?_eq_getElem hlt, ⟨z, fun j hj => ?_⟩,
    hi.shown (run_of_observed h) ⟨rfl, rfl, rfl⟩ hsize hp hmsg hw rfl⟩
  have hB : tcfg.B = cfg.blocksize.toNat := congrArg UInt32.toNat hp.blocksize
  rw [hz j (by rw [Nat.shiftRight_eq_div_pow, pow_one, ← hB]; exact hj), Deliveries.block,
    List.getD_eq_getElem _ _ hlt]

/-! ### Two iterations of a receiver with one signal device -/

/-- A receiver with complex samples. Its lags play no part. -/
noncomputable def complexReceiver : CoherentConfig ℂ ℚ where
  ndev := 1
  nfft := 8
  blocksize := 8
  asyncbufn := 2
  order := .little
  cf := ⟨Complex.I, fun z => ‖z‖⟩
  kernels := ⟨fun _ => id, fun _ => id, fun _ => 0, fun _ _ => 0, id⟩
  planned := ⟨0, 0, 0, 0, 0⟩

/-- Two channels of four complex samples. -/
def twoDevices : TransportConfig := ⟨false, false, false, 2, 8⟩

theorem packs_complexReceiver : Packs twoDevices complexReceiver where
  blocksize := rfl
  pos := by decide
  channels := by decide
  int8 := rfl
  header := rfl
  fits := by unfold Fits; decide

theorem exact_complexReceiver :
    (ComplexParts.mk Complex.re Complex.im).Exact complexReceiver.cf := by
  intro a b
  have hreal : ∀ n : ℤ, (n : ℂ) / 127.0 = ((n / 127.0 : ℝ) : ℂ) := fun n => by
    push_cast
    norm_num
  rw [hreal a, hreal b, show complexReceiver.cf.I = Complex.I from rfl]
  constructor
  · dsimp only
    rw [Complex.add_re, Complex.I_mul_re, Complex.ofReal_re, Complex.ofReal_im, neg_zero, add_zero]
  · dsimp only
    rw [Complex.add_im, Complex.I_mul_im, Complex.ofReal_im, Complex.ofReal_re, zero_add]

/-- Each driver fills its ring, then the loop runs. -/
def filledRings : List CoherentAction :=
  [.swapbuffer 0 onesBlock, .swapbuffer 1 minusOnesBlock, .swapbuffer 0 minusOnesBlock,
   .swapbuffer 1 onesBlock] ++ List.replicate 37 .loop

/-- The record before anything has been delivered. -/
def emptyReception : Reception ℂ := ⟨fun _ => [], ⟨fun _ => 0, 0⟩⟩

/-- The packet of an iteration, over a buffer of zeros. -/
noncomputable def packet (s : LoopCore ℂ) (t : Nat) : Mem :=
  twoDevices.fillHeader .little (twoDevices.writes .little (towardsZero ℝ) (fun _ => 0)
    (frame ⟨Complex.re, Complex.im⟩ s t)) 7

theorem reference_of_run_filledRings :
    ∃ p : CoherentState ℂ ℚ × Reception ℂ,
      Run (observed (CoherentState.step complexReceiver) Reception.observe)
        (fun p a => LoopCore.NoOverrun 1 2 p.1.toLoopCore a)
        (init complexReceiver true, emptyReception) filledRings p ∧ p.1.hist.iter = 2 ∧
      ∃ b, (p.2.deliveries 0)[1]? = some b ∧ ∃ x : Nat → Int8,
        (∀ i < twoDevices.B, (x i).toInt = ((b.2 i).toNat : ℤ) - 128) ∧
        Shown ℝ twoDevices .little ⟨twoDevices.packetlen, packet p.1.toLoopCore 1⟩ 0 1 x := by
  obtain ⟨p, hrun, hp⟩ := Run.exists_of_exec
    (observed (CoherentState.step complexReceiver) Reception.observe)
    (fun p a => LoopCore.NoOverrun 1 2 p.1.toLoopCore a) (init complexReceiver true, emptyReception)
    filledRings (fun p => p.1.hist.iter = 2) (by decide +kernel)
  have hiter : p.1.hist.iter = 2 := of_decide_eq_true hp
  refine ⟨p, hrun, hiter, ?_⟩
  exact reference_of_run ringSize_two ⟨by decide, by decide⟩ packs_complexReceiver
    towardsZero_roundsAndClamps exact_complexReceiver hrun (by omega)
    (carries_message rfl fun _ _ => rfl)

theorem signal_of_run_filledRings :
    ∃ p : CoherentState ℂ ℚ × Reception ℂ,
      Run (observed (CoherentState.step complexReceiver) Reception.observe)
        (Undisturbed 2 complexReceiver) (init complexReceiver true, emptyReception) filledRings p ∧
      ∃ w ∈ p.1.hist.writes, w.dev = 1 ∧ ∃ b, (p.2.deliveries w.dev)[w.block]? = some b ∧
        (∃ z : ℂ, ∀ j < twoDevices.B / 2,
          w.samples j = z * Csdrdevice.sample complexReceiver.cf (signed b.2) j) ∧
        Shown ℝ twoDevices .little ⟨twoDevices.packetlen, packet p.1.toLoopCore w.iter⟩
          w.channeln (.ofNat w.block) fun i =>
            (towardsZero ℝ).convert8i ((w.call ⟨Complex.re, Complex.im⟩).inp i) := by
  obtain ⟨p, hrun, hp⟩ := Run.exists_of_exec
    (observed (CoherentState.step complexReceiver) Reception.observe)
    (fun p a => LoopCore.NoOverrun 1 2 p.1.toLoopCore a ∧ a.converts = false)
    (init complexReceiver true, emptyReception)
    filledRings (fun p => p.1.hist.writes.any (·.dev = 1)) (by decide +kernel)
  have hrun : Run _ (Undisturbed 2 complexReceiver) _ _ p :=
    hrun.mono fun _ _ hok => ⟨hok.1, .of_not_converts hok.2⟩
  obtain ⟨w, hw, hdev⟩ := List.any_eq_true.mp hp
  have hdev : w.dev = 1 := of_decide_eq_true hdev
  refine ⟨p, hrun, w, hw, hdev, ?_⟩
  exact signal_of_run ringSize_two ⟨by decide, by decide⟩ packs_complexReceiver hrun hw (by omega)
    (carries_message rfl fun _ _ => rfl)

end CoherentState

end Aegir
