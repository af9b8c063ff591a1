import Aegir.Verify.CrossCorrelation
import Aegir.Verify.ServedRequests

/-!
# Which lag each device gets

The queue has no names for its places: the slot of the buffers, the entry of the queue and the device
are related by the order of the `queuelag` calls only. A record of the iteration has the devices that
ask for a lag and the samples that each of them and the reference has when the loop comes to
`queuelag`. Whatever the slots hold from before, `set_lag` is called once for each of the first
`nfft - 1` devices that ask, in their order, with the lag that is computed from the samples of the
device and the reference alone (`delivered_of_run`).
-/

namespace Aegir

variable {C R : Type*}

/-! ## The lag of two blocks -/

/-- A plan and the search for the maximum depend on the elements of the block only, and the maximum is
in the block. -/
structure LagKernels.Local (ker : LagKernels C R) (n : Nat) : Prop where
  forward : ∀ a b, (∀ i < n, a i = b i) → ∀ f < n, ker.forward n a f = ker.forward n b f
  backward : ∀ a b, (∀ i < n, a i = b i) → ∀ f < n, ker.backward n a f = ker.backward n b f
  indexMax : ∀ a b, (∀ i < n, a i = b i) → ker.indexMax a n = ker.indexMax b n
  indexMax_lt : 0 < n → ∀ a, ker.indexMax a n < n

section
variable [Mul C] [Star C]

/-- The squared magnitudes of the correlation of `x` with `r`. -/
def lagSquares (ker : LagKernels C R) (n : Nat) (x r : Nat → C) (i : Nat) : R :=
  ker.magnitudeSquared
    (ker.backward n (fun f => ker.forward n x f * star (ker.forward n r f)) i)

/-- The lag of `x` against `r`. -/
def lagOf [Field R] [DecidableEq R] (ker : LagKernels C R) (n : Nat) (x r : Nat → C) :
    Option (Lagpoint R) := lagpoint ker n (lagSquares ker n x r) 0

end

section
variable {n nfft len k k' : Nat} {ker : LagKernels C R}

/-- A round of the loop over the lags looks at its block only. -/
theorem lagpoint_congr [Field R] [DecidableEq R] (hker : ker.Local n) (hn : 0 < n)
    {a b : Nat → R} (h : ∀ i < n, a (k * n + i) = b (k' * n + i)) :
    lagpoint ker n a k = lagpoint ker n b k' := by
  have hidx : Cdsp.indexofmax ker (advance a (k * n)) n = Cdsp.indexofmax ker (advance b (k' * n)) n :=
    hker.indexMax _ _ h
  have hlt : Cdsp.indexofmax ker (advance b (k' * n)) n < n := hker.indexMax_lt hn _
  simp only [lagpoint, hidx]
  generalize Cdsp.indexofmax ker (advance b (k' * n)) n = idx at hlt
  rw [h idx hlt]
  by_cases hin : 1 < idx ∧ idx < n - 1
  · have hprev : a (k * n + idx - 1) = b (k' * n + idx - 1) := by
      rw [Nat.add_sub_assoc hin.1.le, Nat.add_sub_assoc hin.1.le]
      exact h (idx - 1) (by omega)
    have hnext : a (k * n + idx + 1) = b (k' * n + idx + 1) := h (idx + 1) (by omega)
    rw [hprev, hnext]
  · simp only [if_neg hin]

/-- The lag that is computed in slot `k` is that of the samples in the slots `k` and `0`. -/
theorem lagpoint_transform [Mul C] [Star C] [Field R] [DecidableEq R] (hker : ker.Local n)
    (hn : 0 < n) {b : LagBuffers C R} {x r : Nat → C} (h1 : 1 ≤ k) (hk : k < len) (hlen : len ≤ nfft)
    (hx : ∀ i < n, b.sfloat (k * n + i) = x i) (hr : ∀ i < n, b.sfloat i = r i) :
    lagpoint ker n (b.transform ker n nfft len).smagsqr k = lagOf ker n x r := by
  refine lagpoint_congr hker hn fun i hi => ?_
  rw [LagBuffers.transform_smagsqr h1 (hk.trans_le hlen) hi, Nat.zero_mul, Nat.zero_add, lagSquares]
  obtain ⟨a, ha, hprod⟩ : ∃ a, (b.transform ker n nfft len).sifft (k * n + i) = _ ∧ _ :=
    LagBuffers.transform_sifft h1 hk hlen hi
  rw [ha]
  refine congrArg _ (hker.backward _ _ (fun f hf => ?_) i hi)
  have hblock : ker.forward n (advance b.sfloat (k * n)) f = ker.forward n x f :=
    hker.forward _ x hx f hf
  rw [hprod f hf, hblock, hker.forward _ r hr f hf]

/-- Every access is to elements of the buffers. -/
theorem lagAccesses_le {idx : Nat → Nat} (hlen : len ≤ nfft) (h1 : 1 < len)
    (hidx : ∀ k, idx k < n) :
    ∀ a ∈ lagAccesses n nfft idx len, a.first + a.count ≤ n * nfft := by
  have hblock : ∀ {k}, k < len → k * n + n ≤ n * nfft := fun hk => by
    rw [← Nat.succ_mul, Nat.mul_comm]
    exact Nat.mul_le_mul_left n (hk.trans_le hlen)
  have hone : ∀ {k i}, k < len → i < n → k * n + i + 1 ≤ n * nfft := fun hk hi =>
    (Nat.add_le_add_left hi _).trans (hblock hk)
  have hrest : n + n * (nfft - 1) = n * nfft := by
    rw [Nat.add_comm, ← Nat.mul_succ, Nat.succ_eq_add_one, Nat.sub_add_cancel (by omega)]
  have hfirst : n ≤ n * nfft := by simpa using hblock (k := 0) (by omega)
  have hlt : ∀ {k}, k ∈ List.range' 1 (len - 1) → k < len := fun hk => by
    have := (List.mem_range'_1.mp hk).2
    omega
  have hwhole : 0 + n * nfft ≤ n * nfft := (Nat.zero_add _).le
  have hnone : ∀ a ∈ ([] : List Access), a.first + a.count ≤ n * nfft := nofun
  simp only [lagAccesses, List.forall_mem_append, List.forall_mem_map, List.forall_mem_flatMap,
    List.forall_mem_cons, List.mem_range]
  refine ⟨⟨⟨⟨⟨fun k => hblock, hwhole, hwhole, hnone⟩, fun k hk => ?_⟩, hwhole, hwhole, hnone⟩,
    hrest.le, hrest.le, hnone⟩, fun k hk => ⟨?_, fun a ha => ?_⟩⟩
  · exact ⟨hblock (hlt hk), hblock (hlt hk), (Nat.zero_add n).trans_le hfirst, hnone⟩
  · exact ⟨hblock (hlt hk), hone (hlt hk) (hidx k), hnone⟩
  · split at ha
    next hin =>
      simp only [List.mem_cons, List.not_mem_nil, or_false] at ha
      rcases ha with rfl | rfl
      · exact (by omega : k * n + idx k - 1 + 1 ≤ k * n + idx k + 1).trans (hone (hlt hk) (hidx k))
      · exact hone (hlt hk) (by omega : idx k + 1 < n)
    next => cases ha

end

/-- The buffers have the same elements from `m` on. -/
def LagBuffers.AgreeFrom (m : Nat) (b b' : LagBuffers C R) : Prop :=
  ∀ i, m ≤ i → b'.sfloat i = b.sfloat i ∧ b'.sfft i = b.sfft i ∧ b'.sconv i = b.sconv i ∧
    b'.sifft i = b.sifft i ∧ b'.smagsqr i = b.smagsqr i

theorem Cdsp.fft_of_ge {out inp : Nat → C} {plan : (Nat → C) → Nat → C} {n nfft i : Nat}
    (hi : n * nfft ≤ i) : Cdsp.fft out inp plan n nfft i = out i :=
  overwrite_of_ge ((Nat.zero_add _).trans_le hi)

theorem Cdsp.magsquared_of_ge {ker : LagKernels C R} {out : Nat → R} {inp : Nat → C}
    {start n i : Nat} (hi : start + n ≤ i) : Cdsp.magsquared ker out start inp n i = out i :=
  overwrite_of_ge hi

/-- `computelag` stores nothing behind the buffers. -/
theorem LagBuffers.agreeFrom_transform [Mul C] [Star C] {ker : LagKernels C R} {n nfft len : Nat}
    (h1 : 1 < len) (hlen : len ≤ nfft) (b : LagBuffers C R) :
    AgreeFrom (n * nfft) b (b.transform ker n nfft len) := by
  intro i hi
  have hrest : n + n * (nfft - 1) ≤ i := by
    rw [Nat.add_comm, ← Nat.mul_succ, Nat.succ_eq_add_one, Nat.sub_add_cancel (by omega)]
    exact hi
  refine ⟨rfl, Cdsp.fft_of_ge hi, ?_, Cdsp.fft_of_ge hi, Cdsp.magsquared_of_ge hrest⟩
  refine List.foldlRecOn (motive := fun sconv : Nat → C => sconv i = b.sconv i) _ _ rfl
    fun sconv hsconv k hk => (overwrite_of_ge ?_).trans hsconv
  have hlt : k < nfft := by have := List.mem_range'_1.mp hk; omega
  calc k * n + n = n * (k + 1) := by rw [Nat.mul_comm, Nat.mul_succ]
    _ ≤ n * nfft := Nat.mul_le_mul_left n hlt
    _ ≤ i := hi

theorem two_le_of_lagpoint [Field R] [DecidableEq R] {ker : LagKernels C R} {n k : Nat}
    {a : Nat → R} {p : Lagpoint R} (h : lagpoint ker n a k = some p) : 2 ≤ n := by
  obtain ⟨m, hm, -⟩ := Option.bind_eq_some_iff.mp h
  by_contra hlt
  have hzero : n >>> 1 = 0 := by rw [Nat.shiftRight_one]; omega
  simp [divide, hzero] at hm

/-! ## The record -/

/-- What the current iteration knows of the devices. -/
structure AskRecord (C : Type*) where
  /-- The devices that were found ready with `lagrequested` set. -/
  asks : Nat → Bool
  /-- The block that the samples of a device were last converted from. -/
  block : Nat → Option Mem
  /-- The samples with which a device came to `queuelag`, with the block they were converted from. -/
  queued : Nat → Option (Mem × (Nat → C))

namespace AskRecord

/-- The device `k` comes to `queuelag`. -/
def queue (h : AskRecord C) (k : Nat) (sfloat : Nat → C) : AskRecord C :=
  { h with queued := Function.update h.queued k ((h.block k).map (·, sfloat)) }

/-- The device `k` is converted. -/
def convert (h : AskRecord C) (k : Nat) (block : Mem) : AskRecord C :=
  { h with block := Function.update h.block k (some block) }

/-- What a step adds to the record. An iteration begins with an empty one. -/
def observe (s : CoherentState C R) (a : CoherentAction) (_ : CoherentState C R)
    (h : AskRecord C) : AskRecord C :=
  match a, s.pc with
  | .loop, .refRead => ⟨fun _ => false, fun _ => none, fun _ => none⟩
  | .loop, .refConv => h.convert 0 (s.blockOf 0)
  | .loop, .refQueue => h.queue 0 (s.dsp 0).sfloat
  | .loop, .dev _ i _ .conv => h.convert i (s.blockOf i)
  | .loop, .dev _ i _ .lagtest =>
    { h with asks := Function.update h.asks i (s.dsp i).lagrequested }
  | .loop, .dev _ i _ .queue => h.queue i (s.dsp i).sfloat
  | .cmdphaseConv k, _ => h.convert k (s.blockOf k)
  | _, _ => h

/-- The devices before `i` that ask for a lag, in their order. -/
def asking (h : AskRecord C) (i : Nat) : List Nat := (List.range' 1 (i - 1)).filter h.asks

variable {h h' : AskRecord C} {i k : Nat}

theorem mem_asking : k ∈ h.asking i ↔ (1 ≤ k ∧ k < i) ∧ h.asks k = true := by
  rw [asking, List.mem_filter, List.mem_range'_1]
  refine and_congr_left fun _ => and_congr_right fun _ => ?_
  omega

theorem asking_succ (h1 : 1 ≤ i) :
    h.asking (i + 1) = h.asking i ++ if h.asks i then [i] else [] := by
  have hrange : List.range' 1 (i + 1 - 1) = List.range' 1 (i - 1) ++ [i] := by
    rw [show i + 1 - 1 = (i - 1) + 1 by omega, List.range'_1_concat, show 1 + (i - 1) = i by omega]
  rw [asking, hrange, List.filter_append, List.filter_singleton, cond_eq_ite, ← asking]

theorem asking_congr (heq : ∀ k < i, h'.asks k = h.asks k) : h'.asking i = h.asking i :=
  List.filter_congr fun k hk => heq k (by have := List.mem_range'_1.mp hk; omega)

theorem asking_queue {x : Nat → C} : (h.queue k x).asking i = h.asking i := rfl

theorem queued_queue {x : Nat → C} : (h.queue k x).queued k = (h.block k).map (·, x) :=
  Function.update_self ..

theorem queued_queue_of_ne {x : Nat → C} (hne : i ≠ k) : (h.queue k x).queued i = h.queued i :=
  Function.update_of_ne hne ..

theorem block_convert {block : Mem} : (h.convert k block).block k = some block :=
  Function.update_self ..

theorem block_convert_of_ne {block : Mem} (hne : i ≠ k) : (h.convert k block).block i = h.block i :=
  Function.update_of_ne hne ..

theorem nodup_asking : (h.asking i).Nodup := (List.nodup_range').filter _

end AskRecord

namespace CoherentState

section
variable [Field C] {cfg : CoherentConfig C R} {s s' : CoherentState C R} {h h' : AskRecord C}
  {i j k : Nat}

/-- The samples are the conversion of the block, in the half of the buffer where the device has
them. -/
def IsConversion (cfg : CoherentConfig C R) (k : Nat) (block : Mem) (x : Nat → C) : Prop :=
  ∀ j < cfg.blocksize.toNat >>> 1,
    x (if k = 0 then j + cfg.blocksize.toNat >>> 1 else j) = Csdrdevice.sample cfg.cf block j

/-- The samples of the device have been converted in this iteration. -/
def HasConverted (cfg : CoherentConfig C R) (s : CoherentState C R) (h : AskRecord C) (k : Nat) :
    Prop := ∃ block, h.block k = some block ∧ IsConversion cfg k block (s.dsp k).sfloat

/-- In this iteration the device came to `queuelag` with the samples that are at `j` in the buffer. -/
def HasSlot (cfg : CoherentConfig C R) (s : CoherentState C R) (h : AskRecord C) (j k : Nat) : Prop :=
  ∃ block x, h.queued k = some (block, x) ∧ IsConversion cfg k block x ∧
    ∀ m < cfg.blocksize.toNat, s.buf.sfloat (j * cfg.blocksize.toNat + m) = x m

/-- The queue has the reference and the devices before `i` that ask for a lag, and each of them has its
slot. -/
structure SlotsAsked (cfg : CoherentConfig C R) (s : CoherentState C R) (h : AskRecord C)
    (i : Nat) : Prop where
  queue : s.lagqueue = (0 :: h.asking i).take cfg.nfft
  slots : ∀ j k, s.lagqueue[j]? = some k → HasSlot cfg s h j k

theorem SlotsAsked.of_frame (hi : SlotsAsked cfg s h i) (hl : s'.lagqueue = s.lagqueue)
    (hs : s'.buf.sfloat = s.buf.sfloat) (hasks : ∀ k < i, h'.asks k = h.asks k)
    (hqueued : h'.queued = h.queued) : SlotsAsked cfg s' h' i where
  queue := by rw [hl, hi.queue, AskRecord.asking_congr hasks]
  slots j k hj := by
    have hslot := hi.slots j k (hl ▸ hj)
    rwa [HasSlot, hqueued, hs]

/-- A device that does not ask for a lag. -/
theorem SlotsAsked.skip (hi : SlotsAsked cfg s h i) (h1 : 1 ≤ i) (hask : h.asks i = false) :
    SlotsAsked cfg s h (i + 1) where
  queue := by rw [AskRecord.asking_succ h1, if_neg (by simp [hask]), List.append_nil, hi.queue]
  slots := hi.slots

/-- `queuelag` stores the samples behind those that are in the queue. -/
theorem slots_queuelag (hnot : k ∉ s.lagqueue) (hconv : HasConverted cfg s h k)
    (hslots : ∀ j k, s.lagqueue[j]? = some k → HasSlot cfg s h j k) {x : Nat}
    (hj : (s.queuelag cfg k).lagqueue[j]? = some x) :
    HasSlot cfg (s.queuelag cfg k) (h.queue k (s.dsp k).sfloat) j x := by
  have hold : ∀ {x}, x ∈ s.lagqueue → (h.queue k (s.dsp k).sfloat).queued x = h.queued x :=
    fun hx => AskRecord.queued_queue_of_ne (ne_of_mem_of_not_mem hx hnot)
  unfold queuelag at hj ⊢
  split at hj
  next hfit =>
    rw [if_pos hfit]
    rcases Nat.lt_or_ge j s.lagqueue.length with hlt | hge
    · -- an older block, before the one that is stored now
      rw [List.getElem?_append_left hlt] at hj
      obtain ⟨block, y, hy, hblock, hslot⟩ := hslots j x hj
      refine ⟨block, y, (hold (List.mem_of_getElem? hj)).trans hy, hblock, fun m hm =>
        (overwrite_of_lt ?_).trans (hslot m hm)⟩
      have hend : j * cfg.blocksize.toNat + cfg.blocksize.toNat ≤
          s.lagqueue.length * cfg.blocksize.toNat := by
        rw [← Nat.succ_mul]
        exact Nat.mul_le_mul_right _ hlt
      omega
    · obtain ⟨hz, rfl⟩ : j - s.lagqueue.length = 0 ∧ k = x := by
        simpa [List.getElem?_append_right hge, List.getElem?_singleton] using hj
      obtain rfl : j = s.lagqueue.length := by omega
      obtain ⟨block, hblock, hsamples⟩ := hconv
      refine ⟨block, (s.dsp k).sfloat, ?_, hsamples, fun m hm => overwrite_add hm⟩
      rw [AskRecord.queued_queue, hblock, Option.map_some]
  next hfull =>
    rw [if_neg hfull]
    obtain ⟨block, y, hy, hslot⟩ := hslots j x hj
    exact ⟨block, y, (hold (List.mem_of_getElem? hj)).trans hy, hslot⟩

/-- The next device that asks for a lag comes to `queuelag`. -/
theorem SlotsAsked.queuelag (hi : SlotsAsked cfg s h i) (h1 : 1 ≤ i) (hask : h.asks i = true)
    (hconv : HasConverted cfg s h i) :
    SlotsAsked cfg (s.queuelag cfg i) (h.queue i (s.dsp i).sfloat) (i + 1) where
  queue := by
    have hasking : (h.queue i (s.dsp i).sfloat).asking (i + 1) = h.asking i ++ [i] := by
      rw [AskRecord.asking_queue, AskRecord.asking_succ h1, if_pos hask]
    rw [hasking, ← List.cons_append]
    exact queuelag_lagqueue hi.queue
  slots j k := by
    refine slots_queuelag (fun hmem => ?_) hconv hi.slots
    rw [hi.queue] at hmem
    rcases List.mem_cons.mp (List.mem_of_mem_take hmem) with hzero | hmem
    · omega
    · exact absurd (AskRecord.mem_asking.mp hmem).1.2 (Nat.lt_irrefl i)

end

/-! ## An iteration -/

section
variable [Field C] {cfg : CoherentConfig C R} {s s' : CoherentState C R} {h h' : AskRecord C} {i : Nat}

/-- The devices before `i` have been asked, those from `k` on have not. -/
def AskedTo (cfg : CoherentConfig C R) (s : CoherentState C R) (h : AskRecord C) (i k : Nat) : Prop :=
  SlotsAsked cfg s h i ∧ ∀ j, k ≤ j → h.asks j = false

/-- What the queue and the record say at each place of the loop. Between `is_lagrequested` and
`queuelag` the device asks for a lag and is not in the queue yet. -/
def OrdersAt (cfg : CoherentConfig C R) (s : CoherentState C R) (h : AskRecord C) : LoopPc → Prop
  | .refRead | .notify => True
  | .refConv => s.lagqueue = [] ∧ ∀ k, h.asks k = false
  | .refQueue => (s.lagqueue = [] ∧ ∀ k, h.asks k = false) ∧ HasConverted cfg s h 0
  | .refWrite | .refConsume | .syncTest _ => AskedTo cfg s h 1 1
  | .dev _ i _ p => (1 ≤ i ∧ i ≤ cfg.ndev) ∧ match p with
    | .read | .test | .conv => AskedTo cfg s h i i
    | .lagtest => AskedTo cfg s h i i ∧ HasConverted cfg s h i
    | .queue => AskedTo cfg s h i (i + 1) ∧ HasConverted cfg s h i ∧ h.asks i = true
    | _ => AskedTo cfg s h (i + 1) (i + 1)
  | .lag => SlotsAsked cfg s h (cfg.ndev + 1)

theorem AskedTo.of_frame {k : Nat} (hi : AskedTo cfg s h i k) (hl : s'.lagqueue = s.lagqueue)
    (hs : s'.buf.sfloat = s.buf.sfloat) (hasks : h'.asks = h.asks) (hqueued : h'.queued = h.queued) :
    AskedTo cfg s' h' i k :=
  ⟨hi.1.of_frame hl hs (fun j _ => congrFun hasks j) hqueued,
    fun j hj => (congrFun hasks j).trans (hi.2 j hj)⟩

theorem AskedTo.skip (hi : AskedTo cfg s h i i) (h1 : 1 ≤ i) : AskedTo cfg s h (i + 1) (i + 1) :=
  ⟨hi.1.skip h1 (hi.2 i le_rfl), fun j hj => hi.2 j (i.le_succ.trans hj)⟩

theorem OrdersAt.nextDev {a : Bool} {c : Nat} (h1 : 1 ≤ i) (hle : i ≤ cfg.ndev + 1)
    (hi : AskedTo cfg s h i i) : OrdersAt cfg s h (nextDev cfg.ndev a i c) := by
  unfold Aegir.nextDev
  split
  next hin => exact ⟨⟨h1, hin⟩, hi⟩
  next hout =>
    obtain rfl : i = cfg.ndev + 1 := le_antisymm hle (not_le.mp hout)
    exact hi.1

/-- A step that changes the samples of the devices only. -/
theorem OrdersAt.of_frame {pc : LoopPc} (hi : OrdersAt cfg s h pc) (hl : s'.lagqueue = s.lagqueue)
    (hs : s'.buf.sfloat = s.buf.sfloat) (hasks : h'.asks = h.asks) (hqueued : h'.queued = h.queued)
    (hconv : ∀ k, HasConverted cfg s h k → HasConverted cfg s' h' k) : OrdersAt cfg s' h' pc := by
  have hto : ∀ {i k}, AskedTo cfg s h i k → AskedTo cfg s' h' i k :=
    fun hi => hi.of_frame hl hs hasks hqueued
  have hempty : (s.lagqueue = [] ∧ ∀ k, h.asks k = false) → s'.lagqueue = [] ∧ ∀ k, h'.asks k = false :=
    fun hi => ⟨hl.trans hi.1, fun k => (congrFun hasks k).trans (hi.2 k)⟩
  cases pc with
  | refRead | notify => trivial
  | refConv => exact hempty hi
  | refQueue => exact ⟨hempty hi.1, hconv 0 hi.2⟩
  | refWrite | refConsume | syncTest => exact hto hi
  | dev a i c p =>
    refine ⟨hi.1, ?_⟩
    cases p with
    | lagtest => exact ⟨hto hi.2.1, hconv i hi.2.2⟩
    | queue => exact ⟨hto hi.2.1, hconv i hi.2.2.1, (congrFun hasks i).trans hi.2.2.2⟩
    | _ => exact hto hi.2
  | lag => exact SlotsAsked.of_frame hi hl hs (fun j _ => congrFun hasks j) hqueued

theorem hasConverted_convtofloat {k : Nat} {block : Mem} {d : Csdrdevice C R} (hk : k ≠ 0)
    (hd : s'.dsp k = d.convtofloat cfg.cf cfg.blocksize.toNat block) :
    HasConverted cfg s' (h.convert k block) k :=
  ⟨block, AskRecord.block_convert, fun j hj => by
    rw [if_neg hk, hd]
    exact Csdrdevice.convtofloat_of_lt hj⟩

theorem HasConverted.of_frame {k : Nat} (hi : HasConverted cfg s h k)
    (hs : (s'.dsp k).sfloat = (s.dsp k).sfloat) (hblock : h'.block k = h.block k) :
    HasConverted cfg s' h' k := by
  rwa [HasConverted, hs, hblock]

end

section
variable [Field C] [Star C] [Field R] [DecidableEq R] {cfg : CoherentConfig C R}
  {s s' : CoherentState C R} {h : AskRecord C}

theorem OrdersAt.loop (hi : OrdersAt cfg s h s.pc) (hs : LoopStep cfg s s') :
    OrdersAt cfg s' (h.observe s .loop s') s'.pc := by
  cases hs with
  | refRead hpc =>
    simp only [AskRecord.observe, hpc]
    exact ⟨rfl, fun _ => rfl⟩
  | refConv hpc =>
    simp only [AskRecord.observe, hpc] at hi ⊢
    refine ⟨hi, s.blockOf 0, AskRecord.block_convert, fun j hj => ?_⟩
    simp only [if_pos, setDsp, Function.update_self]
    exact Csdrdevice.refConvtofloat_add hj
  | refQueue hpc =>
    simp only [AskRecord.observe, hpc] at hi ⊢
    obtain ⟨⟨hl, hasks⟩, hconv⟩ := hi
    have hnot : 0 ∉ s.lagqueue := hl ▸ List.not_mem_nil
    have hslots : ∀ j k, s.lagqueue[j]? = some k → HasSlot cfg s h j k := fun j k hj => by
      simp [hl] at hj
    refine ⟨⟨?_, fun j k => slots_queuelag hnot hconv hslots⟩, fun k _ => hasks k⟩
    exact queuelag_lagqueue (by rw [hl, List.take_nil])
  | refWrite hpc | refConsume hpc | syncNext hpc =>
    simp only [AskRecord.observe, hpc] at hi ⊢
    exact AskedTo.of_frame hi rfl rfl rfl rfl
  | syncEnd a hpc ha =>
    simp only [AskRecord.observe, hpc] at hi ⊢
    exact .nextDev le_rfl (Nat.le_add_left 1 _) (AskedTo.of_frame hi rfl rfl rfl rfl)
  | read hpc | ready hpc | write hpc | debug hpc | est hpc | phase hpc =>
    simp only [AskRecord.observe, hpc] at hi ⊢
    exact ⟨hi.1, hi.2.of_frame rfl rfl rfl rfl⟩
  | notReady hpc =>
    simp only [AskRecord.observe, hpc] at hi ⊢
    exact .nextDev (Nat.le_add_left 1 _) (Nat.succ_le_succ hi.1.2)
      ((hi.2.skip hi.1.1).of_frame rfl rfl rfl rfl)
  | consume hpc =>
    simp only [AskRecord.observe, hpc] at hi ⊢
    exact .nextDev (Nat.le_add_left 1 _) (Nat.succ_le_succ hi.1.2) (hi.2.of_frame rfl rfl rfl rfl)
  | @conv a i c hpc =>
    simp only [AskRecord.observe, hpc] at hi ⊢
    have h0 : i ≠ 0 := Nat.one_le_iff_ne_zero.mp hi.1.1
    cases a with
    | true =>
      -- the copy for synchronized devices has no test
      exact ⟨hi.1, (hi.2.skip hi.1.1).of_frame rfl rfl rfl rfl⟩
    | false =>
      exact ⟨hi.1, hi.2.of_frame rfl rfl rfl rfl,
        hasConverted_convtofloat h0 (Function.update_self ..)⟩
  | @lagtest a i c hpc =>
    simp only [AskRecord.observe, hpc] at hi ⊢
    obtain ⟨hrange, ⟨hslots, hlater⟩, hconv⟩ := hi
    have hslots' : SlotsAsked cfg { s with pc := .dev a i c (if (s.dsp i).lagrequested then
        .queue else .noise) } { h with asks := Function.update h.asks i (s.dsp i).lagrequested } i :=
      hslots.of_frame rfl rfl (fun k hk => Function.update_of_ne hk.ne ..) rfl
    have hlater' : ∀ k, i + 1 ≤ k →
        Function.update h.asks i (s.dsp i).lagrequested k = false := fun k hk =>
      (Function.update_of_ne (by omega) ..).trans (hlater k (by omega))
    cases hasked : (s.dsp i).lagrequested with
    | true =>
      rw [hasked] at hslots' hlater'
      exact ⟨hrange, ⟨hslots', hlater'⟩, hconv, Function.update_self ..⟩
    | false =>
      rw [hasked] at hslots' hlater'
      exact ⟨hrange, hslots'.skip hrange.1 (Function.update_self ..), hlater'⟩
  | queue hpc =>
    simp only [AskRecord.observe, hpc] at hi ⊢
    obtain ⟨hrange, ⟨hslots, hlater⟩, hconv, hask⟩ := hi
    exact ⟨hrange, (hslots.queuelag hrange.1 hask hconv).of_frame rfl rfl (fun _ _ => rfl) rfl,
      hlater⟩
  | noise hpc =>
    simp only [AskRecord.observe, hpc] at hi ⊢
    cases s.noise <;> exact ⟨hi.1, hi.2.of_frame rfl rfl rfl rfl⟩
  | lag hpc | noLag hpc => trivial
  | notify hpc =>
    simp only [AskRecord.observe, hpc]
    trivial

theorem OrdersAt.step {a : CoherentAction} (hi : OrdersAt cfg s h s.pc)
    (hs : s.step cfg a = some s') : OrdersAt cfg s' (h.observe s a s') s'.pc := by
  cases a with
  | loop => exact hi.loop (loopStep_cases hs)
  | cmdphaseConv k =>
    obtain ⟨hpc, hlagqueue, hbuf⟩ := step_frame hs nofun
    obtain ⟨hk, hdsp⟩ := cmdphaseConv_dsp hs
    rw [hpc]
    refine hi.of_frame hlagqueue (congrArg LagBuffers.sfloat hbuf) rfl rfl fun j hj => ?_
    rcases eq_or_ne j k with rfl | hne
    · exact hasConverted_convtofloat hk hdsp
    · exact hj.of_frame (step_sfloat hs nofun (by simpa using hne.symm))
        (AskRecord.block_convert_of_ne hne)
  | _ =>
    obtain ⟨hpc, hlagqueue, hbuf⟩ := step_frame hs nofun
    rw [hpc]
    exact hi.of_frame hlagqueue (congrArg LagBuffers.sfloat hbuf) rfl rfl
      fun j hj => hj.of_frame (step_sfloat hs nofun nofun) rfl

/-- `computelag` calls `set_lag` with `calls` in the state `s` and leaves `s'`. -/
structure Delivered (cfg : CoherentConfig C R) (s s' : CoherentState C R) (h : AskRecord C)
    (calls : List (Nat × Lagpoint R)) : Prop where
  dsp : s'.dsp = setLags calls s.dsp
  devices : calls.map (·.1) = ((List.range' 1 cfg.ndev).filter h.asks).take (cfg.nfft - 1)
  nodup : (calls.map (·.1)).Nodup
  lag : ∀ c ∈ calls, ∃ block x refBlock r, h.queued c.1 = some (block, x) ∧
    IsConversion cfg c.1 block x ∧ h.queued 0 = some (refBlock, r) ∧
    IsConversion cfg 0 refBlock r ∧ lagOf cfg.kernels cfg.blocksize.toNat x r = some c.2
  accesses : ∀ a ∈ lagAccesses cfg.blocksize.toNat cfg.nfft (fun k => Cdsp.indexofmax cfg.kernels
      (advance s'.buf.smagsqr (k * cfg.blocksize.toNat)) cfg.blocksize.toNat) s.lagqueue.length,
    a.first + a.count ≤ cfg.blocksize.toNat * cfg.nfft
  beyond : s.buf.AgreeFrom (cfg.blocksize.toNat * cfg.nfft) s'.buf
  lagqueue : s'.lagqueue = []

theorem SlotsAsked.delivered (hi : SlotsAsked cfg s h (cfg.ndev + 1)) (hn : 2 ≤ cfg.nfft)
    (hker : cfg.kernels.Local cfg.blocksize.toNat) (hl : 1 < s.lagqueue.length)
    (hs : s.computelag cfg = some s') : ∃ calls, Delivered cfg s s' h calls := by
  obtain ⟨calls, rfl, hdevices, hcalls⟩ := computelag_cases hs
  have hqueue : calls.map (·.1) = (h.asking (cfg.ndev + 1)).take (cfg.nfft - 1) := by
    rw [hdevices, hi.queue, List.drop_take, List.drop_one, List.tail_cons]
  have hlen : s.lagqueue.length ≤ cfg.nfft := by
    rw [hi.queue, List.length_take]
    exact min_le_left ..
  have hzero : s.lagqueue[0]? = some 0 := by
    rw [hi.queue, List.getElem?_take_of_lt (by omega), List.getElem?_cons_zero]
  -- a call has been made, so that a block is not empty
  have hblock : 0 < cfg.blocksize.toNat := by
    have hne : calls ≠ [] := fun hnil => by
      have hlength := congrArg List.length hdevices
      simp [hnil] at hlength
      omega
    obtain ⟨c, hc⟩ := List.exists_mem_of_ne_nil calls hne
    obtain ⟨k, -, hlag⟩ := hcalls c hc
    have := two_le_of_lagpoint hlag
    omega
  refine ⟨calls, rfl, hqueue, ?_, fun c hc => ?_, ?_, s.buf.agreeFrom_transform hl hlen, rfl⟩
  · rw [hqueue]
    exact AskRecord.nodup_asking.sublist (List.take_sublist ..)
  · obtain ⟨k, hk, hlag⟩ := hcalls c hc
    obtain ⟨h1, hk⟩ := mem_zipIdx_drop_one.mp hk
    obtain ⟨block, x, hx, hconv, hslot⟩ := hi.slots k c.1 hk
    obtain ⟨refBlock, r, hr, hrefConv, hrefSlot⟩ := hi.slots 0 0 hzero
    refine ⟨block, x, refBlock, r, hx, hconv, hr, hrefConv, ?_⟩
    rw [← hlag]
    exact (lagpoint_transform hker hblock h1 (List.getElem?_eq_some_iff.mp hk).1 hlen hslot
      (by simpa using hrefSlot)).symm
  · exact lagAccesses_le hlen hl fun k => hker.indexMax_lt hblock _

end

end CoherentState
end Aegir
