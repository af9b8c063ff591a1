import Aegir.Verify.Blocks

/-!
# The ring buffer as a queue

Against an unbounded queue: the blocks stored so far in order, of which a number has been taken. The
pointers `wp` and `rp` are the two numbers modulo `2 ^ 32`, and each of the last `N` blocks is in its
slot, so as long as at most `N` blocks wait the block at `rp` is the oldest of them (`FifoInv`).
`convtosigned` has its length as an `int`: a block of `2 ^ 31` bytes or more has a negative length there,
and none of it is stored. So the ring is a queue if and only if blocks are shorter (`fifo_iff`).
-/

namespace Aegir

/-! ## `convtosigned` -/

/-- The loop that the comment in `convtosigned` keeps: one byte at a time. -/
def convtosignedLoop (inp out : Mem) (n : Nat) : Mem :=
  (List.range n).foldl (fun out i => Function.update out i (inp i ^^^ 0x80)) out

section
variable {o : ByteOrder} {inp out : Mem} {n i : Nat}

/-- One byte of a word whose sign bits are inverted. -/
theorem byteOf_signs (h : i < 8) : byteOf 0x8080808080808080 i = 0x80 := by
  interval_cases i <;> decide

/-- The bytes of a word that `convtosigned` stores. -/
theorem byteOf_converted {a : Nat} (h : i < 8) :
    byteOf (inp.load64 o a ^^^ 0x8080808080808080).toNat (o.place 8 i) = inp (a + i) ^^^ 0x80 := by
  have hplace := o.place_lt h
  rw [UInt64.toNat_xor, byteOf_xor, Mem.byteOf_load64 hplace, ByteOrder.place_place h]
  exact congrArg _ (byteOf_signs hplace)

/-- Whole words are converted, and the rest of the memory stays. -/
theorem convtosigned_apply :
    convtosigned o inp out n i = if i < 8 * (n >>> 3) then inp i ^^^ 0x80 else out i := by
  unfold convtosigned
  generalize n >>> 3 = k
  induction k with
  | zero => simp
  | succ k ih =>
    rw [List.range_succ, List.foldl_append, List.foldl_cons, List.foldl_nil, Mem.store64]
    rcases Nat.lt_or_ge i (8 * k) with h | h
    · rw [Mem.blit_of_lt h, ih, if_pos h, if_pos (by omega)]
    · rcases Nat.lt_or_ge i (8 * k + 8) with h' | h'
      · obtain ⟨j, rfl⟩ := Nat.exists_eq_add_of_le h
        have hj : j < 8 := by omega
        rw [Mem.blit_add hj, byteOf_converted hj, if_pos (by omega)]
      · rw [Mem.blit_of_ge h', ih, if_neg (by omega), if_neg (by omega)]

/-- What the loop over the bytes stores. -/
theorem convtosignedLoop_apply :
    convtosignedLoop inp out n i = if i < n then inp i ^^^ 0x80 else out i := by
  unfold convtosignedLoop
  induction n with
  | zero => simp
  | succ n ih =>
    rw [List.range_succ, List.foldl_append, List.foldl_cons, List.foldl_nil]
    rcases Nat.lt_trichotomy i n with h | rfl | h
    · rw [Function.update_of_ne h.ne, ih, if_pos h, if_pos (by omega)]
    · rw [Function.update_self, if_pos (by omega)]
    · rw [Function.update_of_ne h.ne', ih, if_neg (by omega), if_neg (by omega)]

/-- The sign bit inverted: offset binary as two's complement. -/
theorem toInt_xor_sign (x : UInt8) : (x ^^^ 0x80).toInt8.toInt = (x.toNat : ℤ) - 128 := by
  have h : ∀ b : BitVec 8, (b ^^^ 0x80#8).toInt = (b.toNat : ℤ) - 128 := by decide +kernel
  exact h x.toBitVec

/-- A length of whole words. -/
theorem eight_mul_shiftRight (h8 : 8 ∣ n) : 8 * (n >>> 3) = n := by
  rw [Nat.shiftRight_eq_div_pow]
  omega

end

/-- For every length of whole words, every buffer and every byte order: `convtosigned` is the loop over
the bytes. It stores the sample less 128 in each of the first `n` bytes, and no other byte changes. -/
theorem convtosigned_eq_loop (o : ByteOrder) (inp out : Mem) {n : Nat} (h8 : 8 ∣ n) :
    convtosigned o inp out n = convtosignedLoop inp out n ∧
      (∀ i < n, convtosigned o inp out n i = inp i ^^^ 0x80 ∧
        (convtosigned o inp out n i).toInt8.toInt = ((inp i).toNat : ℤ) - 128) ∧
      ∀ i ≥ n, convtosigned o inp out n i = out i := by
  have hwords := eight_mul_shiftRight h8
  refine ⟨?_, fun i hi => ?_, fun i hi => ?_⟩
  · funext i
    rw [convtosigned_apply, convtosignedLoop_apply, hwords]
  · rw [convtosigned_apply, hwords, if_pos hi]
    exact ⟨rfl, toInt_xor_sign _⟩
  · rw [convtosigned_apply, hwords, if_neg hi.not_gt]

theorem convtosigned_eq_loop_eight :
    convtosigned .big (fun i => .ofNat i) (fun _ => 7) 8 =
        convtosignedLoop (fun i => .ofNat i) (fun _ => 7) 8 ∧
      (∀ i < 8, convtosigned .big (fun i => .ofNat i) (fun _ => 7) 8 i = .ofNat i ^^^ 0x80 ∧
        (convtosigned .big (fun i => .ofNat i) (fun _ => 7) 8 i).toInt8.toInt =
          ((UInt8.ofNat i).toNat : ℤ) - 128) ∧
      ∀ i ≥ 8, convtosigned .big (fun i => .ofNat i) (fun _ => 7) 8 i = 7 :=
  convtosigned_eq_loop .big _ _ (by decide)

/-- The argument `L` of `convtosigned` as an `int`. -/
theorem toInt32_length {l : UInt32} :
    l.toInt32.toNatClampNeg = if l.toNat < 2 ^ 31 then l.toNat else 0 := by
  have hlt := l.toNat_lt
  have hint : l.toInt32.toInt =
      if 2 * l.toNat < 2 ^ 32 then (l.toNat : Int) else (l.toNat : Int) - (2 ^ 32 : Nat) :=
    BitVec.toInt_eq_toNat_cond l.toBitVec
  rw [Int32.toNatClampNeg, hint]
  split <;> split <;> omega

/-! ## Runs of the ring -/

/-- A call of one of the two sides. -/
inductive CbufferAction
  | setbufferptr (buffer : Mem) (rcnt : UInt32)
  | consume

/-- One call. -/
def Cbuffer.step (o : ByteOrder) (b : Cbuffer) : CbufferAction → Option Cbuffer
  | .setbufferptr buffer rcnt => some (b.setbufferptr o buffer rcnt)
  | .consume => some b.consume

/-- The queue: the blocks stored, and what the reader got before each call of `consume`. -/
structure FifoHistory where
  stored : List (UInt32 × Mem)
  taken : List (UInt32 × List UInt8)

namespace FifoHistory

/-- The bytes of a buffer. -/
def bytes (l : UInt32) (m : Mem) : List UInt8 := m.read 0 l.toNat

/-- A block as it is to be read: with its readcount and sign-converted bytes. -/
def block (l : UInt32) (q : UInt32 × Mem) : UInt32 × List UInt8 :=
  (q.1, bytes l fun i => q.2 i ^^^ 0x80)

/-- What `get_rcnt` and `getbufferptr` return. -/
def current (b : Cbuffer) : UInt32 × List UInt8 := (b.getRcnt, bytes b.L b.getbufferptr)

/-- The observer of a run. -/
def observe (b : Cbuffer) (a : CbufferAction) (_ : Cbuffer) (h : FifoHistory) : FifoHistory :=
  match a with
  | .setbufferptr buffer rcnt => { h with stored := h.stored ++ [(rcnt, buffer)] }
  | .consume => { h with taken := h.taken ++ [current b] }

end FifoHistory

open FifoHistory

/-- The number of blocks stored and not consumed stays between `0` and `N`. -/
def NotOverrun (N : Nat) (p : Cbuffer × FifoHistory) : CbufferAction → Prop
  | .setbufferptr .. => p.2.stored.length < p.2.taken.length + N
  | .consume => p.2.taken.length < p.2.stored.length

/-- A block that waits is read as it was stored, the oldest one first, and so were all taken. -/
def InOrder (l : UInt32) (p : Cbuffer × FifoHistory) : Prop :=
  (∀ q, p.2.stored[p.2.taken.length]? = some q → current p.1 = block l q) ∧
    p.2.taken = (p.2.stored.take p.2.taken.length).map (block l)

/-- The block in a slot. -/
def Cbuffer.slot (b : Cbuffer) (s : Nat) : UInt32 × List UInt8 := (b.readcnt s, bytes b.L (b.ptr s))

/-- What the ring has to do with the queue. -/
structure FifoInv (N : Nat) (l : UInt32) (p : Cbuffer × FifoHistory) : Prop where
  size : RingSize p.1.N N
  length : p.1.L = l
  wp : p.1.wp = .ofNat p.2.stored.length
  rp : p.1.rp = .ofNat p.2.taken.length
  taken_le : p.2.taken.length ≤ p.2.stored.length
  stored_le : p.2.stored.length ≤ p.2.taken.length + N
  slots : RingHolds N p.2.stored.length p.1.slot fun b => block l (p.2.stored.getD b (0, 0))
  taken : p.2.taken = (p.2.stored.take p.2.taken.length).map (block l)

namespace FifoInv

variable {N : Nat} {l : UInt32} {o : ByteOrder} {b : Cbuffer} {h : FifoHistory}
  {p p' : Cbuffer × FifoHistory}

theorem init {n : UInt32} (hN : RingSize n N) : FifoInv N l (.init n l, ⟨[], []⟩) :=
  ⟨hN, rfl, rfl, rfl, le_rfl, Nat.zero_le _, .zero, rfl⟩

/-- The block at the read pointer is the oldest one that waits. -/
theorem current_eq (hi : FifoInv N l (b, h)) (hlt : h.taken.length < h.stored.length) :
    current b = block l (h.stored.getD h.taken.length (0, 0)) := by
  have hslot : b.rslot = h.taken.length % N := by
    rw [Cbuffer.rslot, hi.rp, hi.size.and_eq_mod]
  have hread := hi.slots.read hi.size.pos hlt
  rw [newest_eq_self hi.stored_le hlt] at hread
  rw [← hread, ← hslot]
  rfl

theorem inOrder (hi : FifoInv N l p) : InOrder l p := by
  refine ⟨fun q hq => ?_, hi.taken⟩
  obtain ⟨hlt, hq⟩ := List.getElem?_eq_some_iff.mp hq
  rw [hi.current_eq hlt, List.getD_eq_getElem _ _ hlt, hq]

/-- A block is stored completely if its length is an `int`. -/
theorem bytes_convtosigned {inp out : Mem} (h8 : 8 ∣ l.toNat) (hl : l.toNat < 2 ^ 31) :
    bytes l (convtosigned o inp out l.toInt32.toNatClampNeg) = bytes l fun i => inp i ^^^ 0x80 := by
  rw [toInt32_length, if_pos hl]
  refine List.map_congr_left fun i hmem => ?_
  have hi := List.mem_range.mp hmem
  rw [convtosigned_apply, eight_mul_shiftRight h8, if_pos (by omega)]

theorem setbufferptr {buffer : Mem} {rcnt : UInt32} (hi : FifoInv N l (b, h)) (h8 : 8 ∣ l.toNat)
    (hl : l.toNat < 2 ^ 31) (hok : h.stored.length < h.taken.length + N) :
    FifoInv N l
      (b.setbufferptr o buffer rcnt, { h with stored := h.stored ++ [(rcnt, buffer)] }) where
  size := hi.size
  length := hi.length
  wp := by
    have hwp : b.wp = .ofNat h.stored.length := hi.wp
    simp [Cbuffer.setbufferptr, hwp, UInt32.ofNat_add]
  rp := hi.rp
  taken_le := by have := hi.taken_le; simp only [List.length_append] at this ⊢; omega
  stored_le := by simpa using hok
  slots := by
    have hslot : b.wslot = h.stored.length % N := by
      rw [Cbuffer.wslot, hi.wp, hi.size.and_eq_mod]
    have hlen : b.L = l := hi.length
    -- the slots after the call are the ones before it, with the new block in one of them
    have hupdate : (b.setbufferptr o buffer rcnt).slot =
        Function.update b.slot (h.stored.length % N) (block l (rcnt, buffer)) := by
      funext s
      by_cases hs : s = h.stored.length % N
      · subst hs
        simp [Cbuffer.slot, Cbuffer.setbufferptr, hslot, hlen, block, bytes_convtosigned h8 hl]
      · simp [Cbuffer.slot, Cbuffer.setbufferptr, hslot, Function.update_of_ne hs]
    have hvalues : ∀ c < h.stored.length, block l (h.stored.getD c (0, 0)) =
        block l ((h.stored ++ [(rcnt, buffer)]).getD c (0, 0)) := by
      intro c hc
      rw [List.getD_append _ _ _ _ hc]
    have hlast : block l (rcnt, buffer) =
        block l ((h.stored ++ [(rcnt, buffer)]).getD h.stored.length (0, 0)) := by
      rw [List.getD_append_right _ _ _ _ le_rfl]
      simp
    rw [hupdate, hlast, List.length_append, List.length_singleton]
    exact (hi.slots.congr hvalues).store
  taken := by
    have hle : h.taken.length ≤ h.stored.length := hi.taken_le
    have htaken : h.taken = (h.stored.take h.taken.length).map (block l) := hi.taken
    have htake : (h.stored ++ [(rcnt, buffer)]).take h.taken.length = h.stored.take h.taken.length :=
      List.take_append_of_le_length hle
    rwa [← htake] at htaken

theorem consume (hi : FifoInv N l (b, h)) (hok : h.taken.length < h.stored.length) :
    FifoInv N l (b.consume, { h with taken := h.taken ++ [current b] }) where
  size := hi.size
  length := hi.length
  wp := hi.wp
  rp := by
    have hrp : b.rp = .ofNat h.taken.length := hi.rp
    simp [Cbuffer.consume, hrp, UInt32.ofNat_add]
  taken_le := by simpa using hok
  stored_le := by have := hi.stored_le; simp only [List.length_append] at this ⊢; omega
  slots := hi.slots
  taken := by
    have htaken : h.taken = (h.stored.take h.taken.length).map (block l) := hi.taken
    rw [List.length_append, List.length_singleton, ← List.take_concat_get' _ _ hok, List.map_append,
      ← htaken, hi.current_eq hok, List.getD_eq_getElem _ _ hok]
    rfl

theorem step {a : CbufferAction} (hi : FifoInv N l p) (h8 : 8 ∣ l.toNat) (hl : l.toNat < 2 ^ 31)
    (hok : NotOverrun N p a) (hs : observed (Cbuffer.step o) observe p a = some p') :
    FifoInv N l p' := by
  obtain ⟨b, h⟩ := p
  cases a with
  | setbufferptr buffer rcnt => cases hs; exact hi.setbufferptr h8 hl hok
  | consume => cases hs; exact hi.consume hok

end FifoInv

/-! ## Long blocks -/

/-- A block of `2 ^ 31` bytes or more is not stored: the reader gets the zeros of the constructor. -/
theorem not_inOrder {n l : UInt32} {o : ByteOrder} (hl : 2 ^ 31 ≤ l.toNat) :
    ¬ InOrder l ((Cbuffer.init n l).setbufferptr o (fun _ => 0) 0, ⟨[(0, fun _ => 0)], []⟩) := by
  rintro ⟨hcurrent, -⟩
  have h := congrArg (fun q => q.2[0]?) (hcurrent (0, fun _ => 0) rfl)
  have hpos : 0 < l.toNat := by omega
  have hnone : l.toInt32.toNatClampNeg = 0 := by rw [toInt32_length, if_neg (by omega)]
  have hptr : ∀ s, ((Cbuffer.init n l).setbufferptr o (fun _ => 0) 0).ptr s 0 = 0 := by
    intro s
    simp only [Cbuffer.setbufferptr]
    by_cases hs : s = (Cbuffer.init n l).wslot
    · subst hs
      rw [Function.update_self, convtosigned_apply]
      simp [Cbuffer.init, hnone]
    · rw [Function.update_of_ne hs]
      rfl
  simp only [current, block, bytes] at h
  rw [Mem.getElem?_read hpos, Mem.getElem?_read (by exact hpos)] at h
  simp only [Cbuffer.getbufferptr, Nat.zero_add, hptr] at h
  cases h

/-- A run with one block. -/
theorem run_singleton {N : Nat} {n l : UInt32} {o : ByteOrder} (hN : 0 < N) :
    Run (observed (Cbuffer.step o) observe) (NotOverrun N) (.init n l, ⟨[], []⟩)
      [.setbufferptr (fun _ => 0) 0]
      ((Cbuffer.init n l).setbufferptr o (fun _ => 0) 0, ⟨[(0, fun _ => 0)], []⟩) :=
  Run.singleton_iff.mpr ⟨by simpa [NotOverrun] using hN, rfl⟩

/-- For every ring of a power of two slots, every length of whole words and every byte order: in every
run that does not overrun the ring, the blocks are read in the order and with the contents in which
they were stored, if and only if they are shorter than `2 ^ 31` bytes. -/
theorem fifo_iff {N : Nat} {n l : UInt32} (o : ByteOrder) (hN : RingSize n N) (h8 : 8 ∣ l.toNat) :
    (∀ tr p, Run (observed (Cbuffer.step o) observe) (NotOverrun N) (.init n l, ⟨[], []⟩) tr p →
      InOrder l p) ↔ l.toNat < 2 ^ 31 := by
  constructor
  · intro h
    by_contra hl
    exact not_inOrder (Nat.not_lt.mp hl) (h _ _ (run_singleton hN.pos))
  · intro hl tr p hrun
    have hi : FifoInv N l p :=
      hrun.invariant (.init hN) fun _ _ _ hi hok hs => hi.step h8 hl hok hs
    exact hi.inOrder

theorem fifo_iff_eight :
    (∀ tr p, Run (observed (Cbuffer.step .little) observe) (NotOverrun 2) (.init 2 8, ⟨[], []⟩) tr p →
      InOrder 8 p) ↔ (8 : UInt32).toNat < 2 ^ 31 :=
  fifo_iff .little ⟨⟨1, by decide, rfl⟩, rfl⟩ (by decide)

/-- A ring of one slot for blocks of `2 ^ 31` bytes. -/
theorem not_fifo :
    ¬ ∀ (N : Nat) (n l : UInt32) (o : ByteOrder), RingSize n N → 8 ∣ l.toNat → ∀ tr p,
      Run (observed (Cbuffer.step o) observe) (NotOverrun N) (.init n l, ⟨[], []⟩) tr p →
      InOrder l p := by
  intro h
  have hN : RingSize 1 1 := ⟨⟨0, by decide, rfl⟩, rfl⟩
  exact not_inOrder (n := 1) (l := 0x80000000) (o := .little) (by decide)
    (h 1 1 0x80000000 .little hN (by decide) _ _ (run_singleton hN.pos))

end Aegir
