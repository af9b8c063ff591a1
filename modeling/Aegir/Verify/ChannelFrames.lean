import Aegir.Verify.Layout

/-!
# What a sequence of calls of `write` leaves

A call stores the readcount word of its channel and its samples, and no other byte (`Stores`). The bytes
of two channels are different ones, and all of them are in the packet. So after any sequence of calls
each channel has what its last call stored, and the rest of the buffer is as it was (`writes_frame`).
-/

namespace Aegir.TransportConfig

variable {F : Type*} {cfg : TransportConfig} {o : ByteOrder} {ff : FloatFormat F} {m m' : Mem}
  {c d i : Nat} {r : UInt32} {inp : Nat → F}

/-- A call of `write` for the channel `c` stores the byte `i`. -/
def Stores (cfg : TransportConfig) (c i : Nat) : Prop :=
  cfg.noheader = false ∧ 16 + 4 * c ≤ i ∧ i < 16 + 4 * c + 4 ∨
    cfg.sampleLoc c ≤ i ∧ i < cfg.sampleLoc c + cfg.sampleBytes

theorem le_of_stores (hn : cfg.noheader = false) (h : cfg.Stores c i) : 16 ≤ i := by
  have hh := headerBytes_of_header hn
  rcases h with ⟨-, h, -⟩ | ⟨h, -⟩
  · omega
  · simp only [sampleLoc] at h
    omega

/-- No byte belongs to two channels. -/
theorem Stores.eq (hc : c < cfg.N) (hd : d < cfg.N) (h : cfg.Stores c i) (h' : cfg.Stores d i) :
    c = d := by
  have hword : ∀ {a b}, a < cfg.N → cfg.noheader = false → i < 16 + 4 * a + 4 →
      ¬cfg.sampleLoc b ≤ i := fun ha hn hi hle => by
    have hh := headerBytes_of_header hn
    simp only [sampleLoc] at hle
    omega
  rcases h with ⟨hn, hlo, hhi⟩ | ⟨hlo, hhi⟩ <;> rcases h' with ⟨hn', hlo', hhi'⟩ | ⟨hlo', hhi'⟩
  · omega
  · exact absurd hlo' (hword hc hn hhi)
  · exact absurd hlo (hword hd hn' hhi')
  · rcases Nat.lt_trichotomy c d with hcd | hcd | hcd
    · have : cfg.sampleLoc c + cfg.sampleBytes ≤ cfg.sampleLoc d := sampleLoc_add_le hcd
      omega
    · exact hcd
    · have : cfg.sampleLoc d + cfg.sampleBytes ≤ cfg.sampleLoc c := sampleLoc_add_le hcd
      omega

section
variable (hf : cfg.NoOverflow) (hc : c < cfg.N)
include hf hc

/-- Every byte that is stored is published. -/
theorem Stores.lt_packetlen (h : cfg.Stores c i) : i < cfg.packetlen := by
  have hlen : cfg.headerBytes + cfg.N * cfg.sampleBytes ≤ cfg.packetlen := by
    unfold NoOverflow at hf
    cases h32 : cfg.f32bit with
    | true =>
      rw [if_pos h32] at hf
      exact (packetlen_of_float h32 hf).ge
    | false =>
      rw [if_neg (Bool.eq_false_iff.mp h32)] at hf
      rw [packetlen_of_int8_lt h32 hf.1]
      omega
  have hmul : (c + 1) * cfg.sampleBytes ≤ cfg.N * cfg.sampleBytes := Nat.mul_le_mul_right _ hc
  rw [Nat.succ_mul] at hmul
  rcases h with ⟨hn, -, hhi⟩ | ⟨-, hhi⟩
  · have hh := headerBytes_of_header hn
    omega
  · simp only [sampleLoc] at hhi
    omega

variable (hr : cfg.rowmajor = false)
include hr

theorem write_of_not_stores (h : ¬cfg.Stores c i) : cfg.write o ff m c r inp i = m i := by
  obtain ⟨hword, hsample⟩ := not_or.mp h
  rw [write_eq hf hc fun _ => hr, Mem.blit_of_disjoint (by omega), writeReadcnt]
  split
  · rfl
  next hn =>
    have hn : cfg.noheader = false := Bool.eq_false_iff.mpr hn
    simp only [hn, true_and] at hword
    exact Mem.store32_of_disjoint (by simp only [sizeofHdr0, sizeofUint32]; omega)

end

/-! ## Sequences of calls -/

/-- A call of `write`. -/
structure WriteCall (F : Type*) where
  channeln : Nat
  readcnt : UInt32
  inp : Nat → F

/-- The calls in turn. -/
def writes (cfg : TransportConfig) (o : ByteOrder) (ff : FloatFormat F) (m : Mem)
    (calls : List (WriteCall F)) : Mem :=
  calls.foldl (fun m q => cfg.write o ff m q.channeln q.readcnt q.inp) m

/-- The last call for a channel. -/
def lastCall (calls : List (WriteCall F)) (c : Nat) : Option (WriteCall F) :=
  calls.reverse.find? (·.channeln = c)

variable {calls : List (WriteCall F)} {q : WriteCall F}

theorem lastCall_concat : lastCall (calls ++ [q]) c =
    if q.channeln = c then some q else lastCall calls c := by
  rw [lastCall, List.reverse_concat, List.find?_cons]
  by_cases h : q.channeln = c
  · simp [h]
  · simp [h, lastCall]

/-- The channel has what the call stored. -/
structure HasCall (cfg : TransportConfig) (o : ByteOrder) (ff : FloatFormat F) (m : Mem) (c : Nat)
    (q : WriteCall F) : Prop where
  readcnt : cfg.noheader = false → m.load32 o (16 + 4 * c) = q.readcnt
  sample : ∀ i < cfg.sampleBytes, m (cfg.sampleLoc c + i) = cfg.sampleByte ff q.inp i

theorem HasCall.congr (h : HasCall cfg o ff m c q) (hm : ∀ i, cfg.Stores c i → m' i = m i) :
    HasCall cfg o ff m' c q where
  readcnt hn := by
    rw [← h.readcnt hn]
    exact Mem.load32_congr fun i hi => hm _ (.inl ⟨hn, by omega, by omega⟩)
  sample i hi := (hm _ (.inr ⟨by omega, by omega⟩)).trans (h.sample i hi)

/-- What the calls leave of a buffer. -/
structure LeftBy (cfg : TransportConfig) (o : ByteOrder) (ff : FloatFormat F) (m : Mem)
    (calls : List (WriteCall F)) (m' : Mem) : Prop where
  written : ∀ c < cfg.N, ∀ q, lastCall calls c = some q → HasCall cfg o ff m' c q
  unwritten : ∀ c < cfg.N, (∀ q ∈ calls, q.channeln ≠ c) → ∀ i, cfg.Stores c i → m' i = m i
  header : cfg.noheader = false → ∀ i < 16, m' i = m i
  rest : ∀ i, (∀ q ∈ calls, ¬cfg.Stores q.channeln i) → m' i = m i
  published : ∀ q ∈ calls, ∀ i, cfg.Stores q.channeln i → i < cfg.packetlen

section
variable (hf : cfg.NoOverflow) (hr : cfg.rowmajor = false) (hcalls : ∀ q ∈ calls, q.channeln < cfg.N)
include hf hr hcalls

theorem writes_of_not_stores (h : ∀ q ∈ calls, ¬cfg.Stores q.channeln i) :
    cfg.writes o ff m calls i = m i := by
  induction calls generalizing m with
  | nil => rfl
  | cons q calls ih =>
    rw [List.forall_mem_cons] at h hcalls
    exact (ih hcalls.2 h.2).trans (write_of_not_stores hf hcalls.1 hr h.1)

/-- The induction is on the calls from the last one back. -/
theorem hasCall_writes (hc : c < cfg.N) (hq : lastCall calls c = some q) :
    HasCall cfg o ff (cfg.writes o ff m calls) c q := by
  induction calls using List.reverseRecOn with
  | nil => cases hq
  | append_singleton calls p ih =>
    have hp : p.channeln < cfg.N := hcalls p (by simp)
    rw [writes, List.foldl_append, List.foldl_cons, List.foldl_nil]
    rw [lastCall_concat] at hq
    by_cases hpc : p.channeln = c
    · rw [if_pos hpc] at hq
      cases hq
      subst hpc
      exact ⟨fun hn => load32_write hf hc (fun _ => hr) hn,
        fun i hi => write_sample hf hc (fun _ => hr) hi⟩
    · rw [if_neg hpc] at hq
      have hbefore := ih (fun q hq => hcalls q (by simp [hq])) hq
      exact hbefore.congr fun i hi =>
        write_of_not_stores hf hp hr fun hpi => hpc (hpi.eq hp hc hi)

/-- For every format, every number of channels, every block size and every sequence of calls: what they
leave of a buffer. -/
theorem writes_frame (o : ByteOrder) (ff : FloatFormat F) (m : Mem) :
    LeftBy cfg o ff m calls (cfg.writes o ff m calls) where
  written _ hc _ hq := hasCall_writes hf hr hcalls hc hq
  unwritten _ hc hnot _ hi := writes_of_not_stores hf hr hcalls fun q hq hqi =>
    hnot q hq (hqi.eq (hcalls q hq) hc hi)
  header hn _ hi := writes_of_not_stores hf hr hcalls fun _ _ hqi =>
    (le_of_stores hn hqi).not_gt hi
  rest _ h := writes_of_not_stores hf hr hcalls h
  published q hq _ hi := hi.lt_packetlen hf (hcalls q hq)

end

/-- Two channels of one complex sample, of which the second one is written twice. -/
theorem writes_frame_twoChannels :
    let calls : List (WriteCall Int8) := [⟨1, 7, fun _ => 3⟩, ⟨0, 8, fun _ => 4⟩, ⟨1, 9, fun _ => 5⟩]
    let cfg : TransportConfig := ⟨false, false, false, 2, 2⟩
    LeftBy cfg .little ⟨fun x _ => x.toUInt8, id⟩ (fun _ => 255) calls
      (cfg.writes .little ⟨fun x _ => x.toUInt8, id⟩ (fun _ => 255) calls) :=
  writes_frame (by unfold NoOverflow; decide) rfl (by decide) _ _ _

end Aegir.TransportConfig
