import Aegir.Std.Run
import Aegir.Model.Transport

/-!
# The double buffer between `notifysend` and `send`

The writer thread (`ccoherent::threadf`) calls `write` any number of times and then `notifysend`;
the main thread calls `send` in a loop. `send` fills the header of the buffer that `packetbuf0`
points to, waits under `bmutex` until `bufferfilled` is set and clears it, and publishes the buffer
that `packetbuf1` points to after it has released the mutex. A step is one call of the writer, or
one access of the sender to memory that the threads share: reading the pointer of the header
buffer, storing the header, the wait, reading `packetbuf1`, and each byte that `socket->send`
copies out of the buffer.

`do_exit` of the transport is never set, no caller of `ctransport::request_exit` exists, so the
wait ends by `bufferfilled` only. The debug socket is not modelled.
-/

namespace Aegir

/-- The two allocations made by `init`. -/
inductive Buf
  | first | second
  deriving DecidableEq, Repr

/-- One message handed to the data socket. -/
structure Published where
  /-- History: the number of the frame that was in `packetbuf1` when `send` read the pointer. -/
  frame : Nat
  msg : List UInt8
  deriving DecidableEq, Repr

/-- Where the main thread stands in `send`. `hdr` is the local pointer of that name, which only
packets with a header have. -/
inductive SendPc
  | top
  | header (hdr : Buf)
  | waiting (hdr : Option Buf)
  | publishing (hdr : Option Buf)
  | copying (src : Buf) (frame : Nat) (copied : List UInt8)
  deriving DecidableEq, Repr

/-- The static members of `ctransport` that change, and the main thread's position. -/
structure PublishState where
  mem : Buf → Mem
  packetbuf0 : Buf
  packetbuf1 : Buf
  bufferfilled : Bool
  globalseqn : UInt32
  pc : SendPc
  /-- History: the frames, as the bytes of `packetbuf0` at each `notifysend`. -/
  frames : List (List UInt8)
  /-- History: the messages published so far. -/
  published : List Published

/-- A step of the writer thread or of the main thread. -/
inductive PublishAction (F : Type*)
  | write (channeln : Nat) (readcnt : UInt32) (inp : Nat → F)
  | notifysend
  | hdrPtr | fillHeader | wait | load | copy | sent

namespace PublishState

variable {F : Type*} (cfg : TransportConfig) (o : ByteOrder) (ff : FloatFormat F)

/-- The state after `init`, before the first call of `send`. -/
def init : PublishState where
  mem _ _ := 0
  packetbuf0 := .first
  packetbuf1 := .second
  bufferfilled := false
  globalseqn := 0
  pc := .top
  frames := []
  published := []

/-- Change the bytes of one buffer. -/
def setMem (s : PublishState) (b : Buf) (m : Mem) : PublishState :=
  { s with mem := Function.update s.mem b m }

section
variable (s : PublishState) (b : Buf) (m : Mem)

@[simp] theorem setMem_packetbuf0 : (s.setMem b m).packetbuf0 = s.packetbuf0 := rfl
@[simp] theorem setMem_packetbuf1 : (s.setMem b m).packetbuf1 = s.packetbuf1 := rfl
@[simp] theorem setMem_pc : (s.setMem b m).pc = s.pc := rfl
@[simp] theorem setMem_published : (s.setMem b m).published = s.published := rfl
@[simp] theorem setMem_mem_self : (s.setMem b m).mem b = m := Function.update_self ..
theorem setMem_mem_of_ne {b' : Buf} (h : b' ≠ b) : (s.setMem b m).mem b' = s.mem b' :=
  Function.update_of_ne h ..

end

/-- `ctransport::notifysend`: the swap and the flag, under the mutex. -/
def notifysend (s : PublishState) : PublishState :=
  { s with
    packetbuf0 := s.packetbuf1
    packetbuf1 := s.packetbuf0
    bufferfilled := true
    frames := s.frames ++ [cfg.message (s.mem s.packetbuf0)] }

/-- One step of the two threads. -/
def step (s : PublishState) : PublishAction F → Option PublishState
  | .write channeln readcnt inp =>
    some (s.setMem s.packetbuf0 (cfg.write o ff (s.mem s.packetbuf0) channeln readcnt inp))
  | .notifysend => some (s.notifysend cfg)
  | .hdrPtr =>
    match s.pc with
    | .top =>
      if cfg.noheader then some { s with pc := .waiting none }
      else some { s with pc := .header s.packetbuf0 }
    | _ => none
  | .fillHeader =>
    match s.pc with
    | .header hdr =>
      some { s.setMem hdr (cfg.fillHeader o (s.mem hdr) s.globalseqn) with
        globalseqn := s.globalseqn + 1
        pc := .waiting (some hdr) }
    | _ => none
  | .wait =>
    match s.pc with
    | .waiting hdr =>
      if s.bufferfilled then some { s with bufferfilled := false, pc := .publishing hdr } else none
    | _ => none
  | .load =>
    match s.pc with
    | .publishing _ => some { s with pc := .copying s.packetbuf1 (s.frames.length - 1) [] }
    | _ => none
  | .copy =>
    match s.pc with
    | .copying src frame copied =>
      if copied.length < cfg.packetlen then
        some { s with pc := .copying src frame (copied ++ [s.mem src copied.length]) }
      else none
    | _ => none
  | .sent =>
    match s.pc with
    | .copying _ frame copied =>
      if copied.length < cfg.packetlen then none
      else some { s with pc := .top, published := s.published ++ [⟨frame, copied⟩] }
    | _ => none

section
variable {cfg o ff} {s s' : PublishState}

/-! ## What each step can do -/

theorem step_hdrPtr (h : s.step cfg o ff .hdrPtr = some s') :
    s.pc = .top ∧ (cfg.noheader = true ∧ s' = { s with pc := .waiting none } ∨
      cfg.noheader = false ∧ s' = { s with pc := .header s.packetbuf0 }) := by
  simp only [step] at h
  split at h <;> try contradiction
  rename_i hpc
  cases hn : cfg.noheader <;> simp only [hn, if_true, Bool.false_eq_true, if_false] at h <;> cases h
  · exact ⟨hpc, .inr ⟨rfl, rfl⟩⟩
  · exact ⟨hpc, .inl ⟨rfl, rfl⟩⟩

theorem step_fillHeader (h : s.step cfg o ff .fillHeader = some s') :
    ∃ hdr, s.pc = .header hdr ∧
      s' = { s.setMem hdr (cfg.fillHeader o (s.mem hdr) s.globalseqn) with
        globalseqn := s.globalseqn + 1
        pc := .waiting (some hdr) } := by
  simp only [step] at h
  split at h <;> try contradiction
  cases h
  exact ⟨_, ‹_›, rfl⟩

theorem step_wait (h : s.step cfg o ff .wait = some s') :
    ∃ hdr, s.pc = .waiting hdr ∧ s.bufferfilled = true ∧
      s' = { s with bufferfilled := false, pc := .publishing hdr } := by
  simp only [step] at h
  split at h <;> try contradiction
  split at h <;> cases h
  exact ⟨_, ‹_›, ‹_›, rfl⟩

theorem step_load (h : s.step cfg o ff .load = some s') :
    ∃ hdr, s.pc = .publishing hdr ∧
      s' = { s with pc := .copying s.packetbuf1 (s.frames.length - 1) [] } := by
  simp only [step] at h
  split at h <;> try contradiction
  cases h
  exact ⟨_, ‹_›, rfl⟩

theorem step_copy (h : s.step cfg o ff .copy = some s') :
    ∃ src frame copied, s.pc = .copying src frame copied ∧ copied.length < cfg.packetlen ∧
      s' = { s with pc := .copying src frame (copied ++ [s.mem src copied.length]) } := by
  simp only [step] at h
  split at h <;> try contradiction
  split at h <;> cases h
  exact ⟨_, _, _, ‹_›, ‹_›, rfl⟩

theorem step_sent (h : s.step cfg o ff .sent = some s') :
    ∃ src frame copied, s.pc = .copying src frame copied ∧ cfg.packetlen ≤ copied.length ∧
      s' = { s with pc := .top, published := s.published ++ [⟨frame, copied⟩] } := by
  simp only [step] at h
  split at h <;> try contradiction
  split at h <;> cases h
  exact ⟨_, _, _, ‹_›, by omega, rfl⟩

end

end PublishState
end Aegir
