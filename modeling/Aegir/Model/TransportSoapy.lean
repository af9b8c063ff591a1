import Aegir.Model.Transport

/-!
# `ctransportsoapy`

`ctransportsoapy.cc` is `ctransport.cc` without its sockets, and `write` is the only function that
computes something else: the location of the samples is a number of elements of the buffer, which are
`std::complex<float>` or `int8_t`. Both transports have two packet buffers, which `notifysend` swaps.
-/

namespace Aegir

namespace TransportConfig

variable {F : Type*} (cfg : TransportConfig) (o : ByteOrder)

/-- `loc` in `ctransportsoapy::write`. -/
def soapyLoc (channeln : Nat) : Nat :=
  if cfg.noheader then
    if cfg.f32bit then u32 (channeln * (cfg.B >>> 1)) else u32 (channeln * cfg.B)
  else if cfg.f32bit then
    u32 ((sizeofHdr0 + cfg.N * sizeofUint32) + u32 (channeln * (cfg.B >>> 1)))
  else u32 ((sizeofHdr0 + cfg.N * sizeofUint32) + u32 (channeln * cfg.B))

/-- `ctransportsoapy::write` into the buffer `m`. -/
def soapyWrite (ff : FloatFormat F) (m : Mem) (channeln : Nat) (readcnt : UInt32) (inp : Nat → F) :
    Mem :=
  let m := cfg.writeReadcnt o m channeln readcnt
  let loc := cfg.soapyLoc channeln
  if cfg.f32bit then
    let m := m.blit (sizeofComplex * loc) ((cfg.B >>> 1) * sizeofComplex) fun i =>
      ff.bytes (inp (i / 4)) (i % 4)
    if cfg.rowmajor then cfg.convertToRowmajor m loc else m
  else convto8bit ff m loc inp cfg.B

end TransportConfig

/-- The two packet buffers of a transport, and the number of the next header. -/
structure PacketBuffers where
  packetbuf0 : Mem
  packetbuf1 : Mem
  globalseqn : UInt32

/-- A call of `write`, the part of `send` that fills the header, or a call of `notifysend`. -/
inductive TransportOp (F : Type*)
  | write (channeln : Nat) (readcnt : UInt32) (inp : Nat → F)
  | header
  | notifysend

namespace PacketBuffers

variable {F : Type*} (cfg : TransportConfig) (o : ByteOrder)

/-- An operation of a transport, whose `write` is `store`. -/
def apply (store : Mem → Nat → UInt32 → (Nat → F) → Mem) (s : PacketBuffers) :
    TransportOp F → PacketBuffers
  | .write channeln readcnt inp => { s with packetbuf0 := store s.packetbuf0 channeln readcnt inp }
  | .header =>
    if cfg.noheader then s
    else { s with
      packetbuf0 := cfg.fillHeader o s.packetbuf0 s.globalseqn
      globalseqn := s.globalseqn + 1 }
  | .notifysend => { s with packetbuf0 := s.packetbuf1, packetbuf1 := s.packetbuf0 }

/-- An operation of `ctransport`. -/
def applyCtransport (ff : FloatFormat F) : PacketBuffers → TransportOp F → PacketBuffers :=
  apply cfg o (cfg.write o ff)

/-- An operation of `ctransportsoapy`. -/
def applyCtransportsoapy (ff : FloatFormat F) : PacketBuffers → TransportOp F → PacketBuffers :=
  apply cfg o (cfg.soapyWrite o ff)

end PacketBuffers
end Aegir
