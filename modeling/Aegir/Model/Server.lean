import Aegir.Model.Coherent
import Aegir.Model.Publish

/-!
# The coherent loop and the transport

`ccoherent::threadf` calls the transport at three places of its body: `write` for the reference, `write`
for each signal device that is ready, and `notifysend` at the end. A step of the server is a step of one
of the threads of `CoherentState`, together with the call of the transport that it makes, or a step of
the main thread in `send`. The loop and the main thread run on one host, so both use its byte order.
-/

namespace Aegir

/-- The floats of a complex number. -/
structure ComplexParts (C F : Type*) where
  re : C → F
  im : C → F

/-- The samples as a `float *`: real and imaginary part in turn. -/
def ComplexParts.floats {C F : Type*} (parts : ComplexParts C F) (samples : Nat → C) (i : Nat) : F :=
  if i % 2 = 0 then parts.re (samples (i / 2)) else parts.im (samples (i / 2))

/-- What is fixed while the server runs. -/
structure ServerConfig (C R F : Type*) where
  receiver : CoherentConfig C R
  transport : TransportConfig
  parts : ComplexParts C F
  ff : FloatFormat F

/-- A step of the main thread in `send`. -/
inductive SendAction
  | hdrPtr | fillHeader | wait | load | copy | sent
  deriving DecidableEq, Repr

/-- The same step as one of the double buffer. -/
def SendAction.publish {F : Type*} : SendAction → PublishAction F
  | .hdrPtr => .hdrPtr
  | .fillHeader => .fillHeader
  | .wait => .wait
  | .load => .load
  | .copy => .copy
  | .sent => .sent

/-- A step of one of the threads. -/
inductive ServerAction
  | thread (a : CoherentAction)
  | send (a : SendAction)

/-- The devices, the coherent thread, and the transport. -/
structure ServerState (C R : Type*) where
  receiver : CoherentState C R
  transport : PublishState

section
variable {C R F : Type*}

/-- The call of the transport in a step of the receiver. -/
def CoherentState.transportCall (cfg : CoherentConfig C R) (parts : ComplexParts C F)
    (s : CoherentState C R) : CoherentAction → Option (PublishAction F)
  | .loop =>
    match s.pc with
    | .refWrite => some (.write 0 (s.stream 0).getReadcntbuf (parts.floats (s.refSamples cfg)))
    | .dev _ i c .write => some (.write c (s.stream i).getReadcntbuf (parts.floats (s.dsp i).sfloat))
    | .notify => some .notifysend
    | _ => none
  | _ => none

namespace ServerState

variable [Field C] [Star C] [Field R] (cfg : ServerConfig C R F)

/-- The server when the coherent loop starts and `main` calls `send` for the first time. -/
def init (noise : Bool) : ServerState C R where
  receiver := .init cfg.receiver noise
  transport := .init

/-- The call of the transport, if there is one. -/
def call (t : PublishState) : Option (PublishAction F) → Option PublishState
  | some a => t.step cfg.transport cfg.receiver.order cfg.ff a
  | none => some t

variable [DecidableEq R] (s : ServerState C R)

/-- One step of the threads. -/
def step : ServerAction → Option (ServerState C R)
  | .thread a =>
    (s.receiver.step cfg.receiver a).bind fun receiver =>
      (call cfg s.transport (s.receiver.transportCall cfg.receiver cfg.parts a)).map fun transport =>
        { receiver, transport }
  | .send a =>
    (s.transport.step cfg.transport cfg.receiver.order cfg.ff a.publish).map fun transport =>
      { s with transport }

end ServerState
end
end Aegir
