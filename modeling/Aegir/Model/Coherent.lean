import Aegir.Std.Run
import Aegir.Model.Lag

/-!
# The coherent loop

`ccoherent::threadf` and the threads around it. One iteration reads, converts and writes a block of
the reference device, tests whether all signal devices are synchronized, and reads, corrects and
writes a block of each signal device that is ready; it ends with the lag computation and
`notifysend`. A step of the loop is one call of its body. Between any two steps the driver threads
deliver blocks (`swapbuffer`), the controllers and the console store flags, and the console runs the
calls of `cmdphase` on the signal devices.

The reference device has the number 0 and the device at position `i` of the device vector the number
`i + 1`. `do_exit` ends a run and has no step.
-/

namespace Aegir

/-- Where the loop stands in its body for one signal device. -/
inductive DevPc
  | read | test | conv | lagtest | queue | noise | est | phase | write | debug | consume
  deriving DecidableEq, Repr

/-- Where the loop stands. The locals of the device loops are `i`, the device, and `c`, the channel
counter; `allsynced` tells which copy of the loop runs. -/
inductive LoopPc
  | refRead | refConv | refQueue | refWrite | refConsume
  | syncTest (i : Nat)
  | dev (allsynced : Bool) (i c : Nat) (pc : DevPc)
  | lag | notify
  deriving DecidableEq, Repr

/-- The device that the loop is about to read. -/
def LoopPc.reading : LoopPc → Option Nat
  | .refRead => some 0
  | .dev _ i _ .read => some i
  | _ => none

/-- History: a call of `transport->write`. -/
structure Written (C : Type*) where
  /-- The iteration of the loop. -/
  iter : Nat
  /-- The device whose block is written. -/
  dev : Nat
  channeln : Nat
  readcnt : UInt32
  samples : Nat → C
  /-- The number of blocks of the device consumed before. -/
  block : Nat
  /-- The number of blocks of the device stored and not yet consumed. -/
  unconsumed : Nat
  /-- The number of iterations in which the device was found not ready. -/
  skipped : Nat

/-- History: a call of `transport->writedebug`. -/
structure WrittenDebug (C : Type*) where
  iter : Nat
  dev : Nat
  channeln : Nat
  p : C

/-- History of a run. -/
structure History (C : Type*) where
  /-- The number of iterations completed. -/
  iter : Nat
  /-- In which iterations which devices were found ready. -/
  found : Nat → Nat → Bool
  /-- The number of calls of `swapbuffer`, of `consume`, and of iterations in which `is_ready` was
  false, for each device. -/
  stored : Nat → Nat
  consumed : Nat → Nat
  skipped : Nat → Nat
  writes : List (Written C)
  debugs : List (WrittenDebug C)

/-- The part of the state that decides which blocks are written as which channel. -/
structure LoopCore (C : Type*) where
  stream : Nat → Stream
  pc : LoopPc
  hist : History C

/-- The devices, the noise source and the coherent thread. -/
structure CoherentState (C R : Type*) extends LoopCore C where
  dsp : Nat → Csdrdevice C R
  /-- `refnoise->isenabled()`. -/
  noise : Bool
  lagqueue : List Nat
  buf : LagBuffers C R

/-- What is fixed while the loop runs. `planned` is what the planner leaves in the buffers. -/
structure CoherentConfig (C R : Type*) where
  ndev : Nat
  nfft : Nat
  blocksize : UInt32
  asyncbufn : UInt32
  order : ByteOrder
  cf : ComplexFloat C
  kernels : LagKernels C R
  planned : LagBuffers C R

/-- A step of one of the threads. -/
inductive CoherentAction
  | loop
  | swapbuffer (k : Nat) (b : Mem)
  | setStreaming (k : Nat) (on : Bool)
  | setSynchronized (k : Nat) (state : Bool)
  | storeLagrequested (k : Nat)
  | clearLagready (k : Nat)
  | setState (on : Bool)
  | cmdphaseConv (k : Nat)
  | cmdphaseEst (k : Nat)

namespace LoopCore

variable {C : Type*} (s : LoopCore C)

/-- Change the stream of one device. -/
def setStream (k : Nat) (d : Stream) : LoopCore C :=
  { s with stream := Function.update s.stream k d }

/-- `transport->write` for device `k`. -/
def write (k channeln : Nat) (samples : Nat → C) : LoopCore C :=
  { s with hist.writes := s.hist.writes ++
      [{ iter := s.hist.iter, dev := k, channeln, readcnt := (s.stream k).getReadcntbuf, samples
         block := s.hist.consumed k
         unconsumed := s.hist.stored k - s.hist.consumed k
         skipped := s.hist.skipped k }] }

/-- `transport->writedebug` for device `k`. -/
def writedebug (k channeln : Nat) (p : C) : LoopCore C :=
  { s with hist.debugs := s.hist.debugs ++ [⟨s.hist.iter, k, channeln, p⟩] }

/-- `consume` of device `k`. -/
def consume (k : Nat) : LoopCore C :=
  { s.setStream k (s.stream k).consume with
    hist.consumed := Function.update s.hist.consumed k (s.hist.consumed k + 1) }

/-- `swapbuffer` of device `k`. -/
def swapbuffer (o : ByteOrder) (k : Nat) (b : Mem) : LoopCore C :=
  { s.setStream k ((s.stream k).swapbuffer o b) with
    hist.stored := Function.update s.hist.stored k (s.hist.stored k + 1) }

/-- `is_ready` of device `k` returned `b`. -/
def foundReady (k : Nat) (b : Bool) : LoopCore C :=
  { s with
    hist.found := Function.update s.hist.found s.hist.iter
      (Function.update (s.hist.found s.hist.iter) k b)
    hist.skipped := if b then s.hist.skipped
      else Function.update s.hist.skipped k (s.hist.skipped k + 1) }

/-- `notifysend`, at the end of an iteration. -/
def notifysend : LoopCore C := { s with hist.iter := s.hist.iter + 1 }

/-- Move on to `pc`. -/
def goto (pc : LoopPc) : LoopCore C := { s with pc }

end LoopCore

/-- The beginning of the loop body for device `i`, or the end of the device loop. -/
def nextDev (ndev : Nat) (allsynced : Bool) (i c : Nat) : LoopPc :=
  if i ≤ ndev then .dev allsynced i c .read else .lag

namespace CoherentState

section
variable {C R : Type*} (cfg : CoherentConfig C R) (s : CoherentState C R)

/-- Replace the core of the state. -/
def withCore (core : LoopCore C) : CoherentState C R := { s with toLoopCore := core }

/-- Change the samples and flags of one device. -/
def setDsp (k : Nat) (d : Csdrdevice C R) : CoherentState C R :=
  { s with dsp := Function.update s.dsp k d }

/-- The samples of the reference: `get_samplepointer() + (get_blocksize() >> 1)`. -/
def refSamples : Nat → C := fun i => (s.dsp 0).sfloat (i + cfg.blocksize.toNat >>> 1)

/-- `ccoherent::queuelag`. -/
def queuelag (k : Nat) : CoherentState C R :=
  if s.lagqueue.length < cfg.nfft then
    { s with
      buf.sfloat := overwrite s.buf.sfloat (s.lagqueue.length * cfg.blocksize.toNat)
        cfg.blocksize.toNat (s.dsp k).sfloat
      lagqueue := s.lagqueue ++ [k] }
  else s

end

section
variable {C R : Type*} [Field C] [Star C] (cfg : CoherentConfig C R) (s : CoherentState C R)

/-- The state in which the loop starts: constructed devices that stream; `noise` is the state of the
noise source. -/
def init [Zero R] (noise : Bool) : CoherentState C R where
  stream _ := { Stream.init cfg.asyncbufn cfg.blocksize with streaming := true }
  dsp _ := .init
  noise
  lagqueue := []
  buf := cfg.planned
  pc := .refRead
  hist := ⟨0, fun _ _ => false, fun _ => 0, fun _ => 0, fun _ => 0, [], []⟩

/-- One call of the loop body for the signal device `i`. -/
def devStep (allsynced : Bool) (i c : Nat) : DevPc → Option (CoherentState C R)
  | .read => (s.stream i).read.map fun d =>
    s.withCore ((s.setStream i d).goto (.dev allsynced i c .test))
  | .test =>
    if (s.stream i).isReady then
      some (s.withCore ((s.foundReady i true).goto (.dev allsynced i c .conv)))
    else some (s.withCore ((s.foundReady i false).goto (nextDev cfg.ndev allsynced (i + 1) c)))
  | .conv => some
    { s.setDsp i ((s.dsp i).convtofloat cfg.cf cfg.blocksize.toNat
        (s.stream i).s8bit.getbufferptr) with
      pc := .dev allsynced i c (if allsynced then .phase else .lagtest) }
  | .lagtest => some
    { s with pc := .dev allsynced i c (if (s.dsp i).lagrequested then .queue else .noise) }
  | .queue => some { s.queuelag cfg i with pc := .dev allsynced i c .noise }
  | .noise => some { s with pc := .dev allsynced i c (if s.noise then .est else .phase) }
  | .est => some
    { s.setDsp i ((s.dsp i).estPhasecorrect cfg.cf cfg.blocksize.toNat (s.refSamples cfg)) with
      pc := .dev allsynced i c .phase }
  | .phase => some
    { s.setDsp i ((s.dsp i).phasecorrect cfg.blocksize.toNat) with
      pc := .dev allsynced i c .write }
  | .write => some
    (s.withCore ((s.write i c (s.dsp i).sfloat).goto (.dev allsynced i c .debug)))
  | .debug => some
    (s.withCore ((s.writedebug i c (s.dsp i).phasecorr).goto (.dev allsynced i c .consume)))
  | .consume => some
    (s.withCore ((s.toLoopCore.consume i).goto (nextDev cfg.ndev allsynced (i + 1) (c + 1))))

end

variable {C R : Type*} [Field C] [Star C] [Field R] [DecidableEq R] (cfg : CoherentConfig C R)
  (s : CoherentState C R)

/-- One round of the loop of `ccoherent::computelag`, for the device `q.1` at the place `q.2` of the
queue. -/
def lagRound (smagsqr : Nat → R) (dsp : Nat → Csdrdevice C R) (q : Nat × Nat) :
    Option (Nat → Csdrdevice C R) :=
  (lagpoint cfg.kernels cfg.blocksize.toNat smagsqr q.2).map fun p =>
    Function.update dsp q.1 ((dsp q.1).setLag p)

/-- `ccoherent::computelag`: `set_lag` for each device in the queue but the first. -/
def computelag : Option (CoherentState C R) :=
  let buf := s.buf.transform cfg.kernels cfg.blocksize.toNat cfg.nfft s.lagqueue.length
  ((s.lagqueue.zipIdx.drop 1).foldlM (lagRound cfg buf.smagsqr) s.dsp).map fun dsp =>
    { s with dsp, buf, lagqueue := [] }

/-- One call of the loop body. -/
def loopStep : Option (CoherentState C R) :=
  match s.pc with
  | .refRead => (s.stream 0).read.map fun d =>
    { s.withCore ((s.setStream 0 d).goto .refConv) with lagqueue := [] }
  | .refConv => some
    { s.setDsp 0 ((s.dsp 0).refConvtofloat cfg.cf cfg.blocksize.toNat
        (s.stream 0).s8bit.getbufferptr) with pc := .refQueue }
  | .refQueue => some { s.queuelag cfg 0 with pc := .refWrite }
  | .refWrite => some (s.withCore ((s.write 0 0 (s.refSamples cfg)).goto .refConsume))
  | .refConsume => some (s.withCore ((s.toLoopCore.consume 0).goto (.syncTest 1)))
  | .syncTest i =>
    if i ≤ cfg.ndev then
      if (s.dsp i).synced then some { s with pc := .syncTest (i + 1) }
      else some { s with pc := nextDev cfg.ndev false 1 1 }
    else some { s with pc := nextDev cfg.ndev true 1 1 }
  | .dev allsynced i c pc => s.devStep cfg allsynced i c pc
  | .lag =>
    if 1 < s.lagqueue.length then (s.computelag cfg).map fun s => { s with pc := .notify }
    else some { s with pc := .notify }
  | .notify => some (s.withCore (s.notifysend.goto .refRead))

/-- One step of the threads. -/
def step : CoherentAction → Option (CoherentState C R)
  | .loop => s.loopStep cfg
  | .swapbuffer k b => some (s.withCore (s.toLoopCore.swapbuffer cfg.order k b))
  | .setStreaming k on => some (s.withCore (s.setStream k { s.stream k with streaming := on }))
  | .setSynchronized k state => some (s.setDsp k { s.dsp k with synced := state })
  | .storeLagrequested k => some (s.setDsp k { s.dsp k with lagrequested := true })
  | .clearLagready k => some (s.setDsp k { s.dsp k with lagready := false })
  | .setState on => some { s with noise := on }
  | .cmdphaseConv k =>
    if k = 0 then none
    else some (s.setDsp k ((s.dsp k).convtofloat cfg.cf cfg.blocksize.toNat
      (s.stream k).s8bit.getbufferptr))
  | .cmdphaseEst k =>
    if k = 0 then none
    else some (s.setDsp k ((s.dsp k).estPhasecorrect cfg.cf cfg.blocksize.toNat (s.refSamples cfg)))

end CoherentState
end Aegir
