import Aegir.Verify.Main
import Aegir.Verify.StartedChannels
import Aegir.Verify.Server

/-!
# From the command line to the clients

What `main` starts on the RTL-SDR path without `-R` and without `-w 32` packs the samples of the loop as
the server needs it, whatever else the command line, the configuration file and the drivers say, as
long as the packets fit (`packs_of_main`). So the results about the server hold of every receiver that
is started in this way (`received_of_main`).
-/

namespace Aegir

open ServerState CommandOps

variable {D C R K : Type*} {num : NumberReader D} {host : Host} {args : List (List Char)} {l : Launched}

/-- The server that `main` starts. -/
def Launched.server (l : Launched) (order : ByteOrder) (cf : ComplexFloat C) (kernels : LagKernels C R)
    (planned : LagBuffers C R) (parts : ComplexParts C K) (ff : FloatFormat K) : ServerConfig C R K where
  receiver := l.started.coherent order cf kernels planned
  transport := l.started.transport
  parts
  ff

theorem transport_of_start {ops : StartOps} {drv : Drivers} {names : List (List Char)} {st : Started}
    (h : ops.start drv names = some st) :
    st.transport.noheader = ops.no_header ∧ st.transport.f32bit = ops.use32bitfloat := by
  simp only [StartOps.start, StartOps.startHackRF, StartOps.startRTLSDR] at h
  split_ifs at h <;> cases h <;> exact ⟨rfl, rfl⟩

section
variable (h : main num host args = some l) (hpath : lastOf (arg 'H') (optionsOf args) = none)
  (hraw : lastOf (arg 'R') (optionsOf args) = none)
  (hwire : lastOf (wireformat num) (optionsOf args) ≠ some true)
  (hnames : (namesOf host (optionsOf args)).length + 1 < 2 ^ 32) (hpos : 0 < l.started.transport.B)
  (hfits : l.started.transport.Fits)
include h hpath hraw hwire hnames hpos hfits

/-- The transport and the coherent loop are started with sizes that belong together. -/
theorem packs_of_main {order : ByteOrder} {cf : ComplexFloat C} {kernels : LagKernels C R}
    {planned : LagBuffers C R} :
    CoherentState.Packs l.started.transport (l.started.coherent order cf kernels planned) := by
  obtain ⟨hops, hst⟩ := main_eq_some h
  obtain ⟨hheader, hint8⟩ := transport_of_start hst
  have hH : l.ops.startOps.HackRF = false := by
    simp [hops, settled, ofSources, startOps, hpath]
  refine ⟨rfl, hpos, ?_, ?_, ?_, hfits⟩
  · exact (StartOps.length_lt_N_iff hst hnames).mpr (.inl hH)
  · rw [hint8]
    simp only [hops, settled, ofSources, startOps]
    cases hw : lastOf (wireformat num) (optionsOf args) with
    | none => rfl
    | some b =>
      cases b with
      | false => rfl
      | true => exact absurd hw hwire
  · rw [hheader]
    simp [hops, settled, ofSources, startOps, hraw]

variable [Field C] [Star C] [Field R] [DecidableEq R] [Field K] [LinearOrder K] [IsStrictOrderedRing K]

/-- In every run of a server that `main` starts on the RTL-SDR path for the int8 format with header, in
which no ring is overrun and the calls of the transport are in time, the clients get what
`Received` says. -/
theorem received_of_main {order : ByteOrder} {cf : ComplexFloat C} {kernels : LagKernels C R}
    {planned : LagBuffers C R} {parts : ComplexParts C K} {ff : FloatFormat K} {noise : Bool}
    {r₀ : CoherentState.Correction C} {tr : List ServerAction}
    {p : ServerState C R × CoherentState.Reception C}
    (hsize : CoherentState.BlockSize l.started.transport.blocksize) (hff : ff.RoundsAndClamps)
    (hparts : parts.Exact cf)
    (hrun : Run (observed (step (l.server order cf kernels planned parts ff)) observe)
      (fun p a => InTime 8 (l.server order cf kernels planned parts ff) p.1 a)
      (init (l.server order cf kernels planned parts ff) noise, ⟨fun _ => [], r₀⟩) tr p) :
    Received K (l.server order cf kernels planned parts ff) p := by
  have hp : CoherentState.Packs (l.server order cf kernels planned parts ff).transport
      (l.server order cf kernels planned parts ff).receiver :=
    packs_of_main h hpath hraw hwire hnames hpos hfits
  have hN : RingSize (l.server order cf kernels planned parts ff).receiver.asyncbufn 8 :=
    ⟨⟨3, by omega, rfl⟩, rfl⟩
  have hi := served_of_run hN hsize (storesChannels_of_packs hp) hp.channels hrun
  exact hi.received hsize hp hff hparts

end

/-! ### A block size from the command line -/

/-- What is started with `-b 8`. -/
def launchedEight : Launched where
  ops := { init with blocksize := 8, ndev := 2 }
  started := ⟨CoherentState.twoDevices, [chars "1001"]⟩

theorem main_eight : main decimal twoDongles [chars "-b", chars "8"] = some launchedEight := by
  have hfields : (main decimal twoDongles [chars "-b", chars "8"]).map
      (fun l => (l.ops, l.started.transport, l.started.v_devices)) =
        some (launchedEight.ops, launchedEight.started.transport, launchedEight.started.v_devices) := by
    decide +kernel
  obtain ⟨⟨ops, transport, v_devices⟩, hmain, heq⟩ := Option.map_eq_some_iff.mp hfields
  simp only [Prod.mk.injEq] at heq
  obtain ⟨rfl, rfl, rfl⟩ := heq
  exact hmain

/-- Its server, with complex samples. -/
noncomputable def serverEight : ServerConfig ℂ ℚ ℝ :=
  launchedEight.server .little CoherentState.complexReceiver.cf CoherentState.complexReceiver.kernels
    CoherentState.complexReceiver.planned ⟨Complex.re, Complex.im⟩ (towardsZero ℝ)

/-- Each driver fills its ring, the loop takes its first iteration, and the frame is published. -/
def eightTrace : List ServerAction :=
  [.send .hdrPtr, .send .fillHeader] ++
    List.replicate 8 (.thread (.swapbuffer 0 CoherentState.onesBlock)) ++
    List.replicate 8 (.thread (.swapbuffer 1 CoherentState.minusOnesBlock)) ++
    List.replicate 19 (.thread .loop) ++ sendFrame

theorem received_of_main_eight :
    main decimal twoDongles [chars "-b", chars "8"] = some launchedEight ∧
      ∃ p : ServerState ℂ ℚ × CoherentState.Reception ℂ,
        Run (observed (step serverEight) observe) (fun p a => InTime 8 serverEight p.1 a)
          (init serverEight true, CoherentState.emptyReception) eightTrace p ∧
        p.1.transport.published.map (·.frame) = [0] ∧
        p.1.receiver.hist.writes.any (·.dev = 1) = true ∧ Received ℝ serverEight p := by
  obtain ⟨p, hrun, hp⟩ := Run.exists_of_exec (observed (step serverEight) observe)
    (fun p a => InTime 8 serverEight p.1 a) (init serverEight true, CoherentState.emptyReception)
    eightTrace (fun p => p.1.transport.published.map (·.frame) = [0] ∧
      p.1.receiver.hist.writes.any (·.dev = 1) = true) (by decide +kernel)
  obtain ⟨hpublished, hwrites⟩ := of_decide_eq_true hp
  refine ⟨main_eight, p, hrun, hpublished, hwrites, ?_⟩
  exact received_of_main main_eight (by decide +kernel) (by decide +kernel) (by decide +kernel)
    (by decide +kernel) (by decide) (by unfold TransportConfig.Fits; decide)
    ⟨by decide, by decide⟩ towardsZero_roundsAndClamps CoherentState.exact_complexReceiver hrun

end Aegir
