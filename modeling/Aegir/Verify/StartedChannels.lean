import Aegir.Model.Startup
import Aegir.Verify.Channels

/-!
# The channels of a started receiver

The transport is sized from the configured names, the loop numbers the devices that are open and ready.
The RTL-SDR path has a channel for the reference and one for each name that is opened; the HackRF path
has one for each name of the configuration, so that a channel is missing if the reference is not among
them and every device opens (`channels_iff`). A device is written as the channel of its place in the
configuration if and only if all devices before it are open and ready (`channel_configured_iff`).
-/

namespace Aegir

/-! ## Places in a list -/

section
variable {α : Type*} {l l' l₁ l₂ : List α} {x : α} {i : Nat}

/-- In a part of a list without repetitions, what stands before an element stood before it. -/
theorem take_sublist_of_sublist (hsub : l'.Sublist (l₁ ++ x :: l₂)) (hn : (l₁ ++ x :: l₂).Nodup)
    (hx : l'[i]? = some x) : (l'.take i).Sublist l₁ := by
  induction l₁ generalizing l' i with
  | nil =>
    have hnot : x ∉ l₂ := (List.nodup_cons.mp hn).1
    cases i with
    | zero => exact List.nil_sublist _
    | succ i =>
      cases hsub with
      | cons _ h => exact absurd (h.subset (List.mem_of_getElem? hx)) hnot
      | cons_cons _ h => exact absurd (h.subset (List.mem_of_getElem? hx)) hnot
  | cons y l₁ ih =>
    have hn' : (l₁ ++ x :: l₂).Nodup := (List.nodup_cons.mp hn).2
    cases hsub with
    | cons _ h => exact (ih h hn' hx).cons y
    | cons_cons _ h =>
      cases i with
      | zero => exact List.nil_sublist _
      | succ i => exact (ih h hn' hx).cons_cons y

/-- An element has kept its place, and all before it are marked, if and only if all that stood before
it are there and marked. -/
theorem kept_place_iff {p : Nat → Prop} (hsub : l'.Sublist (l₁ ++ x :: l₂))
    (hn : (l₁ ++ x :: l₂).Nodup) (hx : l'[i]? = some x) :
    (i = l₁.length ∧ ∀ j < i, p j) ↔ ∀ d ∈ l₁, ∃ j, l'[j]? = some d ∧ p j := by
  have htake : (l'.take i).Sublist l₁ := take_sublist_of_sublist hsub hn hx
  have hlt : i < l'.length := (List.getElem?_eq_some_iff.mp hx).1
  have hlen : (l'.take i).length = i := by rw [List.length_take]; omega
  constructor
  · rintro ⟨hi, hp⟩ d hd
    rw [← htake.eq_of_length (hlen.trans hi)] at hd
    obtain ⟨j, hj, rfl⟩ := List.mem_take_iff_getElem.mp hd
    exact ⟨j, List.getElem?_eq_getElem _, hp j (by omega)⟩
  · intro h
    have hdisj : x ∉ l₁ := fun hm =>
      (List.nodup_append.mp hn).2.2 x hm x List.mem_cons_self rfl
    have hbefore : ∀ d ∈ l₁, ∀ j, l'[j]? = some d → j < i := by
      intro d hd j hj
      by_contra hle
      rcases Nat.eq_or_lt_of_le (not_lt.mp hle) with rfl | hij
      · rw [hx] at hj
        cases hj
        exact hdisj hd
      · -- the element would stand before `d`
        obtain ⟨m₁, m₂, rfl⟩ := List.append_of_mem hd
        rw [List.append_assoc, List.cons_append] at hsub hn
        have hmem : x ∈ l'.take j := List.mem_take_iff_getElem.mpr
          ⟨i, by omega, (List.getElem?_eq_some_iff.mp hx).2⟩
        exact hdisj (List.mem_append_left _ ((take_sublist_of_sublist hsub hn hj).subset hmem))
    have hsubset : l₁ ⊆ l'.take i := by
      intro d hd
      obtain ⟨j, hj, -⟩ := h d hd
      have hlt : j < l'.length := (List.getElem?_eq_some_iff.mp hj).1
      exact List.mem_take_iff_getElem.mpr
        ⟨j, by have := hbefore d hd j hj; omega, (List.getElem?_eq_some_iff.mp hj).2⟩
    have hi : i = l₁.length := by
      have hle := ((List.nodup_append.mp hn).1.subperm hsubset).length_le
      have hge := htake.length_le
      omega
    refine ⟨hi, fun j hj => ?_⟩
    have hl₁ : l'.take i = l₁ := htake.eq_of_length (hlen.trans hi)
    have hmem : l'[j] ∈ l₁ := hl₁ ▸ List.mem_take_iff_getElem.mpr ⟨j, by omega, rfl⟩
    obtain ⟨k, hk, hp⟩ := h _ hmem
    obtain ⟨hklt, hk⟩ := List.getElem?_eq_some_iff.mp hk
    rwa [← (hn.sublist hsub).getElem_inj_iff.mp hk]

end

/-! ## The device vector -/

namespace StartOps

variable {ops : StartOps} {drv : Drivers} {names : List (List Char)}

/-- The devices that open, when `k` calls have been made before. -/
def openable (ops : StartOps) (drv : Drivers) : Nat → List (List Char) → List (List Char)
  | _, [] => []
  | k, dev :: devs =>
    if drv.openDevice k dev ops.fs ops.fc ≠ 0 then ops.openable drv (k + 1) devs
    else dev :: ops.openable drv (k + 1) devs

theorem foldl_tryOpen {devs : List (List Char)} {o : Opened} :
    (devs.foldl (ops.tryOpen drv) o).v_devices = o.v_devices ++ ops.openable drv o.calls devs := by
  induction devs generalizing o with
  | nil => simp [openable]
  | cons dev devs ih =>
    rw [List.foldl_cons, ih, openable]
    simp only [tryOpen]
    split <;> simp

theorem vdefs_serial {refindex : Int32} :
    (vdefs drv names refindex).map Sdrdefs.serial =
      names.filter (drv.getIndexBySerial · ≠ refindex) := by
  have hfold : ∀ (l : List (List Char)) (acc : List Sdrdefs),
      (l.foldl (fun vdefs dev =>
        if drv.getIndexBySerial dev ≠ refindex then
          vdefs ++ [⟨(drv.getIndexBySerial dev).toUInt32, dev⟩] else vdefs) acc).map Sdrdefs.serial =
        acc.map Sdrdefs.serial ++ l.filter (drv.getIndexBySerial · ≠ refindex) := by
    intro l
    induction l with
    | nil => simp
    | cons dev l ih =>
      intro acc
      rw [List.foldl_cons, ih]
      split <;> simp [*]
  exact hfold names []

/-- What `main` starts: the device vector has the configured devices that open, and the transport has
room for all configured devices and the reference, or for all names. -/
theorem start_eq {st : Started} (h : ops.start drv names = some st) :
    st.v_devices = ops.openable drv 0 (ops.configured drv names) ∧
      st.transport.nchannels = .ofNat
        (if ops.HackRF then names.length else (ops.configured drv names).length + 1) := by
  unfold start at h
  cases hh : ops.HackRF with
  | true =>
    rw [hh, if_pos rfl] at h
    simp only [startHackRF] at h
    split at h <;> cases h
    have hfold : names.foldl (fun o dev => if ops.refname ≠ dev then ops.tryOpen drv o dev else o)
        ⟨[], 0⟩ = (names.filter (ops.refname ≠ ·)).foldl (ops.tryOpen drv) ⟨[], 0⟩ := by
      rw [List.foldl_filter]
      simp only [decide_eq_true_eq]
    refine ⟨?_, by rw [if_pos rfl]; rfl⟩
    rw [configured, if_pos hh, hfold, foldl_tryOpen]
    rfl
  | false =>
    rw [hh, if_neg nofun] at h
    simp only [startRTLSDR] at h
    split at h
    · cases h
    · split at h <;> cases h
      rw [configured, if_neg (by simp [hh]), ← vdefs_serial]
      refine ⟨?_, by rw [if_neg nofun, List.length_map]; rfl⟩
      rw [← List.foldl_map, foldl_tryOpen]
      rfl

theorem openable_sublist {k : Nat} {devs : List (List Char)} : (ops.openable drv k devs).Sublist devs := by
  induction devs generalizing k with
  | nil => exact .slnil
  | cons dev devs ih =>
    rw [openable]
    split
    · exact ih.cons dev
    · exact ih.cons_cons dev

/-- A device is missing if and only if one of the calls of `open` fails. -/
theorem length_openable_lt_iff {k : Nat} {devs : List (List Char)} :
    (ops.openable drv k devs).length < devs.length ↔
      ∃ i dev, devs[i]? = some dev ∧ drv.openDevice (k + i) dev ops.fs ops.fc ≠ 0 := by
  induction devs generalizing k with
  | nil => simp [openable]
  | cons dev devs ih =>
    have hle : (ops.openable drv (k + 1) devs).length ≤ devs.length := openable_sublist.length_le
    rw [openable]
    split
    · rename_i hopen
      refine ⟨fun _ => ⟨0, dev, rfl, hopen⟩, fun _ => ?_⟩
      rw [List.length_cons]
      omega
    · rename_i hopen
      rw [List.length_cons, List.length_cons, Nat.add_lt_add_iff_right, ih]
      constructor
      · rintro ⟨i, d, hd, hfail⟩
        exact ⟨i + 1, d, hd, by rwa [Nat.add_assoc, Nat.add_comm 1] at hfail⟩
      · rintro ⟨i, d, hd, hfail⟩
        cases i with
        | zero =>
          cases hd
          exact absurd hfail hopen
        | succ i => exact ⟨i, d, hd, by rwa [Nat.add_assoc, Nat.add_comm 1]⟩

end StartOps

/-! ## A run in which every device is written -/

namespace CoherentState

variable {C R : Type*} [Field C] [Star C] [Field R] [DecidableEq R] {cfg : CoherentConfig C R}
  {s : CoherentState C R}

/-- The device can be read and is ready then. -/
structure Ready (d : Stream) : Prop where
  streaming : d.streaming = true
  newdata : 0 < d.newdata
  readcnt : d.asyncbufn ≤ d.readcnt

omit [Field C] [Star C] [Field R] [DecidableEq R] in
theorem Ready.read {d : Stream} (h : Ready d) : ∃ d', d.read = some d' ∧ d'.isReady = true := by
  refine ⟨{ d with newdata := d.newdata - 1 }, ?_, ?_⟩
  · rw [Stream.read, if_pos h.streaming, if_pos h.newdata]
  · simp [Stream.isReady, h.streaming, h.readcnt]

/-- The driver delivers `n` blocks of a device. -/
theorem exists_run_swapbuffer (cfg : CoherentConfig C R) (s : CoherentState C R) (k : Nat) (b : Mem)
    (n : Nat) :
    ∃ s', Run (CoherentState.step cfg) anyStep s (List.replicate n (.swapbuffer k b)) s' ∧
      s'.pc = s.pc ∧ s'.dsp = s.dsp ∧ (∀ j ≠ k, s'.stream j = s.stream j) ∧
      (s'.stream k).streaming = (s.stream k).streaming ∧
      (s'.stream k).asyncbufn = (s.stream k).asyncbufn ∧
      (s'.stream k).newdata = (s.stream k).newdata + .ofNat n ∧
      (s'.stream k).readcnt = (s.stream k).readcnt + .ofNat n := by
  induction n with
  | zero => exact ⟨s, .nil, rfl, rfl, fun _ _ => rfl, rfl, rfl, by simp, by simp⟩
  | succ n ih =>
    obtain ⟨s₁, hrun, hpc, hdsp, hother, hs, ha, hn, hr⟩ := ih
    rw [List.replicate_succ']
    refine ⟨_, hrun.snoc trivial rfl, hpc, hdsp, fun j hj => ?_, ?_, ?_, ?_, ?_⟩ <;>
      simp only [withCore, LoopCore.swapbuffer, LoopCore.setStream]
    · rw [Function.update_of_ne hj, hother j hj]
    · rw [Function.update_self]
      exact hs
    · rw [Function.update_self]
      exact ha
    · rw [Function.update_self]
      simp only [Stream.swapbuffer, hn, Int32.ofNat_add, Int32.add_assoc]
      rfl
    · rw [Function.update_self]
      simp only [Stream.swapbuffer, hr, UInt32.ofNat_add, UInt32.add_assoc]
      rfl

/-- The first `n` devices are made ready and synchronized. -/
theorem exists_run_ready (ha : cfg.asyncbufn = 8) (noise : Bool) (n : Nat) :
    ∃ tr s, Run (CoherentState.step cfg) anyStep (init cfg noise) tr s ∧ s.pc = .refRead ∧
      (∀ k < n, Ready (s.stream k) ∧ (s.dsp k).synced = true) ∧
      ∀ k, n ≤ k → s.stream k = { Stream.init cfg.asyncbufn cfg.blocksize with streaming := true } := by
  induction n with
  | zero => exact ⟨[], _, .nil, rfl, nofun, fun _ _ => rfl⟩
  | succ n ih =>
    obtain ⟨tr, s, hrun, hpc, hready, hinit⟩ := ih
    obtain ⟨s₁, hrun₁, hpc₁, hdsp, hother, hs, hb, hn, hr⟩ :=
      exists_run_swapbuffer cfg s n (fun _ => 0) 8
    rw [hinit n le_rfl] at hs hb hn hr
    refine ⟨_, s₁.setDsp n { s₁.dsp n with synced := true },
      (hrun.append hrun₁).snoc (a := .setSynchronized n true) trivial rfl, hpc₁.trans hpc,
      fun k hk => ?_, fun k hk => ?_⟩
    · rcases Nat.lt_succ_iff_lt_or_eq.mp hk with hlt | rfl
      · refine ⟨?_, ?_⟩
        · show Ready (s₁.stream k)
          rw [hother k hlt.ne]
          exact (hready k hlt).1
        · simp only [setDsp, Function.update_of_ne hlt.ne, hdsp]
          exact (hready k hlt).2
      · refine ⟨⟨hs, ?_, ?_⟩, by simp [setDsp]⟩
        · show 0 < (s₁.stream k).newdata
          rw [hn]
          show (0 : Int32) < 0 + .ofNat 8
          decide
        · show (s₁.stream k).asyncbufn ≤ (s₁.stream k).readcnt
          rw [hb, hr]
          simp only [Stream.init, ha]
          decide
    · show s₁.stream k = _
      rw [hother k (by omega)]
      exact hinit k (by omega)

/-- The reference is written. -/
theorem exists_run_syncTest (hpc : s.pc = .refRead) (hready : Ready (s.stream 0)) :
    ∃ tr s', Run (CoherentState.step cfg) anyStep s tr s' ∧ s'.pc = .syncTest 1 ∧
      (∀ k, 1 ≤ k → s'.stream k = s.stream k ∧ (s'.dsp k).synced = (s.dsp k).synced) ∧
      ∃ w ∈ s'.hist.writes, w.channeln = 0 := by
  obtain ⟨d, hd, -⟩ := hready.read
  have hread : s.step cfg .loop =
      some { s.withCore ((s.setStream 0 d).goto .refConv) with lagqueue := [] } := by
    simp only [step, loopStep, hpc, hd, Option.map_some]
  refine ⟨_, _, ((((Run.nil.snoc trivial hread).snoc (a := .loop) trivial rfl).snoc (a := .loop)
    trivial rfl).snoc (a := .loop) trivial rfl).snoc (a := .loop) trivial rfl, rfl,
    fun k hk => ⟨?_, ?_⟩, ?_⟩
  · have hne : k ≠ 0 := Nat.one_le_iff_ne_zero.mp hk
    simp only [withCore, LoopCore.consume, LoopCore.goto, LoopCore.write, LoopCore.setStream,
      queuelag_core, Function.update_of_ne hne, setDsp]
  · have hne : k ≠ 0 := Nat.one_le_iff_ne_zero.mp hk
    simp only [withCore, queuelag_dsp, setDsp, Function.update_of_ne hne]
  · simp [withCore, LoopCore.consume, LoopCore.goto, LoopCore.write, LoopCore.setStream]

/-- All devices are found synchronized. -/
theorem exists_run_allsynced (hpc : s.pc = .syncTest 1)
    (hsynced : ∀ k, 1 ≤ k → k ≤ cfg.ndev → (s.dsp k).synced = true) :
    ∃ tr, Run (CoherentState.step cfg) anyStep s tr { s with pc := nextDev cfg.ndev true 1 1 } := by
  have htest : ∀ i ≤ cfg.ndev, ∃ tr,
      Run (CoherentState.step cfg) anyStep s tr { s with pc := .syncTest (i + 1) } := by
    intro i
    induction i with
    | zero => exact fun _ => ⟨[], by rw [Nat.zero_add, ← hpc]; exact .nil⟩
    | succ i ih =>
      intro hi
      obtain ⟨tr, hrun⟩ := ih (by omega)
      refine ⟨_, hrun.snoc (a := .loop) trivial ?_⟩
      simp only [step, loopStep, if_pos hi, if_pos (hsynced (i + 1) (by omega) hi)]
  obtain ⟨tr, hrun⟩ := htest cfg.ndev le_rfl
  refine ⟨_, hrun.snoc (a := .loop) trivial ?_⟩
  simp only [step, loopStep, if_neg (Nat.not_succ_le_self cfg.ndev)]

/-- The loop has come to the device after `i`, and all devices up to it have been written. -/
structure WrittenUpTo (cfg : CoherentConfig C R) (s : CoherentState C R) (i : Nat) : Prop where
  pc : s.pc = nextDev cfg.ndev true (i + 1) (i + 1)
  ready : ∀ k, i < k → k ≤ cfg.ndev → Ready (s.stream k)
  written : ∃ w ∈ s.hist.writes, w.channeln = i

theorem WrittenUpTo.next {i : Nat} (h : WrittenUpTo cfg s i) (hi : i + 1 ≤ cfg.ndev) :
    ∃ tr s', Run (CoherentState.step cfg) anyStep s tr s' ∧ WrittenUpTo cfg s' (i + 1) := by
  have hpc : s.pc = .dev true (i + 1) (i + 1) .read := by rw [h.pc, nextDev, if_pos hi]
  obtain ⟨d, hd, hr⟩ := (h.ready (i + 1) (by omega) hi).read
  have hread : s.step cfg .loop =
      some (s.withCore ((s.setStream (i + 1) d).goto (.dev true (i + 1) (i + 1) .test))) := by
    simp only [step, loopStep, hpc, devStep, hd, Option.map_some]
  have htest : (s.withCore ((s.setStream (i + 1) d).goto (.dev true (i + 1) (i + 1) .test))).step
      cfg .loop = some (s.withCore (((s.setStream (i + 1) d).foundReady (i + 1) true).goto
        (.dev true (i + 1) (i + 1) .conv))) := by
    simp [step, loopStep, devStep, withCore, LoopCore.setStream, LoopCore.goto, hr,
      LoopCore.foundReady]
  refine ⟨_, _, ((((((Run.nil.snoc trivial hread).snoc trivial htest).snoc (a := .loop) trivial
    rfl).snoc (a := .loop) trivial rfl).snoc (a := .loop) trivial rfl).snoc (a := .loop) trivial
    rfl).snoc (a := .loop) trivial rfl, rfl, fun k hk hle => ?_, ?_⟩
  · have hne : k ≠ i + 1 := by omega
    simp only [withCore, LoopCore.consume, LoopCore.goto, LoopCore.write, LoopCore.writedebug,
      LoopCore.foundReady, LoopCore.setStream, setDsp, Function.update_of_ne hne]
    exact h.ready k (by omega) hle
  · simp [withCore, LoopCore.consume, LoopCore.goto, LoopCore.write, LoopCore.writedebug,
      LoopCore.setStream, setDsp]

/-- There is a run in which the last device is written, as the channel of its number. -/
theorem exists_run_written (cfg : CoherentConfig C R) (ha : cfg.asyncbufn = 8) (noise : Bool) :
    ∃ tr s, Run (CoherentState.step cfg) anyStep (init cfg noise) tr s ∧
      ∃ w ∈ s.hist.writes, w.channeln = cfg.ndev := by
  have hwritten : ∀ i ≤ cfg.ndev, ∃ tr s,
      Run (CoherentState.step cfg) anyStep (init cfg noise) tr s ∧ WrittenUpTo cfg s i := by
    intro i
    induction i with
    | zero =>
      intro _
      obtain ⟨tr, s, hrun, hpc, hready, -⟩ := exists_run_ready ha noise (cfg.ndev + 1)
      obtain ⟨tr₁, s₁, hrun₁, hpc₁, hkeep, hw⟩ := exists_run_syncTest hpc (hready 0 (by omega)).1
      have hsynced : ∀ k, 1 ≤ k → k ≤ cfg.ndev → (s₁.dsp k).synced = true := by
        intro k hk hle
        rw [(hkeep k hk).2]
        exact (hready k (by omega)).2
      obtain ⟨tr₂, hrun₂⟩ := exists_run_allsynced hpc₁ hsynced
      refine ⟨_, _, (hrun.append hrun₁).append hrun₂, rfl, fun k hk hle => ?_, hw⟩
      show Ready (s₁.stream k)
      rw [(hkeep k hk).1]
      exact (hready k (by omega)).1
    | succ i ih =>
      intro hi
      obtain ⟨tr, s, hrun, hs⟩ := ih (by omega)
      obtain ⟨tr₁, s₁, hrun₁, hs₁⟩ := hs.next hi
      exact ⟨_, s₁, hrun.append hrun₁, hs₁⟩
  obtain ⟨tr, s, hrun, hs⟩ := hwritten cfg.ndev le_rfl
  exact ⟨tr, s, hrun, hs.written⟩

end CoherentState

/-! ## The size of the packet -/

section
variable {C R : Type*} [Field C] [Star C] [Field R] [DecidableEq R]

/-- Every channel that the loop writes is one of the packet. -/
def Started.ChannelsFit (st : Started) (cfg : CoherentConfig C R) : Prop :=
  ∀ noise tr s, Run (CoherentState.step cfg) anyStep (.init cfg noise) tr s →
    (∀ w ∈ s.hist.writes, w.channeln < st.transport.N) ∧
      ∀ w ∈ s.hist.debugs, w.channeln < st.transport.N

variable {ops : StartOps} {drv : Drivers} {names : List (List Char)} {st : Started}

theorem Started.channelsFit_iff (order : ByteOrder) (cf : ComplexFloat C) (kernels : LagKernels C R)
    (planned : LagBuffers C R) :
    st.ChannelsFit (st.coherent order cf kernels planned) ↔ st.v_devices.length < st.transport.N := by
  constructor
  · intro h
    obtain ⟨tr, s, hrun, w, hw, hc⟩ :=
      CoherentState.exists_run_written (st.coherent order cf kernels planned) rfl true
    have := (h true tr s hrun).1 w hw
    rwa [hc] at this
  · intro h noise tr s hrun
    have hle := (CoherentState.channelInv_of_run ⟨rfl, rfl, rfl⟩ hrun)
    refine ⟨fun w hw => ?_, fun w hw => ?_⟩
    · rw [(hle.1.writes w hw).channel]
      exact (channelOf_le.trans (hle.2.writes w hw)).trans_lt h
    · rw [(hle.1.debugs w hw).channel]
      exact (channelOf_le.trans (hle.2.debugs w hw)).trans_lt h

/-- The RTL-SDR path has a channel for every device. The HackRF path lacks one if the reference is not
among the names and all devices open. -/
theorem StartOps.length_lt_N_iff (hst : ops.start drv names = some st)
    (hlen : names.length + 1 < 2 ^ 32) :
    st.v_devices.length < st.transport.N ↔ ops.HackRF = false ∨ ops.refname ∈ names ∨
      ∃ k dev, (ops.configured drv names)[k]? = some dev ∧ drv.openDevice k dev ops.fs ops.fc ≠ 0 := by
  obtain ⟨hv, hn⟩ := start_eq hst
  have hconf : (ops.configured drv names).length ≤ names.length := by
    unfold configured
    split <;> exact List.length_filter_le _ _
  have hopen : (ops.openable drv 0 (ops.configured drv names)).length ≤
      (ops.configured drv names).length := openable_sublist.length_le
  have hfail : (ops.openable drv 0 (ops.configured drv names)).length <
      (ops.configured drv names).length ↔
        ∃ k dev, (ops.configured drv names)[k]? = some dev ∧ drv.openDevice k dev ops.fs ops.fc ≠ 0 := by
    rw [length_openable_lt_iff]
    simp only [Nat.zero_add]
  rw [← hfail, hv, TransportConfig.N, hn]
  cases hh : ops.HackRF with
  | false =>
    rw [if_neg nofun, UInt32.toNat_ofNat_of_lt' (by simp only [UInt32.size]; omega)]
    simp only [true_or, iff_true]
    omega
  | true =>
    rw [if_pos rfl, UInt32.toNat_ofNat_of_lt' (by simp only [UInt32.size]; omega)]
    have hfilter : (ops.configured drv names).length < names.length ↔ ops.refname ∈ names := by
      rw [configured, if_pos hh, List.length_filter_lt_length_iff_exists]
      simp
    rw [← hfilter]
    simp only [Bool.true_eq_false, false_or]
    omega

/-- For every start: all channels that the loop writes are ones of the packet if and only if there are
fewer devices than channels. Unless there are 2^32 - 1 names or more, this is so on the RTL-SDR path,
and on the HackRF path when the reference is among the names or a device does not open. -/
theorem channels_iff (hst : ops.start drv names = some st) (order : ByteOrder) (cf : ComplexFloat C)
    (kernels : LagKernels C R) (planned : LagBuffers C R) :
    (st.ChannelsFit (st.coherent order cf kernels planned) ↔
        st.v_devices.length < st.transport.N) ∧
      (names.length + 1 < 2 ^ 32 →
        (st.ChannelsFit (st.coherent order cf kernels planned) ↔
          ops.HackRF = false ∨ ops.refname ∈ names ∨
            ∃ k dev, (ops.configured drv names)[k]? = some dev ∧ drv.openDevice k dev ops.fs ops.fc ≠ 0)) :=
  ⟨st.channelsFit_iff order cf kernels planned, fun hlen =>
    (st.channelsFit_iff order cf kernels planned).trans (StartOps.length_lt_N_iff hst hlen)⟩

/-- A receiver with HackRF devices. -/
def hackrfOps : StartOps := ⟨['0'], 2000000, 95000000, 16384, false, false, false, true⟩

/-- Every device opens. -/
def allOpen : Drivers := ⟨fun _ => 0, fun _ _ _ => 0, fun _ _ _ _ => 0⟩

/-- The loop of a started receiver whose samples play no part. -/
def Started.small (st : Started) : CoherentConfig ℚ ℚ :=
  let cfg := CoherentState.smallReceiver 1 8
  st.coherent cfg.order cfg.cf cfg.kernels cfg.planned

/-- The reference and one more device are configured and open. -/
theorem channels_iff_hackrfOps :
    ∃ st, hackrfOps.start allOpen [['0'], ['1']] = some st ∧ st.v_devices = [['1']] ∧
      (st.ChannelsFit st.small ↔ st.v_devices.length < st.transport.N) ∧
      (st.ChannelsFit st.small ↔ hackrfOps.HackRF = false ∨ hackrfOps.refname ∈ [['0'], ['1']] ∨
        ∃ k dev, (hackrfOps.configured allOpen [['0'], ['1']])[k]? = some dev ∧
          allOpen.openDevice k dev hackrfOps.fs hackrfOps.fc ≠ 0) := by
  obtain ⟨st, hst, hv⟩ : ∃ st, hackrfOps.start allOpen [['0'], ['1']] = some st ∧
      st.v_devices = [['1']] := ⟨_, rfl, by decide⟩
  obtain ⟨hfit, hshort⟩ := channels_iff hst (CoherentState.smallReceiver 1 8).order
    (CoherentState.smallReceiver 1 8).cf (CoherentState.smallReceiver 1 8).kernels
    (CoherentState.smallReceiver 1 8).planned
  exact ⟨st, hst, hv, hfit, hshort (by decide)⟩

/-- The configuration cannot be read: the packet has no channel, and the reference is written as
channel 0. -/
theorem not_channels_fit :
    ¬ ∀ ops drv names st, StartOps.start ops drv names = some st → st.ChannelsFit st.small := by
  intro hall
  have hfit := hall hackrfOps allOpen [] _ rfl
  exact absurd ((Started.channelsFit_iff ..).mp hfit) (by decide)

/-! ## The order of the configuration -/

/-- The channel of a device is its place in the configuration if and only if the devices before it are
open and ready. -/
theorem channelOf_eq_place_iff {found : Nat → Nat → Bool} {t i : Nat} {devs opened : List (List Char)}
    {l₁ l₂ : List (List Char)} {dev : List Char} (hsub : opened.Sublist devs) (hn : devs.Nodup)
    (hdevs : devs = l₁ ++ dev :: l₂) (hdev : opened[i]? = some dev) :
    channelOf found t (i + 1) = l₁.length + 1 ↔
      ∀ d ∈ l₁, ∃ j, opened[j]? = some d ∧ found t (j + 1) = true := by
  subst hdevs
  have hle : i ≤ l₁.length := by
    have htake := (take_sublist_of_sublist hsub hn hdev).length_le
    have hlt := (List.getElem?_eq_some_iff.mp hdev).1
    rw [List.length_take] at htake
    omega
  rw [← kept_place_iff (p := fun j => found t (j + 1) = true) hsub hn hdev]
  have hready : channelOf found t (i + 1) = i + 1 ↔ ∀ j < i, found t (j + 1) = true := by
    rw [channelOf_eq_iff]
    constructor
    · exact fun h j hj => h (j + 1) (by omega) (by omega)
    · intro h j h₁ h₂
      obtain ⟨j, rfl⟩ : ∃ k, j = k + 1 := ⟨j - 1, by omega⟩
      exact h j (by omega)
  rw [← hready]
  have hle' : channelOf found t (i + 1) ≤ i + 1 := channelOf_le
  omega

/-- For every start with distinct signal devices, after every run: a device is written as the channel
of its place in the configuration if and only if every device configured before it is open and was
found ready in that iteration. -/
theorem channel_configured_iff (hst : ops.start drv names = some st)
    (hn : (ops.configured drv names).Nodup) {order : ByteOrder} {cf : ComplexFloat C}
    {kernels : LagKernels C R} {planned : LagBuffers C R} {noise : Bool} {tr : List CoherentAction}
    {s : CoherentState C R}
    (h : Run (CoherentState.step (st.coherent order cf kernels planned)) anyStep
      (.init (st.coherent order cf kernels planned) noise) tr s)
    {l₁ l₂ : List (List Char)} {dev : List Char} {i : Nat}
    (hdevs : ops.configured drv names = l₁ ++ dev :: l₂) (hdev : st.v_devices[i]? = some dev) :
    (∀ w ∈ s.hist.writes, w.dev = i + 1 → (w.channeln = l₁.length + 1 ↔
      ∀ d ∈ l₁, ∃ j, st.v_devices[j]? = some d ∧ s.hist.found w.iter (j + 1) = true)) ∧
    ∀ w ∈ s.hist.debugs, w.dev = i + 1 → (w.channeln = l₁.length + 1 ↔
      ∀ d ∈ l₁, ∃ j, st.v_devices[j]? = some d ∧ s.hist.found w.iter (j + 1) = true) := by
  have hi := (CoherentState.channelInv_of_run ⟨rfl, rfl, rfl⟩ h).1
  have hsub : st.v_devices.Sublist (ops.configured drv names) := by
    rw [(StartOps.start_eq hst).1]
    exact StartOps.openable_sublist
  refine ⟨fun w hw hwd => ?_, fun w hw hwd => ?_⟩
  · rw [(hi.writes w hw).channel, hwd]
    exact channelOf_eq_place_iff hsub hn hdevs hdev
  · rw [(hi.debugs w hw).channel, hwd]
    exact channelOf_eq_place_iff hsub hn hdevs hdev

/-- A receiver with RTL-SDR devices, and drivers that do not open the device `1` when `missing`. -/
def rtlsdrOps : StartOps := ⟨['0'], 2000000, 95000000, 8, false, false, false, false⟩

def threeDevices (missing : Bool) : Drivers where
  getIndexBySerial name := if name = ['0'] then 0 else if name = ['1'] then 1 else 2
  openRef _ _ _ := 0
  openDevice _ name _ _ := if missing ∧ name = ['1'] then -1 else 0

/-- The blocks that make the first `n` devices ready. -/
def startBlocks (n : Nat) : List CoherentAction :=
  .swapbuffer 0 (fun _ => 0) ::
    (List.range' 1 n).flatMap fun k => List.replicate 8 (.swapbuffer k fun _ => 0)

/-- Both devices are open and ready. -/
theorem channel_configured_iff_rtlsdrOps :
    ∃ st s, rtlsdrOps.start (threeDevices false) [['0'], ['1'], ['2']] = some st ∧
      Run (CoherentState.step st.small) anyStep (.init st.small false)
        (startBlocks 2 ++ List.replicate 24 .loop) s ∧
      s.hist.writes.map (fun w => (w.dev, w.channeln)) = [(0, 0), (1, 1), (2, 2)] ∧
      ∀ w ∈ s.hist.writes, w.dev = 2 → (w.channeln = 2 ↔
        ∀ d ∈ [['1']], ∃ j, st.v_devices[j]? = some d ∧ s.hist.found w.iter (j + 1) = true) := by
  obtain ⟨st, hst, hv, hndev⟩ : ∃ st,
      rtlsdrOps.start (threeDevices false) [['0'], ['1'], ['2']] = some st ∧
        st.v_devices = [['1'], ['2']] ∧
        (exec (CoherentState.step st.small) anyStep (.init st.small false)
          (startBlocks 2 ++ List.replicate 24 .loop)).any (fun s =>
            s.hist.writes.map (fun w => (w.dev, w.channeln)) == [(0, 0), (1, 1), (2, 2)]) = true :=
    ⟨_, rfl, by decide, by decide +kernel⟩
  obtain ⟨s, hrun, hs⟩ := Run.exists_of_exec _ _ _ _ _ hndev
  have hdevs : rtlsdrOps.configured (threeDevices false) [['0'], ['1'], ['2']] =
      [['1']] ++ ['2'] :: [] := by decide
  have hdev : st.v_devices[1]? = some ['2'] := by rw [hv]; rfl
  exact ⟨st, s, hst, hrun, by simpa using hs,
    (channel_configured_iff hst (by decide) hrun hdevs hdev).1⟩

/-- The first device does not open, and the second one is written in its place. -/
theorem not_channel_configured :
    ¬ ∀ missing tr s st,
      rtlsdrOps.start (threeDevices missing) [['0'], ['1'], ['2']] = some st →
      Run (CoherentState.step st.small) anyStep (.init st.small false) tr s →
      ∀ l₁ dev l₂ i,
        rtlsdrOps.configured (threeDevices missing) [['0'], ['1'], ['2']] = l₁ ++ dev :: l₂ →
        st.v_devices[i]? = some dev → ∀ w ∈ s.hist.writes, w.dev = i + 1 →
        w.channeln = l₁.length + 1 := by
  intro hall
  obtain ⟨st, hst, hv, hndev⟩ : ∃ st,
      rtlsdrOps.start (threeDevices true) [['0'], ['1'], ['2']] = some st ∧
        st.v_devices = [['2']] ∧
        (exec (CoherentState.step st.small) anyStep (.init st.small false)
          (startBlocks 1 ++ List.replicate 14 .loop)).any (fun s =>
            s.hist.writes.map (fun w => (w.dev, w.channeln)) == [(0, 0), (1, 1)]) = true :=
    ⟨_, rfl, by decide, by decide +kernel⟩
  obtain ⟨s, hrun, hs⟩ := Run.exists_of_exec _ _ _ _ _ hndev
  have hmem : (1, 1) ∈ s.hist.writes.map (fun w => (w.dev, w.channeln)) := by
    rw [eq_of_beq hs]
    decide
  obtain ⟨w, hw, he⟩ := List.mem_map.mp hmem
  have hplace := hall true _ s st hst hrun [['1']] ['2'] [] 0 (by decide) (by rw [hv]; rfl) w hw
    (congrArg Prod.fst he)
  have hchannel : w.channeln = 1 := congrArg Prod.snd he
  rw [hplace] at hchannel
  cases hchannel

end
end Aegir
