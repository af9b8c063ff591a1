import Aegir.Model.Main
import Aegir.Verify.YamlDocuments

/-!
# The command line and the configuration file

Whatever the file contains, and although `main` parses the command line twice and the first parse moves
the arguments, each setting is the one of the last option that sets it, or else of the last entry of the
file, or else the default (`main_eq`). The requested numbers of devices are different: the least one
counts, and it limits nothing. What is started depends on a few of the options only
(`started_of_main`).
-/

namespace Aegir

variable {D : Type*} (num : NumberReader D)

/-! ## The entries of the file -/

namespace YamlEvent

/-- The events that end the loop of `readyaml`. -/
def ends : YamlEvent → Bool
  | .streamEnd | .documentEnd => true
  | _ => false

end YamlEvent

namespace YamlReader

/-- The entries that `readyaml` reads. -/
def fileSettings : Option (List YamlEvent) → List Setting
  | none => []
  | some es => (init zeros).settings (es.takeWhile (!·.ends))

theorem loop_eq_run {s : YamlReader} {es : List YamlEvent} :
    s.loop num es = s.run num (es.takeWhile (!·.ends)) := by
  induction es generalizing s with
  | nil => rfl
  | cons e es ih =>
    cases e with
    | streamEnd => rfl
    | documentEnd => rfl
    | _ => exact ih

theorem readyaml_eq (ops : ClOps) (file : Option (List YamlEvent)) :
    readyaml num ops file =
      ((fileSettings file).foldl (Setting.store num) ops, devicesOf (fileSettings file)) := by
  cases file with
  | none => rfl
  | some es =>
    have hread : (init ops).settings (es.takeWhile (!·.ends)) = fileSettings (some es) :=
      settings_congr rfl
    rw [readyaml_eq_result, loop_eq_run, run_result, hread]
    rfl

end YamlReader

namespace CommandOps

/-! ## The options -/

/-- What an option `c` is given. -/
def arg (c : Char) : Getopt → Option (List Char)
  | .option c' optarg => if c' = c then some optarg else none
  | .error => none

/-- What a valid option `w` sets. -/
def wireformat (g : Getopt) : Option Bool :=
  (arg 'w' g).bind fun v =>
    if num.atoi v = 8 then some false else if num.atoi v = 32 then some true else none

/-- The number of devices behind an option. -/
def lower (ndev : Int32) (g : Getopt) : Int32 :=
  match arg 'n' g with
  | some v => if (num.atoi v).toUInt32 ≤ ndev.toUInt32 then num.atoi v else ndev
  | none => ndev

variable {num} {ops ops' : CommandOps} {given given' : List Getopt} {g : Getopt}

variable (num) in
/-- The settings with those of the options in their place, the last option of each kind. -/
def overriddenBy (ops : CommandOps) (given : List Getopt) : CommandOps :=
  let last c := lastOf (arg c) given
  let flag c old := (last c).isSome || old
  { refname := (last 'I').getD ops.refname
    fs := ((last 's').map fun v => num.toUint32 (num.atof v)).getD ops.fs
    fc := ((last 'f').map fun v => num.toUint32 (num.atof v)).getD ops.fc
    blocksize := ((last 'b').map fun v => (num.atoi v).toUInt32).getD ops.blocksize
    agc := flag 'A' ops.agc
    ndev := given.foldl (lower num) ops.ndev
    gain := ((last 'g').map fun v => (num.atoi v).toUInt32 * 10).getD ops.gain
    refgain := ((last 'r').map fun v => (num.atoi v).toUInt32 * 10).getD ops.refgain
    no_header := flag 'R' ops.no_header
    config_fname := (last 'C').getD ops.config_fname
    use_cfg := flag 'C' ops.use_cfg
    quiet := flag 'q' ops.quiet
    rowmajor := flag 'm' ops.rowmajor
    use32bitfloat := (lastOf (wireformat num) given).getD ops.use32bitfloat
    krakensdr := flag 'K' ops.krakensdr
    krakenbiastee := flag 'B' ops.krakenbiastee
    HackRF := flag 'H' ops.HackRF
    daemon := flag 'D' ops.daemon }

/-- The options that end in `usage`. -/
def usage : Getopt → Bool
  | .option c _ => c = 'h'
  | .error => true

theorem option_eq (hletter : ∀ c v, g = .option c v → (Getopt.optionKind optstring c).isSome)
    (hu : usage g = false) : option num ops g = some (ops.overriddenBy num [g]) := by
  unfold option
  split <;> try rfl
  · cases hu
  · -- the wire format, which may be unknown
    rename_i optarg
    have hwire : (lastOf (wireformat num) [.option 'w' optarg]).getD ops.use32bitfloat =
        if num.atoi optarg = 8 then false
        else if num.atoi optarg = 32 then true
        else ops.use32bitfloat := by
      simp only [lastOf, List.filterMap_cons, List.filterMap_nil, wireformat, arg, if_true,
        Option.bind_some]
      split_ifs <;> rfl
    rw [overriddenBy, hwire]
    rfl
  · -- there is no other letter
    cases g with
    | error => cases hu
    | option c v =>
      obtain ⟨hmem, hcolon⟩ := Getopt.mem_of_optionKind (hletter c v rfl)
      unfold optstring chars at hmem
      simp_all

theorem option_eq_none (hu : usage g = true) : option num ops g = none := by
  cases g with
  | error => rfl
  | option c v =>
    obtain rfl : c = 'h' := of_decide_eq_true hu
    rfl

theorem overriddenBy_append :
    ops.overriddenBy num (given ++ given') = (ops.overriddenBy num given).overriddenBy num given' := by
  simp only [overriddenBy, lastOf_append, List.foldl_append, Option.map_or, Option.getD_or,
    Option.isSome_or, Bool.or_assoc]

/-- The loop of `parsecommandline`. -/
theorem foldlM_option (hletter : ∀ c v, .option c v ∈ given → (Getopt.optionKind optstring c).isSome) :
    given.foldlM (option num) ops =
      if given.any usage then none else some (ops.overriddenBy num given) := by
  induction given generalizing ops with
  | nil => rfl
  | cons g given ih =>
    rw [List.foldlM_cons, List.any_cons]
    cases hu : usage g with
    | true => rw [option_eq_none hu]; rfl
    | false =>
      have hg : ∀ c v, g = .option c v → (Getopt.optionKind optstring c).isSome :=
        fun c v h => hletter c v (h ▸ List.mem_cons_self)
      have hrest : ∀ c v, .option c v ∈ given → (Getopt.optionKind optstring c).isSome :=
        fun c v h => hletter c v (List.mem_cons_of_mem _ h)
      rw [option_eq hg hu, Option.bind_eq_bind, Option.bind_some, ih hrest, ← overriddenBy_append]
      rfl

/-! ## The two passes -/

/-- What the calls of `getopt` return for the arguments. -/
def optionsOf (args : List (List Char)) : List Getopt := Getopt.scan optstring none args

variable {args args' : List (List Char)}

theorem parsecommandline_eq : parsecommandline num ops args =
    if (optionsOf args).any usage then none
    else some (ops.overriddenBy num (optionsOf args), Getopt.permute optstring none [] args) := by
  have hletter : ∀ c v, .option c v ∈ optionsOf args → (Getopt.optionKind optstring c).isSome :=
    fun c v h => Getopt.mem_scan (fun _ h => by cases h) h
  rw [parsecommandline, ← optionsOf, foldlM_option hletter]
  split <;> rfl

/-- The second pass sees the options of the first one. -/
theorem optionsOf_permute (h : (optionsOf args).any usage = false) :
    optionsOf (Getopt.permute optstring none [] args) = optionsOf args :=
  Getopt.scan_permute (fun _ h => by cases h) fun herr => by
    simpa [usage] using List.any_eq_false.mp h _ herr

/-- The file that is read. -/
def configName (given : List Getopt) : List Char :=
  (lastOf (arg 'C') given).getD
    (if (lastOf (arg 'H') given).isSome then chars "confighackrf.yml" else chars "config.yml")

/-- The numbers of devices that are requested. -/
def requested (num : NumberReader D) (g : Getopt) : Option UInt32 :=
  (arg 'n' g).map fun v => (num.atoi v).toUInt32

/-- What the options, the entries of the file and the defaults say, in this order, where `count`
devices are connected. -/
def ofSources (num : NumberReader D) (given : List Getopt) (file : List Setting) (count : UInt32) :
    CommandOps :=
  let last c := lastOf (arg c) given
  { refname := ((last 'I').or (lastValue file "devices" "referencedevice")).getD (chars "1000")
    fs := (((last 's').or (lastValue file "samplerate" "default")).map fun v =>
      num.toUint32 (num.atof v)).getD 2000000
    fc := (((last 'f').or (lastValue file "freq" "default")).map fun v =>
      num.toUint32 (num.atof v)).getD 95000000
    blocksize :=
      if (last 'H').isSome then 262144
      else (((last 'b').map fun v => (num.atoi v).toUInt32).or
        ((lastValue file "num_samples" "default").map fun v => (num.atoi v * 2).toUInt32)).getD 16384
    agc := (last 'A').isSome
    ndev := ((given.filterMap (requested num)).foldl min count).toInt32
    gain := ((last 'g').map fun v => (num.atoi v).toUInt32 * 10).getD 100
    refgain := ((last 'r').map fun v => (num.atoi v).toUInt32 * 10).getD 100
    no_header := (last 'R').isSome
    config_fname := (last 'C').getD []
    use_cfg := (last 'C').isSome
    quiet := (last 'q').isSome
    rowmajor := (last 'm').isSome
    use32bitfloat := (lastOf (wireformat num) given).getD false
    krakensdr := (last 'K').isSome
    krakenbiastee := (last 'B').isSome
    HackRF := (last 'H').isSome
    daemon := (last 'D').isSome }

theorem foldl_lower {count : UInt32} :
    given.foldl (lower num) count.toInt32 = ((given.filterMap (requested num)).foldl min count).toInt32 := by
  induction given generalizing count with
  | nil => rfl
  | cons g given ih =>
    rw [List.foldl_cons, List.filterMap_cons, lower, requested]
    cases arg 'n' g with
    | none => exact ih
    | some v =>
      have hmin : (if (num.atoi v).toUInt32 ≤ count.toInt32.toUInt32 then num.atoi v else count.toInt32) =
          (min count (num.atoi v).toUInt32).toInt32 := by
        have hdef : min count (num.atoi v).toUInt32 =
            if count ≤ (num.atoi v).toUInt32 then count else (num.atoi v).toUInt32 := rfl
        rw [UInt32.toUInt32_toInt32]
        rcases UInt32.le_total (num.atoi v).toUInt32 count with hle | hle
        · rw [if_pos hle, hdef]
          split_ifs with hle'
          · rw [UInt32.le_antisymm hle' hle, Int32.toInt32_toUInt32]
          · rw [Int32.toInt32_toUInt32]
        · rw [hdef, if_pos hle]
          split_ifs with hle'
          · rw [← UInt32.le_antisymm hle' hle, Int32.toInt32_toUInt32]
          · rfl
      simp only [hmin, ih, Option.map_some, List.foldl_cons]

/-- What `main` makes of the options, and of the file that they name. -/
def settled (num : NumberReader D) (host : Host) (given : List Getopt) : CommandOps :=
  ofSources num given (YamlReader.fileSettings (host.files (configName given)))
    (if (lastOf (arg 'H') given).isSome then host.hackrfCount else host.rtlsdrCount)

variable {host : Host}

/-- The name that KrakenSDR implies is the default, and gives way to the other sources as well. -/
theorem refname_eq {name option : Option (List Char)} {kraken : Bool} :
    option.getD (name.getD (if kraken then chars "1000" else option.getD (chars "1000"))) =
      (option.or name).getD (chars "1000") := by
  cases option <;> simp

theorem configFile_detect :
    ((init.overriddenBy num given).detect host).configFile = configName given := by
  simp only [configFile, detect, overriddenBy, init, configName, Bool.or_false]
  generalize lastOf (arg 'C') given = name
  cases name <;> rfl

/-- The options, the file, and the options again. -/
theorem settled_eq :
    ((((init.overriddenBy num given).detect host).readConfig num host).1.overriddenBy num
      given).setBlocksize = settled num host given := by
  simp only [readConfig, YamlReader.readyaml_eq, configFile_detect]
  simp only [overriddenBy, detect, init, settled, ofSources, setBlocksize, foldl_fs, foldl_fc,
    foldl_blocksize, foldl_refname, Bool.or_false, Bool.or_self, refname_eq, foldl_lower, getD_getD,
    getD_getD_getD, Option.map_or]

/-- The signal devices of the file. -/
def namesOf (host : Host) (given : List Getopt) : List (List Char) :=
  devicesOf (YamlReader.fileSettings (host.files (configName given)))

theorem namesOf_eq :
    (((init.overriddenBy num given).detect host).readConfig num host).2 = namesOf host given := by
  rw [readConfig, YamlReader.readyaml_eq, configFile_detect, namesOf]

theorem main_of_usage (h : (optionsOf args).any usage = true) : main num host args = none := by
  rw [main, parsecommandline_eq, if_pos h]
  rfl

theorem main_of_options (h : (optionsOf args).any usage = false) :
    main num host args =
      ((settled num host (optionsOf args)).startOps.start host.drivers (namesOf host (optionsOf args))).map
        (⟨settled num host (optionsOf args), ·⟩) := by
  have hu : ¬(optionsOf args).any usage = true := by simp [h]
  have hfirst : parsecommandline num init args =
      some (init.overriddenBy num (optionsOf args), Getopt.permute optstring none [] args) := by
    rw [parsecommandline_eq, if_neg hu]
  have hsecond : ∀ ops, parsecommandline num ops (Getopt.permute optstring none [] args) =
      some (ops.overriddenBy num (optionsOf args),
        Getopt.permute optstring none [] (Getopt.permute optstring none [] args)) := fun ops => by
    rw [parsecommandline_eq, optionsOf_permute h, if_neg hu]
  simp only [main, hfirst, hsecond, Option.bind_eq_bind, Option.bind_some, settled_eq, namesOf_eq]
  rw [Option.map_eq_bind]
  rfl

/-- What `main` has started. -/
theorem main_eq_some {l : Launched} (h : main num host args = some l) :
    l.ops = settled num host (optionsOf args) ∧
      l.ops.startOps.start host.drivers (namesOf host (optionsOf args)) = some l.started := by
  cases hu : (optionsOf args).any usage with
  | true => cases h.symm.trans (main_of_usage hu)
  | false =>
    rw [main_of_options hu] at h
    obtain ⟨started, hst, rfl⟩ := Option.map_eq_some_iff.mp h
    exact ⟨rfl, hst⟩

/-- `main` in one pass: `usage` ends it, or everything is set as `ofSources` says, and started so. -/
theorem main_eq : main num host args =
    if (optionsOf args).any usage then none
    else ((settled num host (optionsOf args)).startOps.start host.drivers
      (namesOf host (optionsOf args))).map (⟨settled num host (optionsOf args), ·⟩) := by
  split_ifs with h
  · exact main_of_usage h
  · exact main_of_options (Bool.eq_false_iff.mpr h)

/-! ## The options that matter -/

/-- The options on which the transport and the device vector depend, `-s` and `-f` because a device does
not open if its driver refuses the rate or the frequency. -/
def matters : Getopt → Bool
  | .option c _ => c ∈ ['I', 's', 'f', 'b', 'w', 'm', 'R', 'C', 'H']
  | .error => false

theorem arg_of_not_matters {c : Char} (hc : ∀ v, matters (.option c v) = true) (g : Getopt)
    (h : matters g = false) : arg c g = none := by
  cases g with
  | error => rfl
  | option c' v =>
    have hne : c' ≠ c := by
      rintro rfl
      cases h.symm.trans (hc v)
    rw [arg, if_neg hne]

section
variable (hm : given.filter matters = given'.filter matters)
include hm

theorem lastOf_arg (c : Char) (hc : ∀ v, matters (.option c v) = true) :
    lastOf (arg c) given = lastOf (arg c) given' := by
  have hnot := arg_of_not_matters hc
  rw [← lastOf_filter hnot, hm, lastOf_filter hnot]

theorem lastOf_wireformat : lastOf (wireformat num) given = lastOf (wireformat num) given' := by
  have hnot : ∀ g, matters g = false → wireformat num g = none := fun g hg => by
    rw [wireformat, arg_of_not_matters (fun _ => rfl) g hg, Option.bind_none]
  rw [← lastOf_filter hnot, hm, lastOf_filter hnot]

theorem configName_congr : configName given = configName given' := by
  rw [configName, configName, lastOf_arg hm 'C' fun _ => rfl, lastOf_arg hm 'H' fun _ => rfl]

theorem startOps_settled (m n : UInt32) :
    (settled num host given).startOps =
      (settled num { host with hackrfCount := m, rtlsdrCount := n } given').startOps := by
  have hwire : lastOf (wireformat num) given = lastOf (wireformat num) given' := lastOf_wireformat hm
  simp only [settled, ofSources, startOps, configName_congr hm, hwire, lastOf_arg hm 'I' fun _ => rfl,
    lastOf_arg hm 's' fun _ => rfl, lastOf_arg hm 'f' fun _ => rfl, lastOf_arg hm 'b' fun _ => rfl,
    lastOf_arg hm 'm' fun _ => rfl, lastOf_arg hm 'R' fun _ => rfl, lastOf_arg hm 'H' fun _ => rfl]

end

/-- What is started is the same without the options that do not matter, among them `-n`, and whatever
number of devices is found. -/
theorem started_of_main (h : (optionsOf args).any usage = false)
    (h' : (optionsOf args').any usage = false)
    (hm : (optionsOf args).filter matters = (optionsOf args').filter matters) (m n : UInt32) :
    (main num host args).map (·.started) =
      (main num { host with hackrfCount := m, rtlsdrCount := n } args').map (·.started) := by
  have hnames : namesOf host (optionsOf args) =
      namesOf { host with hackrfCount := m, rtlsdrCount := n } (optionsOf args') := by
    rw [namesOf, namesOf, configName_congr hm]
  rw [main_of_options h, main_of_options h', startOps_settled hm m n, hnames, Option.map_map,
    Option.map_map]
  rfl

/-- Decimal digits. -/
def decimal : NumberReader ℕ where
  atoi l := .ofNat (l.foldl (fun n c => 10 * n + (c.toNat - 48)) 0)
  atof l := l.foldl (fun n c => 10 * n + (c.toNat - 48)) 0
  toUint32 := .ofNat

/-- The reference and one signal device, both connected, which refuse low sample rates. -/
def twoDongles : Host where
  hackrfCount := 0
  rtlsdrCount := 2
  files fname :=
    if fname = chars "config.yml" then
      some (documentEvents (.mapping [(.scalar (chars "parameters"), .sequence [.mapping
        [(.scalar (chars "id"), .scalar (chars "devices")),
          (.scalar (chars "referencedevice"), .scalar (chars "1000")),
          (.scalar (chars "signaldevice1"), .scalar (chars "1001"))]])]))
    else none
  drivers :=
    { getIndexBySerial name := if name = chars "1000" then 0 else 1
      openRef _ fs _ := if fs ≤ 225000 then -22 else 0
      openDevice _ _ fs _ := if fs ≤ 225000 then -22 else 0 }

/-- `-n 0` does not keep the signal device from being opened; with `-s 100` nothing is started. -/
theorem started_of_main_none :
    (main decimal twoDongles []).map (·.started.v_devices) = some [chars "1001"] ∧
      (main decimal twoDongles [['-', 'n'], ['0']]).map (·.started) =
        (main decimal twoDongles []).map (·.started) ∧
      (main decimal twoDongles [['-', 's'], chars "100"]).isNone = true :=
  ⟨by decide +kernel,
    started_of_main (by decide +kernel) (by decide +kernel) (by decide +kernel) 0 2,
    by decide +kernel⟩

end CommandOps
end Aegir
