import Aegir.Model.Config

/-!
# What `readyaml` reads

A flat configuration is a mapping of scalars in which `parameters` is a sequence of mappings of
scalars, each with `id` as its first key. `readyaml` recovers its structure from two counters and
four flags. It finds exactly what the configuration says once every scalar is cut off at its first
NUL (`readyaml_flat`): the last `default` for each of the three numbers, and the devices in the order
of the document.
-/

namespace Aegir

/-- An entry of a mapping of scalars: the key and the value. -/
abbrev Entry := List Char × List Char

/-- A block of `parameters`: the value of `id`, which is its first key, and the other entries. -/
structure Block where
  id : List Char
  entries : List Entry

/-- The entries of the root mapping before and after `parameters`, and the blocks. -/
structure FlatConfig where
  before : List Entry
  blocks : List Block
  after : List Entry

/-! ## Events -/

/-- The events of the entries of a mapping. -/
def scalarEvents (es : List Entry) : List YamlEvent :=
  es.flatMap fun e => [.scalar e.1, .scalar e.2]

def Block.events (b : Block) : List YamlEvent :=
  .mappingStart :: scalarEvents ((chars "id", b.id) :: b.entries) ++ [.mappingEnd]

/-- The events of the document. -/
def FlatConfig.events (cfg : FlatConfig) : List YamlEvent :=
  [.streamStart, .documentStart, .mappingStart] ++ scalarEvents cfg.before ++
    [.scalar (chars "parameters"), .sequenceStart] ++ cfg.blocks.flatMap Block.events ++
    [.sequenceEnd] ++ scalarEvents cfg.after ++ [.mappingEnd, .documentEnd]

/-- The entries with every scalar cut off at its first NUL. -/
def cutEntries (es : List Entry) : List Entry := es.map (Prod.map cstring cstring)

def Block.cut (b : Block) : Block := ⟨cstring b.id, cutEntries b.entries⟩

/-! ## What a configuration says -/

/-- An entry of a block, with the `id` that holds for it. -/
structure Setting where
  id : List Char
  key : List Char
  value : List Char

/-- The entries behind `id: id` up to the end of a block; another `id` holds for those behind it. -/
def settingsFrom (id : List Char) : List Entry → List Setting
  | [] => []
  | (k, v) :: es =>
    if k = chars "id" then settingsFrom v es else ⟨id, k, v⟩ :: settingsFrom id es

/-- The `id` that holds behind the entries. -/
def idBehind (id : List Char) : List Entry → List Char
  | [] => id
  | (k, v) :: es => idBehind (if k = chars "id" then v else id) es

/-- The values of the device keys of the blocks `devices`. -/
def devicesOf (es : List Setting) : List (List Char) :=
  (es.filter fun e => e.id = chars "devices" ∧
    (e.key = chars "referencedevice" ∨ chars "signaldevice" <+: e.key)).map Setting.value

/-- The entries of a block. -/
def Block.settings (b : Block) : List Setting := settingsFrom b.id b.entries

namespace FlatConfig

/-- The entries of all blocks, in the order of the document. -/
def settings (cfg : FlatConfig) : List Setting := cfg.blocks.flatMap Block.settings

/-- The value of the last entry `key` of the blocks `id`. -/
def last (cfg : FlatConfig) (id key : String) : Option (List Char) :=
  (cfg.settings.filter fun e => e.id = chars id ∧ e.key = chars key).getLast?.map Setting.value

/-- The devices, in the order of the document. -/
def devices (cfg : FlatConfig) : List (List Char) := devicesOf cfg.settings

/-- The configuration with every scalar cut off at its first NUL. -/
def cut (cfg : FlatConfig) : FlatConfig where
  before := cutEntries cfg.before
  blocks := cfg.blocks.map Block.cut
  after := cutEntries cfg.after

end FlatConfig

/-- When `id` is not repeated, it holds for all other entries of the block. -/
theorem settingsFrom_of_notMem {id : List Char} {es : List Entry}
    (h : chars "id" ∉ es.map Prod.fst) :
    settingsFrom id es = es.map fun e => ⟨id, e.1, e.2⟩ := by
  induction es with
  | nil => rfl
  | cons e es ih =>
    simp only [List.map_cons, List.mem_cons, not_or] at h
    rw [settingsFrom, if_neg (Ne.symm h.1), ih h.2, List.map_cons]

/-- No scalar has a NUL. -/
structure FlatConfig.NulFree (cfg : FlatConfig) : Prop where
  before : ∀ e ∈ cfg.before, '\x00' ∉ e.1 ∧ '\x00' ∉ e.2
  blocks : ∀ b ∈ cfg.blocks, '\x00' ∉ b.id ∧ ∀ e ∈ b.entries, '\x00' ∉ e.1 ∧ '\x00' ∉ e.2
  after : ∀ e ∈ cfg.after, '\x00' ∉ e.1 ∧ '\x00' ∉ e.2

theorem cutEntries_of_nulFree {es : List Entry} (h : ∀ e ∈ es, '\x00' ∉ e.1 ∧ '\x00' ∉ e.2) :
    cutEntries es = es := by
  rw [cutEntries, List.map_congr_left (g := id) fun e he => ?_, List.map_id]
  exact Prod.ext (cstring_of_notMem (h e he).1) (cstring_of_notMem (h e he).2)

/-- Without NUL, nothing is cut off. -/
theorem FlatConfig.NulFree.cut_eq {cfg : FlatConfig} (h : cfg.NulFree) : cfg.cut = cfg := by
  have hblocks : cfg.blocks.map Block.cut = cfg.blocks := by
    rw [List.map_congr_left (g := id) fun b hb => ?_, List.map_id]
    rw [Block.cut, cstring_of_notMem (h.blocks b hb).1, cutEntries_of_nulFree (h.blocks b hb).2]
    rfl
  rw [cut, hblocks, cutEntries_of_nulFree h.before, cutEntries_of_nulFree h.after]

/-- The names that `readyaml` compares with. -/
theorem cstring_names : cstring (chars "parameters") = chars "parameters" ∧
    cstring (chars "id") = chars "id" ∧ cstring (chars "default") = chars "default" ∧
    cstring (chars "freq") = chars "freq" ∧ cstring (chars "samplerate") = chars "samplerate" :=
  ⟨cstring_chars (by decide), cstring_chars (by decide), cstring_chars (by decide),
    cstring_chars (by decide), cstring_chars (by decide)⟩

theorem nil_ne_parameters : [] ≠ chars "parameters" := by
  unfold chars
  decide

/-! ## The loop -/

section
variable {D : Type*} (num : NumberReader D)

/-- What an entry of a block stores in `ops`. -/
def Setting.store (ops : ClOps) (e : Setting) : ClOps :=
  if e.key = chars "default" then YamlReader.setDefault num ops e.id e.value
  else if e.id = chars "devices" ∧ e.key = chars "referencedevice" then
    { ops with refname := e.value }
  else ops

namespace YamlReader

/-- The variables after the entries of some blocks; `id` and `key` are the last ones read. -/
def accept (s : YamlReader) (es : List Setting) (id key : List Char) : YamlReader :=
  { s with ops := es.foldl (Setting.store num) s.ops
           signaldevices := s.signaldevices ++ devicesOf es
           paramId := id, lastKey := key }

variable {num} {s : YamlReader} {rest : List YamlEvent} {id key : List Char}

theorem accept_nil : s.accept num [] s.paramId s.lastKey = s := by
  simp [accept, devicesOf]

theorem accept_accept (es es' : List Setting) (id' key' : List Char) :
    (s.accept num es id key).accept num es' id' key' = s.accept num (es ++ es') id' key' := by
  simp [accept, devicesOf]

theorem itemValue_of_ne {val : List Char} (h : s.lastKey ≠ chars "id") :
    s.itemValue num val = s.accept num [⟨s.paramId, s.lastKey, val⟩] s.paramId s.lastKey := by
  have hno : ¬ (chars "default" = chars "referencedevice" ∨
      chars "signaldevice" <+: chars "default") := by
    unfold chars
    decide
  obtain ⟨ops, devs, md, sd, ip, sp, rv, iv, id, key⟩ := s
  have h : key ≠ chars "id" := h
  simp only [itemValue, accept, List.foldl_cons, List.foldl_nil, Setting.store, if_neg h]
  by_cases hdef : key = chars "default"
  · subst hdef
    simp [devicesOf, hno]
  · by_cases hdev : id = chars "devices"
    · by_cases href : key = chars "referencedevice"
      · simp [devicesOf, hdef, hdev, ← href]
      · by_cases hsig : chars "signaldevice" <+: key
        · simp [devicesOf, hdef, hdev, href, hsig]
        · simp [devicesOf, hdef, hdev, href, hsig]
    · simp [devicesOf, hdef, hdev]

theorem loop_scalarEvents_cons (e : Entry) (es : List Entry) :
    s.loop num (scalarEvents (e :: es) ++ rest) =
      ((s.scalar num (cstring e.1)).scalar num (cstring e.2)).loop num
        (scalarEvents es ++ rest) := rfl

/-- The entries of the root mapping outside of `parameters`. -/
theorem loop_root (hin : s.inParams = false) (hd : s.mappingDepth = 1) (hv : s.rootValNext = false)
    (es : List Entry) :
    ∃ saw, s.loop num (scalarEvents es ++ rest) = { s with sawParamsKey := saw }.loop num rest := by
  induction es generalizing s with
  | nil => exact ⟨s.sawParamsKey, rfl⟩
  | cons e es ih =>
    have hentry : ∃ saw, (s.scalar num (cstring e.1)).scalar num (cstring e.2) =
        { s with sawParamsKey := saw } := by
      obtain ⟨ops, devs, md, sd, ip, sp, rv, iv, id, key⟩ := s
      obtain rfl : ip = false := hin
      obtain rfl : rv = false := hv
      obtain rfl : md = 1 := hd
      by_cases hp : cstring e.1 = chars "parameters"
      · exact ⟨true, by simp [scalar, hp]⟩
      · exact ⟨sp, by simp [scalar, hp]⟩
    obtain ⟨saw, hsaw⟩ := hentry
    rw [loop_scalarEvents_cons, hsaw]
    exact ih hin hd hv

/-- The entries of a block, from a key on. -/
theorem loop_entries (hin : s.inParams = true) (hd : s.mappingDepth = 2)
    (hv : s.itemValNext = false) (es : List Entry) :
    ∃ key, s.loop num (scalarEvents es ++ rest) =
      (s.accept num (settingsFrom s.paramId (cutEntries es)) (idBehind s.paramId (cutEntries es))
        key).loop num rest := by
  induction es generalizing s with
  | nil => exact ⟨s.lastKey, congrArg (·.loop num rest) accept_nil.symm⟩
  | cons e es ih =>
    obtain ⟨ops, devs, md, sd, ip, sp, rv, iv, id, key⟩ := s
    obtain rfl : ip = true := hin
    obtain rfl : iv = false := hv
    obtain rfl : md = 2 := hd
    have hentry : ((⟨ops, devs, 2, sd, true, sp, rv, false, id, key⟩ : YamlReader).scalar num
        (cstring e.1)).scalar num (cstring e.2) =
          { YamlReader.itemValue num ⟨ops, devs, 2, sd, true, sp, rv, true, id, cstring e.1⟩
              (cstring e.2) with itemValNext := false } := by
      simp [scalar]
    rw [loop_scalarEvents_cons, hentry, cutEntries, List.map_cons, settingsFrom, idBehind,
      Prod.map_fst, Prod.map_snd]
    by_cases hid : cstring e.1 = chars "id"
    · -- from here on another `id` holds
      rw [itemValue, if_pos hid, if_pos hid, if_pos hid]
      exact ih (s := ⟨ops, devs, 2, sd, true, sp, rv, false, cstring e.2, cstring e.1⟩) rfl rfl rfl
    · rw [itemValue_of_ne hid, if_neg hid, if_neg hid]
      obtain ⟨key', h⟩ := @ih (accept num ⟨ops, devs, 2, sd, true, sp, rv, false, id,
        cstring e.1⟩ [⟨id, cstring e.1, cstring e.2⟩] id (cstring e.1)) rfl rfl rfl
      rw [accept_accept, List.singleton_append] at h
      exact ⟨key', h⟩

theorem loop_block (hin : s.inParams = true) (hd : s.mappingDepth = 1)
    (hv : s.itemValNext = false) (b : Block) :
    ∃ id key, s.loop num (b.events ++ rest) =
      (s.accept num b.cut.settings id key).loop num rest := by
  obtain ⟨ops, devs, md, sd, ip, sp, rv, iv, id, key⟩ := s
  obtain rfl : ip = true := hin
  obtain rfl : iv = false := hv
  obtain rfl : md = 1 := hd
  -- the start of the mapping resets the variables of the block
  obtain ⟨key', h⟩ := @loop_entries _ num ⟨ops, devs, 2, sd, true, sp, rv, false, [], []⟩
    (.mappingEnd :: rest) rfl rfl rfl ((chars "id", b.id) :: b.entries)
  generalize idBehind _ _ = id' at h
  rw [cutEntries, List.map_cons, settingsFrom, Prod.map_fst, cstring_names.2.1, if_pos rfl] at h
  refine ⟨id', key', ?_⟩
  rw [Block.events, List.cons_append, List.cons_append, List.append_assoc]
  exact h

/-- The blocks. -/
theorem loop_blocks (hin : s.inParams = true) (hd : s.mappingDepth = 1)
    (hv : s.itemValNext = false) (bs : List Block) :
    ∃ id key, s.loop num (bs.flatMap Block.events ++ rest) =
      (s.accept num (bs.flatMap fun b : Block => b.cut.settings) id key).loop num rest := by
  induction bs generalizing s with
  | nil => exact ⟨s.paramId, s.lastKey, congrArg (·.loop num rest) accept_nil.symm⟩
  | cons b bs ih =>
    obtain ⟨id, key, h⟩ := @loop_block _ num s (bs.flatMap Block.events ++ rest) hin hd hv b
    obtain ⟨id', key', h'⟩ := @ih (s.accept num b.cut.settings id key) hin hd hv
    rw [accept_accept] at h'
    rw [List.flatMap_cons, List.append_assoc, h]
    exact ⟨id', key', h'⟩

/-- The variables in the root mapping outside of `parameters`. -/
def atRoot (ops : ClOps) (devices : List (List Char)) (saw : Bool) (id key : List Char) :
    YamlReader :=
  ⟨ops, devices, 1, 0, false, saw, false, false, id, key⟩

/-- The variables in the sequence of the blocks, outside of each. -/
def inBlocks (ops : ClOps) (devices : List (List Char)) (id key : List Char) : YamlReader :=
  ⟨ops, devices, 1, 1, true, false, false, false, id, key⟩

theorem loop_parameters {ops : ClOps} {devices : List (List Char)} {saw : Bool} :
    (atRoot ops devices saw id key).loop num
      (.scalar (chars "parameters") :: .sequenceStart :: rest) =
        (inBlocks ops devices id key).loop num rest := by
  simp [loop, event, scalar, atRoot, inBlocks, cstring_names.1]

theorem loop_sequenceEnd {ops : ClOps} {devices : List (List Char)} :
    (inBlocks ops devices id key).loop num (.sequenceEnd :: rest) =
      (atRoot ops devices false id key).loop num rest := rfl

end YamlReader

theorem readyaml_events (ops : ClOps) (cfg : FlatConfig) (rest : List YamlEvent) :
    readyaml num ops (some (cfg.events ++ rest)) =
      (cfg.cut.settings.foldl (Setting.store num) ops, cfg.cut.devices) := by
  obtain ⟨tail, htail⟩ : ∃ tail, [.mappingEnd, .documentEnd] ++ rest = tail := ⟨_, rfl⟩
  have hsettings : (cfg.blocks.flatMap fun b : Block => b.cut.settings) = cfg.cut.settings := by
    simp [FlatConfig.settings, FlatConfig.cut, List.flatMap_map]
  have hall : ∃ saw id key, YamlReader.loop num (.init ops) (cfg.events ++ rest) =
      (YamlReader.atRoot (cfg.cut.settings.foldl (Setting.store num) ops) cfg.cut.devices saw id
        key).loop num tail := by
    obtain ⟨saw, hbefore⟩ := @YamlReader.loop_root _ num (.atRoot ops [] false [] [])
      (.scalar (chars "parameters") :: .sequenceStart :: (cfg.blocks.flatMap Block.events ++
        .sequenceEnd :: (scalarEvents cfg.after ++ tail))) rfl rfl rfl cfg.before
    obtain ⟨id, key, hblocks⟩ := @YamlReader.loop_blocks _ num (.inBlocks ops [] [] [])
      (.sequenceEnd :: (scalarEvents cfg.after ++ tail)) rfl rfl rfl cfg.blocks
    obtain ⟨saw', hafter⟩ := @YamlReader.loop_root _ num
      (.atRoot (cfg.cut.settings.foldl (Setting.store num) ops) cfg.cut.devices false id key) tail
      rfl rfl rfl cfg.after
    refine ⟨saw', id, key, ?_⟩
    calc YamlReader.loop num (.init ops) (cfg.events ++ rest)
        = (YamlReader.atRoot ops [] false [] []).loop num (scalarEvents cfg.before ++
            .scalar (chars "parameters") :: .sequenceStart :: (cfg.blocks.flatMap Block.events ++
              .sequenceEnd :: (scalarEvents cfg.after ++ tail))) := by
          rw [← htail, FlatConfig.events]
          simp only [List.append_assoc]
          rfl
      _ = (YamlReader.inBlocks ops [] [] []).loop num (cfg.blocks.flatMap Block.events ++
            .sequenceEnd :: (scalarEvents cfg.after ++ tail)) :=
          hbefore.trans YamlReader.loop_parameters
      _ = (YamlReader.atRoot (cfg.cut.settings.foldl (Setting.store num) ops) cfg.cut.devices false
            id key).loop num (scalarEvents cfg.after ++ tail) := by
          rw [hblocks, hsettings]
          exact YamlReader.loop_sequenceEnd
      _ = _ := hafter
  obtain ⟨saw, id, key, hall⟩ := hall
  rw [readyaml, hall, ← htail]
  rfl

/-- Every number is read as `1`. -/
def ones : NumberReader Unit := ⟨fun _ => 1, fun _ => (), fun _ => 1⟩

/-- Options without a `1`. -/
def zeros : ClOps := ⟨[], 0, 0, 0⟩

/-! ## The fields -/

/-- After a fold in which the elements with the property `p` set a field and no other changes it,
the field is the one that the last of them has set. -/
theorem foldl_field {σ α β : Type*} {step : σ → α → σ} {f : σ → β} {p : α → Prop} [DecidablePred p]
    {g : α → β} (h : ∀ s a, f (step s a) = if p a then g a else f s) (s : σ) (l : List α) :
    f (l.foldl step s) = ((l.filter p).getLast?.map g).getD (f s) := by
  induction l using List.reverseRecOn with
  | nil => rfl
  | append_singleton l a ih =>
    rw [List.foldl_append, List.foldl_cons, List.foldl_nil, h, List.filter_append]
    by_cases hp : p a
    · simp [hp]
    · simp [hp, ih]

/-- Some element has set the field. -/
theorem exists_foldl_field {σ α β : Type*} {step : σ → α → σ} {f : σ → β} {p : α → Prop}
    [DecidablePred p] {g : α → β} (h : ∀ s a, f (step s a) = if p a then g a else f s) (s : σ)
    {l : List α} {a : α} (ha : a ∈ l) (hp : p a) : ∃ b, f (l.foldl step s) = g b := by
  have hmem : a ∈ l.filter p := List.mem_filter.mpr ⟨ha, decide_eq_true hp⟩
  rw [foldl_field h, List.getLast?_eq_some_getLast (List.ne_nil_of_mem hmem)]
  exact ⟨_, rfl⟩

theorem names_ne : chars "freq" ≠ chars "num_samples" ∧ chars "samplerate" ≠ chars "num_samples" ∧
    chars "samplerate" ≠ chars "freq" ∧ chars "referencedevice" ≠ chars "default" := by
  unfold chars
  decide

section
variable (ops : ClOps) (e : Setting)

theorem store_blocksize : (Setting.store num ops e).blocksize =
    if e.id = chars "num_samples" ∧ e.key = chars "default" then (num.atoi e.value * 2).toUInt32
    else ops.blocksize := by
  rw [Setting.store, YamlReader.setDefault]
  split_ifs <;> simp_all

theorem store_fc : (Setting.store num ops e).fc =
    if e.id = chars "freq" ∧ e.key = chars "default" then num.toUint32 (num.atof e.value)
    else ops.fc := by
  have hne := names_ne
  rw [Setting.store, YamlReader.setDefault]
  split_ifs <;> simp_all

theorem store_fs : (Setting.store num ops e).fs =
    if e.id = chars "samplerate" ∧ e.key = chars "default" then num.toUint32 (num.atof e.value)
    else ops.fs := by
  have hne := names_ne
  rw [Setting.store, YamlReader.setDefault]
  split_ifs <;> simp_all

theorem store_refname : (Setting.store num ops e).refname =
    if e.id = chars "devices" ∧ e.key = chars "referencedevice" then e.value
    else ops.refname := by
  have hne := names_ne
  rw [Setting.store, YamlReader.setDefault]
  split_ifs <;> simp_all

end

/-- The value of the last entry `key` with this `id`. -/
def lastValue (l : List Setting) (id key : String) : Option (List Char) :=
  (l.filter fun e => e.id = chars id ∧ e.key = chars key).getLast?.map Setting.value

section
variable (ops : ClOps) (l : List Setting)

theorem foldl_blocksize : (l.foldl (Setting.store num) ops).blocksize =
    ((lastValue l "num_samples" "default").map fun v => (num.atoi v * 2).toUInt32).getD
      ops.blocksize := by
  rw [foldl_field (store_blocksize num), lastValue, Option.map_map]
  rfl

theorem foldl_fc : (l.foldl (Setting.store num) ops).fc =
    ((lastValue l "freq" "default").map fun v => num.toUint32 (num.atof v)).getD ops.fc := by
  rw [foldl_field (store_fc num), lastValue, Option.map_map]
  rfl

theorem foldl_fs : (l.foldl (Setting.store num) ops).fs =
    ((lastValue l "samplerate" "default").map fun v => num.toUint32 (num.atof v)).getD ops.fs := by
  rw [foldl_field (store_fs num), lastValue, Option.map_map]
  rfl

theorem foldl_refname : (l.foldl (Setting.store num) ops).refname =
    (lastValue l "devices" "referencedevice").getD ops.refname :=
  foldl_field (store_refname num) ops l

end

/-- What `readyaml` leaves in `ops` and returns for a flat configuration, whatever follows the
document. -/
theorem readyaml_flat (ops : ClOps) (cfg : FlatConfig) (rest : List YamlEvent) :
    let c := cfg.cut
    let r := readyaml num ops (some (cfg.events ++ rest))
    r.1.blocksize = ((c.last "num_samples" "default").map fun v => (num.atoi v * 2).toUInt32).getD
        ops.blocksize ∧
      r.1.fc = ((c.last "freq" "default").map fun v => num.toUint32 (num.atof v)).getD ops.fc ∧
      r.1.fs = ((c.last "samplerate" "default").map fun v => num.toUint32 (num.atof v)).getD ops.fs ∧
      r.1.refname = (c.last "devices" "referencedevice").getD ops.refname ∧
      r.2 = c.devices := by
  rw [readyaml_events]
  exact ⟨foldl_blocksize num ops _, foldl_fc num ops _, foldl_fs num ops _, foldl_refname num ops _,
    rfl⟩

end

/-- Two blocks of `config.yml`. -/
def shortConfig : FlatConfig where
  before := [(chars "id", chars "AegirSDR")]
  blocks := [⟨chars "freq", [(chars "dtype", chars "real"), (chars "default", chars "95.5e6")]⟩,
    ⟨chars "devices", [(chars "referencedevice", chars "1000"),
      (chars "signaldevice1", chars "1001")]⟩]
  after := []

example : readyaml (⟨fun _ => 0, id, fun v => if v = chars "95.5e6" then 95500000 else 0⟩)
    ⟨[], 1, 2, 3⟩ (some shortConfig.events) =
      (⟨chars "1000", 1, 95500000, 3⟩, [chars "1000", chars "1001"]) := by decide +kernel

/-- A reference device with the serial number `1`, NUL, `0`. -/
def nulDevice : FlatConfig where
  before := []
  blocks := [⟨chars "devices", [(chars "referencedevice", ['1', '\x00', '0'])]⟩]
  after := []

/-- Only the characters before the NUL are returned. -/
theorem not_readyaml_exact :
    ¬ ∀ (num : NumberReader Unit) ops (cfg : FlatConfig),
      (readyaml num ops (some cfg.events)).2 = cfg.devices := by
  intro h
  have hcut := congrArg Prod.snd
    (readyaml_events (⟨fun _ => 0, fun _ => (), fun _ => 0⟩) ⟨[], 0, 0, 0⟩ nulDevice [])
  rw [List.append_nil, h] at hcut
  exact absurd hcut (by decide +kernel)

end Aegir
