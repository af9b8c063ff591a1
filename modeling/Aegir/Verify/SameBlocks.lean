import Aegir.Verify.BlockEntries

/-!
# Blocks that are read in the same way

In every document `readyaml` leaves and returns the same for two blocks if and only if the last value of
each field, the devices and the last `id` in them are the same, each read with the `id` before it
(`sameRead_iff`). A document with nothing but the block tells the values and the devices. The last `id`
is told by a sequence in a mapping behind the blocks (`telling`).
-/

namespace Aegir

/-! ## The same effect -/

/-- The last values and the devices are the same. -/
structure SameValues (l l' : List Setting) : Prop where
  blocksize : lastValue l "num_samples" "default" = lastValue l' "num_samples" "default"
  fc : lastValue l "freq" "default" = lastValue l' "freq" "default"
  fs : lastValue l "samplerate" "default" = lastValue l' "samplerate" "default"
  refname : lastValue l "devices" "referencedevice" = lastValue l' "devices" "referencedevice"
  devices : devicesOf l = devicesOf l'

namespace SameValues

variable {l l' : List Setting}

theorem refl (l : List Setting) : SameValues l l := ⟨rfl, rfl, rfl, rfl, rfl⟩

theorem symm (h : SameValues l l') : SameValues l' l :=
  ⟨h.blocksize.symm, h.fc.symm, h.fs.symm, h.refname.symm, h.devices.symm⟩

theorem default (h : SameValues l l') {id : List Char}
    (hid : id = chars "num_samples" ∨ id = chars "freq" ∨ id = chars "samplerate") :
    ∃ name, id = chars name ∧ lastValue l name "default" = lastValue l' name "default" := by
  rcases hid with hid | hid | hid
  · exact ⟨_, hid, h.blocksize⟩
  · exact ⟨_, hid, h.fc⟩
  · exact ⟨_, hid, h.fs⟩

end SameValues

theorem lastValue_ne_none {l : List Setting} {e : Setting} {name key : String} (he : e ∈ l)
    (hid : e.id = chars name) (hkey : e.key = chars key) : lastValue l name key ≠ none := by
  intro hnone
  rw [lastValue, Option.map_eq_none_iff, List.getLast?_eq_none_iff] at hnone
  have hmem : e ∈ l.filter fun e => e.id = chars name ∧ e.key = chars key :=
    List.mem_filter.mpr ⟨he, decide_eq_true ⟨hid, hkey⟩⟩
  rw [hnone] at hmem
  cases hmem

/-- The names that `readyaml` compares an `id` with. -/
def idNames : List String := ["num_samples", "freq", "samplerate", "devices"]

/-- Both are the same name, or none of them. -/
def Alike (id id' : List Char) : Prop := ∀ name ∈ idNames, id = chars name ↔ id' = chars name

/-- Read in order, the entries of two blocks store the same and leave the same name. -/
structure SameStored (es es' : List Entry) : Prop where
  values : SameValues (settingsFrom [] es) (settingsFrom [] es')
  id : Alike (idBehind [] es) (idBehind [] es')

theorem eq_of_getD_only {β : Type*} {a b : β} (hab : a ≠ b) {o o' : Option (List Char)}
    (h : ∀ w, (o.map fun v => if v = w then a else b).getD b =
      (o'.map fun v => if v = w then a else b).getD b) : o = o' := by
  have hmem : ∀ {o : Option (List Char)} {w : List Char},
      (o.map fun v => if v = w then a else b).getD b = a ↔ o = some w := by
    intro o w
    cases o with
    | none => simp [hab.symm]
    | some v => simp [hab.symm]
  ext w
  rw [← hmem, h w, hmem]

theorem eq_of_getD {o o' : Option (List Char)} (h : ∀ a, o.getD a = o'.getD a) : o = o' := by
  cases o with
  | none =>
    cases o' with
    | none => rfl
    | some v => simpa using h ('x' :: v)
  | some v =>
    cases o' with
    | none => simpa using (h ('x' :: v)).symm
    | some v' => exact congrArg some (h [])

section
variable {l l' : List Setting}

theorem SameValues.foldl_eq {D : Type*} (h : SameValues l l') (num : NumberReader D) (ops : ClOps) :
    l.foldl (Setting.store num) ops = l'.foldl (Setting.store num) ops := by
  have hb := foldl_blocksize num ops l
  have hc := foldl_fc num ops l
  have hs := foldl_fs num ops l
  have hr := foldl_refname num ops l
  rw [h.blocksize, ← foldl_blocksize] at hb
  rw [h.fc, ← foldl_fc] at hc
  rw [h.fs, ← foldl_fs] at hs
  rw [h.refname, ← foldl_refname num] at hr
  generalize l.foldl (Setting.store num) ops = t at hb hc hs hr ⊢
  cases t
  simp_all

/-- Two lists of settings with the same effect on all options. -/
theorem sameValues_iff : (∀ (D : Type) (num : NumberReader D) (ops : ClOps),
    (l.foldl (Setting.store num) ops, devicesOf l) =
      (l'.foldl (Setting.store num) ops, devicesOf l')) ↔ SameValues l l' := by
  constructor
  · intro h
    have hfields : ∀ w ops, l.foldl (Setting.store (only w)) ops =
        l'.foldl (Setting.store (only w)) ops := fun w ops => congrArg Prod.fst (h _ (only w) ops)
    constructor
    · refine eq_of_getD_only (show (2 : UInt32) ≠ 0 by decide) fun w => ?_
      have hread : (fun v => ((only w).atoi v * 2).toUInt32) = fun v => if v = w then 2 else 0 := by
        funext v
        simp only [only]
        split_ifs <;> rfl
      have hb := congrArg ClOps.blocksize (hfields w zeros)
      rwa [foldl_blocksize, foldl_blocksize, hread] at hb
    · refine eq_of_getD_only (show (1 : UInt32) ≠ 0 by decide) fun w => ?_
      have hc := congrArg ClOps.fc (hfields w zeros)
      rwa [foldl_fc, foldl_fc] at hc
    · refine eq_of_getD_only (show (1 : UInt32) ≠ 0 by decide) fun w => ?_
      have hs := congrArg ClOps.fs (hfields w zeros)
      rwa [foldl_fs, foldl_fs] at hs
    · refine eq_of_getD fun a => ?_
      have hr := congrArg ClOps.refname (hfields [] ⟨a, 0, 0, 0⟩)
      rwa [foldl_refname, foldl_refname] at hr
    · exact congrArg Prod.snd (h _ ones zeros)
  · intro h D num ops
    rw [h.foldl_eq num ops, h.devices]

end

theorem Alike.refl (id : List Char) : Alike id id := fun _ _ => Iff.rfl

namespace YamlReader

variable {D : Type*} (num : NumberReader D) {s : YamlReader} {id : List Char}

theorem setDefault_alike (h : Alike s.paramId id) (ops : ClOps) (value : List Char) :
    setDefault num ops id value = setDefault num ops s.paramId value := by
  have hnum := h "num_samples" (by simp [idNames])
  have hfreq := h "freq" (by simp [idNames])
  have hrate := h "samplerate" (by simp [idNames])
  simp only [setDefault, hnum, hfreq, hrate]

theorem itemValue_alike (h : Alike s.paramId id) (value : List Char) :
    ∃ id', Alike (s.itemValue num value).paramId id' ∧
      { s with paramId := id }.itemValue num value =
        { s.itemValue num value with paramId := id' } := by
  have hdevices := h "devices" (by simp [idNames])
  simp only [itemValue, setDefault_alike num h, ← hdevices]
  split_ifs
  · exact ⟨value, .refl _, rfl⟩
  all_goals exact ⟨id, h, rfl⟩

/-- An event reads the name of the block only to compare it. -/
theorem event_alike (h : Alike s.paramId id) (e : YamlEvent) :
    ∃ id', Alike (s.event num e).paramId id' ∧
      { s with paramId := id }.event num e = { s.event num e with paramId := id' } := by
  cases e with
  | scalar value =>
    obtain ⟨id', h', hvalue⟩ := itemValue_alike num h (cstring value)
    simp only [event, scalar, hvalue]
    split_ifs <;> first | exact ⟨id, h, rfl⟩ | exact ⟨id', h', rfl⟩
  | mappingStart =>
    simp only [event]
    split_ifs
    · exact ⟨[], .refl _, rfl⟩
    · exact ⟨id, h, rfl⟩
  | sequenceStart =>
    simp only [event]
    split_ifs <;> exact ⟨id, h, rfl⟩
  | sequenceEnd =>
    simp only [event]
    split_ifs <;> exact ⟨id, h, rfl⟩
  | _ => exact ⟨id, h, rfl⟩

theorem result_loop_alike (h : Alike s.paramId id) (es : List YamlEvent) :
    ({ s with paramId := id }.loop num es).result = (s.loop num es).result := by
  induction es generalizing s id with
  | nil => rfl
  | cons e es ih =>
    have hevent : (({ s with paramId := id }.event num e).loop num es).result =
        ((s.event num e).loop num es).result := by
      obtain ⟨id', h', heq⟩ := event_alike num h e
      rw [heq, ih h']
    cases e with
    | streamEnd => rfl
    | documentEnd => rfl
    | _ => exact hevent

/-- Behind a block, neither its name nor its last key is read any more. -/
theorem result_loop_block (hv : s.itemValNext = false) (h : Alike s.paramId id) (key : List Char)
    (es : List YamlEvent) :
    ({ s with paramId := id, lastKey := key }.loop num es).result = (s.loop num es).result :=
  calc ({ s with paramId := id, lastKey := key }.loop num es).result
      = ({ s with paramId := id }.loop num es).result :=
        result_loop_lastKey (s := { s with paramId := id }) hv key
    _ = (s.loop num es).result := result_loop_alike num h es

end YamlReader

/-! ## In a document -/

namespace BlockPlace

variable {D : Type*} (num : NumberReader D) (ops : ClOps) {p : BlockPlace} {b b' : List Entry}

/-- The place of a whole block, in a document whose blocks are mappings of scalars with distinct
keys. -/
structure OfBlock (p : BlockPlace) : Prop where
  before : p.before = []
  behind : p.behind = []
  blocks : ∀ n ∈ p.blocksBefore ++ p.blocksBehind, ∃ es : List Entry,
    n = .mapping (es.map YamlNode.ofEntry) ∧ (es.map Prod.fst).Nodup

/-- At the start of a block nothing is known of it. -/
theorem reader_of_before (hbefore : p.before = []) (hin : (p.reader num ops).inParams = true) :
    (p.reader num ops).itemValNext = false ∧ (p.reader num ops).paramId = [] := by
  obtain ⟨hmapping, -⟩ := p.reader_counters num ops
  have hreader : ∃ s : YamlReader, p.reader num ops = s.event num .mappingStart := by
    rw [reader, eventsBefore, hbefore, YamlNode.entryEvents, List.append_nil, YamlReader.run_append]
    exact ⟨_, rfl⟩
  obtain ⟨s, hs⟩ := hreader
  rw [hs] at hin hmapping ⊢
  simp only [YamlReader.event] at hin hmapping ⊢
  split_ifs at hin hmapping ⊢ with hreset
  · exact ⟨rfl, rfl⟩
  · exact absurd ⟨hmapping, hin⟩ hreset

/-- Outside of the parameters no block is read. -/
theorem run_scalarEvents_of_not {s : YamlReader} (hin : s.inParams = false)
    (hmapping : s.mappingDepth = 2) (es : List Entry) : s.run num (scalarEvents es) = s := by
  have hscalar : ∀ value, s.scalar num value = s := by
    intro value
    simp [YamlReader.scalar, hin, hmapping]
  induction es with
  | nil => rfl
  | cons e es ih =>
    calc s.run num (scalarEvents (e :: es))
        = ((s.scalar num (cstring e.1)).scalar num (cstring e.2)).run num (scalarEvents es) := rfl
      _ = s := by rw [hscalar, hscalar, ih]

theorem readyaml_eq_of_sameStored (hbefore : p.before = [])
    (h : SameStored (cutEntries b) (cutEntries b')) :
    readyaml num ops (some (documentEvents (p.document (b.map YamlNode.ofEntry)))) =
      readyaml num ops (some (documentEvents (p.document (b'.map YamlNode.ofEntry)))) := by
  rw [readyaml_document, readyaml_document, YamlNode.entryEvents_ofEntry,
    YamlNode.entryEvents_ofEntry]
  cases hin : (p.reader num ops).inParams with
  | false =>
    obtain ⟨hmapping, -⟩ := p.reader_counters num ops
    rw [run_scalarEvents_of_not num hin hmapping, run_scalarEvents_of_not num hin hmapping]
  | true =>
    obtain ⟨hv, hparam⟩ := p.reader_of_before num ops hbefore hin
    have hat : p.AtKey num ops := ⟨hin, hv⟩
    obtain ⟨key, hrun⟩ := hat.inBlock.run_scalarEvents num hv b
    obtain ⟨key', hrun'⟩ := hat.inBlock.run_scalarEvents num hv b'
    rw [hparam] at hrun hrun'
    have hrun'' : (p.reader num ops).run num (scalarEvents b') =
        { (p.reader num ops).run num (scalarEvents b) with
            paramId := idBehind [] (cutEntries b'), lastKey := key' } := by
      rw [hrun, hrun', YamlReader.accept, YamlReader.accept, h.values.foldl_eq, h.values.devices]
    have hv' : ((p.reader num ops).run num (scalarEvents b)).itemValNext = false := by
      rw [hrun]
      exact hv
    have halike : Alike ((p.reader num ops).run num (scalarEvents b)).paramId
        (idBehind [] (cutEntries b')) := by
      rw [hrun]
      exact h.id
    rw [hrun'', YamlReader.result_loop_block num hv' halike]

/-- The document with nothing but the block. -/
def only : BlockPlace := ⟨[], [], [], [], [], []⟩

theorem only_ofBlock : only.OfBlock := ⟨rfl, rfl, by simp [only]⟩

theorem only_reader :
    only.reader num ops = ⟨ops, [], 2, 1, true, false, false, false, [], []⟩ := by
  simp [reader, eventsBefore, only, YamlNode.entryEvents, YamlNode.itemEvents, YamlReader.init,
    YamlReader.event, YamlReader.scalar, cstring_names.1]

theorem only_atKey : only.AtKey num ops := by
  rw [AtKey, only_reader]
  exact ⟨rfl, rfl⟩

/-- The entries of the block are read. -/
theorem run_only (b : List Entry) : ∃ key, (only.reader num ops).run num (scalarEvents b) =
    ⟨(settingsFrom [] (cutEntries b)).foldl (Setting.store num) ops,
      devicesOf (settingsFrom [] (cutEntries b)), 2, 1, true, false, false, false,
      idBehind [] (cutEntries b), key⟩ := by
  have hat := only_atKey num ops
  obtain ⟨key, hrun⟩ := hat.inBlock.run_scalarEvents num hat.2 b
  refine ⟨key, ?_⟩
  rw [hrun, only_reader]
  rfl

theorem readyaml_only (b : List Entry) :
    readyaml num ops (some (documentEvents (only.document (b.map YamlNode.ofEntry)))) =
      ((settingsFrom [] (cutEntries b)).foldl (Setting.store num) ops,
        devicesOf (settingsFrom [] (cutEntries b))) := by
  have hbehind : ∀ value, .scalar value ∉ only.eventsBehind := by
    simp [only, eventsBehind, YamlNode.entryEvents, YamlNode.itemEvents]
  obtain ⟨key, hrun⟩ := run_only num ops b
  rw [readyaml_document, YamlNode.entryEvents_ofEntry, YamlReader.loop_result hbehind, hrun]
  rfl

/-- The document with the block and, behind the blocks, a sequence in a mapping that is taken for the
blocks: its scalars are read with the name of the last block. -/
def telling (w : List Char) : BlockPlace where
  rootBefore := []
  rootBehind := [(.scalar [], .sequence [.scalar [], .scalar (chars "parameters"),
    .mapping [(.scalar [], .sequence [.scalar (chars "default"), .scalar w,
      .scalar (chars "referencedevice"), .scalar w])]])]
  blocksBefore := []
  blocksBehind := []
  before := []
  behind := []

theorem telling_ofBlock (w : List Char) : (telling w).OfBlock := ⟨rfl, rfl, by simp [telling]⟩

/-- The settings with those that are read with the name of the last block. -/
def told (es : List Entry) (w : List Char) : List Setting :=
  settingsFrom [] es ++ [⟨idBehind [] es, chars "default", w⟩,
    ⟨idBehind [] es, chars "referencedevice", w⟩]

theorem readyaml_telling {w : List Char} (hw : cstring w = w) (b : List Entry) :
    readyaml num ops (some (documentEvents ((telling w).document (b.map YamlNode.ofEntry)))) =
      ((told (cutEntries b) w).foldl (Setting.store num) ops,
        devicesOf (told (cutEntries b) w)) := by
  have hevents : (telling w).eventsBehind = [.mappingEnd, .sequenceEnd, .scalar [], .sequenceStart,
      .scalar [], .scalar (chars "parameters"), .mappingStart, .scalar [], .sequenceStart] ++
        (scalarEvents [(chars "default", w), (chars "referencedevice", w)] ++ [.sequenceEnd,
          .mappingEnd, .sequenceEnd, .mappingEnd, .documentEnd, .streamEnd]) := by
    simp [telling, eventsBehind, YamlNode.entryEvents, YamlNode.itemEvents, YamlNode.events,
      scalarEvents]
  have hsettings : ∀ id, settingsFrom id (cutEntries [(chars "default", w),
      (chars "referencedevice", w)]) = [⟨id, chars "default", w⟩, ⟨id, chars "referencedevice", w⟩] := by
    intro id
    have hdefault : cstring (chars "default") = chars "default" := cstring_chars (by decide)
    have hreference : cstring (chars "referencedevice") = chars "referencedevice" :=
      cstring_chars (by decide)
    simp [cutEntries, settingsFrom, hdefault, hreference, hw, chars_inj]
  obtain ⟨key, hrun⟩ := run_only num ops b
  have hreader : (telling w).reader num ops = only.reader num ops := rfl
  rw [readyaml_document, YamlNode.entryEvents_ofEntry, hreader, hrun, hevents]
  generalize hops : (settingsFrom [] (cutEntries b)).foldl (Setting.store num) ops = ops'
  generalize hdevices : devicesOf (settingsFrom [] (cutEntries b)) = devices
  have hstart : (⟨ops', devices, 2, 1, true, false, false, false, idBehind [] (cutEntries b), key⟩ :
      YamlReader).run num [.mappingEnd, .sequenceEnd, .scalar [], .sequenceStart, .scalar [],
        .scalar (chars "parameters"), .mappingStart, .scalar [], .sequenceStart] =
      ⟨ops', devices, 2, 2, true, false, false, false, idBehind [] (cutEntries b), key⟩ := by
    have hnil : cstring [] = [] := rfl
    simp [YamlReader.event, YamlReader.scalar, cstring_names.1, hnil, nil_ne_parameters.symm]
  obtain ⟨key', hentries⟩ := @YamlReader.loop_entries _ num ⟨ops', devices, 2, 2, true, false,
    false, false, idBehind [] (cutEntries b), key⟩ [.sequenceEnd, .mappingEnd, .sequenceEnd,
      .mappingEnd, .documentEnd, .streamEnd] rfl rfl rfl
        [(chars "default", w), (chars "referencedevice", w)]
  rw [YamlReader.loop_append (by simp) (by simp), hstart, hentries, hsettings,
    YamlReader.loop_result (by simp)]
  simp [YamlReader.result, YamlReader.accept, told, devicesOf, ← hops, ← hdevices]

end BlockPlace

/-! ## Any two blocks -/

section
variable {l l₂ : List Setting} {es es' : List Entry} {name key : String}

theorem lastValue_append : lastValue (l ++ l₂) name key =
    (lastValue l₂ name key).or (lastValue l name key) := by
  rw [lastValue, lastValue, lastValue, List.filter_append, List.getLast?_append, Option.map_or]

/-- With `w` behind, the name of the last block is told by its field. -/
theorem lastValue_told (hkey : key = "default" ∨ key = "referencedevice") (w : List Char) :
    lastValue (BlockPlace.told es w) name key =
      if idBehind [] es = chars name then some w
      else lastValue (settingsFrom [] es) name key := by
  rw [BlockPlace.told, lastValue_append]
  rcases hkey with rfl | rfl <;> split_ifs with h <;> simp [lastValue, h, chars_inj]

theorem idBehind_iff (hkey : key = "default" ∨ key = "referencedevice")
    (h : ∀ w, cstring w = w → lastValue (BlockPlace.told es w) name key =
      lastValue (BlockPlace.told es' w) name key) :
    idBehind [] es = chars name ↔ idBehind [] es' = chars name := by
  simp only [lastValue_told hkey] at h
  have hone : ∀ o : Option (List Char), ¬ ∀ w, cstring w = w → o = some w := by
    intro o ho
    have hx := (ho [] rfl).symm.trans (ho ['x'] (by decide))
    cases hx
  constructor
  · intro hid
    by_contra hid'
    refine hone (lastValue (settingsFrom [] es') name key) fun w hw => ?_
    have hw' := h w hw
    rw [if_pos hid, if_neg hid'] at hw'
    exact hw'.symm
  · intro hid'
    by_contra hid
    refine hone (lastValue (settingsFrom [] es) name key) fun w hw => ?_
    have hw' := h w hw
    rwa [if_neg hid, if_pos hid'] at hw'

theorem alike_of_told (h : ∀ w, cstring w = w →
    SameValues (BlockPlace.told es w) (BlockPlace.told es' w)) :
    Alike (idBehind [] es) (idBehind [] es') := by
  intro name hname
  simp only [idNames, List.mem_cons, List.not_mem_nil, or_false] at hname
  rcases hname with rfl | rfl | rfl | rfl
  · exact idBehind_iff (.inl rfl) fun w hw => (h w hw).blocksize
  · exact idBehind_iff (.inl rfl) fun w hw => (h w hw).fc
  · exact idBehind_iff (.inl rfl) fun w hw => (h w hw).fs
  · exact idBehind_iff (.inr rfl) fun w hw => (h w hw).refname

end

/-- In every document whose other blocks are mappings of scalars, `readyaml` leaves and returns the same
for two blocks. -/
def SameRead (b b' : List Entry) : Prop :=
  ∀ (D : Type) (num : NumberReader D) (ops : ClOps) (p : BlockPlace), p.OfBlock →
    readyaml num ops (some (documentEvents (p.document (b.map YamlNode.ofEntry)))) =
      readyaml num ops (some (documentEvents (p.document (b'.map YamlNode.ofEntry))))

theorem sameRead_iff {b b' : List Entry} :
    SameRead b b' ↔ SameStored (cutEntries b) (cutEntries b') := by
  constructor
  · intro h
    refine ⟨sameValues_iff.mp fun D num ops => ?_, alike_of_told fun w hw =>
      sameValues_iff.mp fun D num ops => ?_⟩
    · have hres := h D num ops .only BlockPlace.only_ofBlock
      rwa [BlockPlace.readyaml_only, BlockPlace.readyaml_only] at hres
    · have hres := h D num ops (.telling w) (BlockPlace.telling_ofBlock w)
      rwa [BlockPlace.readyaml_telling num ops hw, BlockPlace.readyaml_telling num ops hw] at hres
  · intro h D num ops p hp
    exact p.readyaml_eq_of_sameStored num ops hp.before h

end Aegir
