import Aegir.Verify.ReadYaml

/-!
# Documents

The nodes of a document and the events that libyaml makes of them. `run` is the part of the loop of
`readyaml` that does not end it. The events of a node are nested: they leave the two counters as they
were, and at a depth that nobody reads they leave everything.
-/

namespace Aegir

/-- A node of a document. -/
inductive YamlNode
  | alias
  | scalar (value : List Char)
  | sequence (items : List YamlNode)
  | mapping (entries : List (YamlNode × YamlNode))

namespace YamlNode

mutual

/-- The events of a node. -/
def events : YamlNode → List YamlEvent
  | .alias => [.alias]
  | .scalar value => [.scalar value]
  | .sequence items => .sequenceStart :: itemEvents items ++ [.sequenceEnd]
  | .mapping entries => .mappingStart :: entryEvents entries ++ [.mappingEnd]

/-- The events of the items of a sequence. -/
def itemEvents : List YamlNode → List YamlEvent
  | [] => []
  | n :: items => n.events ++ itemEvents items

/-- The events of the entries of a mapping. -/
def entryEvents : List (YamlNode × YamlNode) → List YamlEvent
  | [] => []
  | (key, value) :: entries => key.events ++ value.events ++ entryEvents entries

end

theorem itemEvents_append (items items' : List YamlNode) :
    itemEvents (items ++ items') = itemEvents items ++ itemEvents items' := by
  induction items with
  | nil => simp [itemEvents]
  | cons n items ih => simp [itemEvents, ih]

theorem entryEvents_append (entries entries' : List (YamlNode × YamlNode)) :
    entryEvents (entries ++ entries') = entryEvents entries ++ entryEvents entries' := by
  induction entries with
  | nil => simp [entryEvents]
  | cons e entries ih => simp [entryEvents, ih]

/-- A scalar entry. -/
def ofEntry (e : Entry) : YamlNode × YamlNode := (.scalar e.1, .scalar e.2)

theorem entryEvents_ofEntry (es : List Entry) : entryEvents (es.map ofEntry) = scalarEvents es := by
  induction es with
  | nil => simp [entryEvents, scalarEvents]
  | cons e es ih =>
    rw [List.map_cons, ofEntry, entryEvents, ih, scalarEvents, scalarEvents, List.flatMap_cons]
    simp [events]

end YamlNode

/-! ## Nested events -/

/-- The events of some nodes. -/
inductive Nested : List YamlEvent → Prop
  | nil : Nested []
  | append : Nested es → Nested es' → Nested (es ++ es')
  | aliasEvent : Nested [.alias]
  | scalarEvent (value : List Char) : Nested [.scalar value]
  | sequence : Nested es → Nested (.sequenceStart :: es ++ [.sequenceEnd])
  | mapping : Nested es → Nested (.mappingStart :: es ++ [.mappingEnd])

namespace YamlNode

mutual

theorem nested_events : (n : YamlNode) → Nested n.events
  | .alias => .aliasEvent
  | .scalar value => .scalarEvent value
  | .sequence items => .sequence (nested_itemEvents items)
  | .mapping entries => .mapping (nested_entryEvents entries)

theorem nested_itemEvents : (items : List YamlNode) → Nested (itemEvents items)
  | [] => .nil
  | n :: items => .append (nested_events n) (nested_itemEvents items)

theorem nested_entryEvents :
    (entries : List (YamlNode × YamlNode)) → Nested (entryEvents entries)
  | [] => .nil
  | (key, value) :: entries =>
    .append (.append (nested_events key) (nested_events value)) (nested_entryEvents entries)

end

end YamlNode

namespace YamlReader

variable {D : Type*} (num : NumberReader D)

/-- The loop over events that do not end it. -/
def run (s : YamlReader) (es : List YamlEvent) : YamlReader := es.foldl (event num) s

variable {num} {s : YamlReader} {e : YamlEvent} {es es' rest : List YamlEvent}

@[simp] theorem run_nil : s.run num [] = s := rfl

@[simp] theorem run_cons : s.run num (e :: es) = (s.event num e).run num es := rfl

@[simp] theorem run_append : s.run num (es ++ es') = (s.run num es).run num es' :=
  List.foldl_append

/-- Nothing in `es` ends the loop. -/
theorem loop_append (hstream : .streamEnd ∉ es) (hdocument : .documentEnd ∉ es) :
    s.loop num (es ++ rest) = (s.run num es).loop num rest := by
  induction es generalizing s with
  | nil => rfl
  | cons e es ih =>
    simp only [List.mem_cons, not_or] at hstream hdocument
    have hloop : s.loop num (e :: (es ++ rest)) = (s.event num e).loop num (es ++ rest) := by
      cases e with
      | streamEnd => exact absurd rfl hstream.1
      | documentEnd => exact absurd rfl hdocument.1
      | _ => rfl
    rw [List.cons_append, hloop, ih hstream.2 hdocument.2, run_cons]

end YamlReader

namespace Nested

variable {D : Type*} {num : NumberReader D} {s : YamlReader} {es rest : List YamlEvent}

theorem streamEnd_notMem (h : Nested es) : .streamEnd ∉ es := by
  induction h <;> simp_all

theorem documentEnd_notMem (h : Nested es) : .documentEnd ∉ es := by
  induction h <;> simp_all

theorem loop_append (h : Nested es) : s.loop num (es ++ rest) = (s.run num es).loop num rest :=
  YamlReader.loop_append h.streamEnd_notMem h.documentEnd_notMem

end Nested

/-! ## The counters -/

namespace YamlEvent

/-- What an event adds to the depth of the mappings. -/
def mappingStep : YamlEvent → Int
  | .mappingStart => 1
  | .mappingEnd => -1
  | _ => 0

/-- What an event adds to the depth of the sequences. -/
def seqStep : YamlEvent → Int
  | .sequenceStart => 1
  | .sequenceEnd => -1
  | _ => 0

end YamlEvent

theorem Nested.sum_steps {es : List YamlEvent} (h : Nested es) :
    (es.map YamlEvent.mappingStep).sum = 0 ∧ (es.map YamlEvent.seqStep).sum = 0 := by
  induction h with
  | nil => exact ⟨rfl, rfl⟩
  | append _ _ ih ih' => simp [ih, ih']
  | aliasEvent => exact ⟨rfl, rfl⟩
  | scalarEvent value => exact ⟨rfl, rfl⟩
  | sequence _ ih => simp [YamlEvent.mappingStep, YamlEvent.seqStep, ih]
  | mapping _ ih => simp [YamlEvent.mappingStep, YamlEvent.seqStep, ih]

namespace YamlReader

variable {D : Type*} {num : NumberReader D} {s : YamlReader} {e : YamlEvent}
  {es : List YamlEvent} {value : List Char}

variable (num s value) in
theorem itemValue_eq : ∃ ops devices id, s.itemValue num value =
    { s with ops := ops, signaldevices := devices, paramId := id } := by
  rw [itemValue]
  split_ifs <;> exact ⟨_, _, _, rfl⟩

variable (num s value) in
/-- A scalar leaves the counters, and it does not start or end the parameters. -/
theorem scalar_eq : ∃ ops devices saw rootVal itemVal id key, s.scalar num value =
    ⟨ops, devices, s.mappingDepth, s.seqDepth, s.inParams, saw, rootVal, itemVal, id, key⟩ := by
  obtain ⟨ops, devices, id, h⟩ := itemValue_eq num s value
  rw [scalar, h]
  split_ifs <;> exact ⟨_, _, _, _, _, _, _, rfl⟩

variable (num) in
theorem event_mappingDepth :
    (s.event num e).mappingDepth = s.mappingDepth + e.mappingStep := by
  cases e with
  | scalar value =>
    obtain ⟨_, _, _, _, _, _, _, h⟩ := scalar_eq num s (cstring value)
    simp [event, h, YamlEvent.mappingStep]
  | mappingStart =>
    simp only [event]
    split_ifs <;> rfl
  | mappingEnd => rfl
  | sequenceStart =>
    simp only [event]
    split_ifs <;> exact (add_zero _).symm
  | sequenceEnd =>
    simp only [event]
    split_ifs <;> exact (add_zero _).symm
  | _ => exact (add_zero _).symm

theorem event_seqDepth : (s.event num e).seqDepth = s.seqDepth + e.seqStep := by
  cases e with
  | scalar value =>
    obtain ⟨_, _, _, _, _, _, _, h⟩ := scalar_eq num s (cstring value)
    simp [event, h, YamlEvent.seqStep]
  | mappingStart =>
    simp only [event]
    split_ifs <;> exact (add_zero _).symm
  | sequenceStart =>
    simp only [event]
    split_ifs <;> rfl
  | sequenceEnd =>
    simp only [event]
    split_ifs <;> rfl
  | _ => exact (add_zero _).symm

theorem run_counters : (s.run num es).mappingDepth =
      s.mappingDepth + (es.map YamlEvent.mappingStep).sum ∧
    (s.run num es).seqDepth = s.seqDepth + (es.map YamlEvent.seqStep).sum := by
  induction es generalizing s with
  | nil => simp
  | cons e es ih =>
    rw [run_cons, ih.1, ih.2, event_mappingDepth, event_seqDepth]
    simp [add_assoc]

variable (num) in
theorem run_nested_counters (h : Nested es) : (s.run num es).mappingDepth = s.mappingDepth ∧
    (s.run num es).seqDepth = s.seqDepth := by
  obtain ⟨hmapping, hseq⟩ := h.sum_steps
  rw [run_counters.1, run_counters.2, hmapping, hseq]
  simp

/-! ## What is not read -/

/-- Neither a scalar nor the start of a sequence or mapping changes anything but the counters. -/
structure Idle (s : YamlReader) : Prop where
  sawParamsKey : s.sawParamsKey = false
  depth : s.inParams = false ∧ 2 ≤ s.mappingDepth ∨ 3 ≤ s.mappingDepth ∧ 1 ≤ s.seqDepth

theorem Idle.run_eq (hs : s.Idle) (h : Nested es) : s.run num es = s := by
  induction h generalizing s with
  | nil => rfl
  | append _ _ ih ih' => rw [run_append, ih hs, ih' hs]
  | aliasEvent => rfl
  | scalarEvent value =>
    have hd := hs.depth
    have hroot : ¬ (!s.inParams ∧ s.mappingDepth = 1) := by rintro ⟨_, h⟩; omega
    have hitem : ¬ (s.inParams ∧ s.mappingDepth = 2) := by
      rintro ⟨hin, h⟩
      rcases hd with ⟨hin', _⟩ | hd
      · simp [hin] at hin'
      · omega
    rw [run_cons, run_nil, event, scalar, if_neg hroot, if_neg hitem]
  | @sequence es _ ih =>
    have hstart : s.event num .sequenceStart = { s with seqDepth := s.seqDepth + 1 } := by
      simp [event, hs.sawParamsKey]
    have hin : YamlReader.Idle { s with seqDepth := s.seqDepth + 1 } :=
      ⟨hs.sawParamsKey, hs.depth.imp id fun h => ⟨h.1, by simp only; omega⟩⟩
    rw [List.cons_append, run_cons, hstart, run_append, ih hin]
    simp only [run_cons, run_nil, event, add_sub_cancel_right]
    split_ifs with hzero
    · -- only outside of the parameters can this be the last sequence to end
      rcases hs.depth with ⟨hin', _⟩ | ⟨_, h⟩
      · simp [← hin']
      · omega
    · rfl
  | @mapping es _ ih =>
    have hstart : s.event num .mappingStart = { s with mappingDepth := s.mappingDepth + 1 } := by
      have hd := hs.depth
      have hreset : ¬ (s.mappingDepth + 1 = 2 ∧ s.inParams) := by rintro ⟨h, _⟩; omega
      simp [event, hreset]
    have hin : YamlReader.Idle { s with mappingDepth := s.mappingDepth + 1 } :=
      ⟨hs.sawParamsKey, hs.depth.imp (fun h => ⟨h.1, by simp only; omega⟩)
        fun h => ⟨by simp only; omega, h.2⟩⟩
    rw [List.cons_append, run_cons, hstart, run_append, ih hin]
    simp [event]

/-- Inside of the parameters no key of the root mapping is read. -/
theorem run_sawParamsKey (hs : s.inParams = true → s.sawParamsKey = false) :
    (s.run num es).inParams = true → (s.run num es).sawParamsKey = false := by
  induction es generalizing s with
  | nil => exact hs
  | cons e es ih =>
    refine ih ?_
    cases e with
    | scalar value =>
      obtain ⟨ops, devices, id, h⟩ := itemValue_eq num s (cstring value)
      simp only [event, scalar, h]
      split_ifs with hroot <;> simp_all
    | mappingStart =>
      simp only [event]
      split_ifs <;> exact hs
    | sequenceStart =>
      simp only [event]
      split_ifs with hsaw
      · exact fun _ => rfl
      · exact fun _ => by simpa using hsaw
    | sequenceEnd =>
      simp only [event]
      split_ifs
      · exact fun h => by cases h
      · exact hs
    | _ => exact hs

end YamlReader

/-! ## The result -/

namespace YamlReader

variable {D : Type*} {num : NumberReader D} {s : YamlReader} {e : YamlEvent} {es : List YamlEvent}

/-- What `readyaml` leaves in `ops` and returns. -/
def result (s : YamlReader) : ClOps × List (List Char) := (s.ops, s.signaldevices)

theorem readyaml_eq_result (ops : ClOps) :
    readyaml num ops (some es) = ((init ops).loop num es).result := rfl

/-- Only scalars are stored. -/
theorem event_result (h : ∀ value, e ≠ .scalar value) : (s.event num e).result = s.result := by
  cases e with
  | scalar value => exact absurd rfl (h value)
  | mappingStart =>
    simp only [event]
    split_ifs <;> rfl
  | sequenceStart =>
    simp only [event]
    split_ifs <;> rfl
  | sequenceEnd =>
    simp only [event]
    split_ifs <;> rfl
  | _ => rfl

theorem loop_result (h : ∀ value, .scalar value ∉ es) : (s.loop num es).result = s.result := by
  induction es generalizing s with
  | nil => rfl
  | cons e es ih =>
    simp only [List.mem_cons, not_or] at h
    have hevent : ((s.event num e).loop num es).result = s.result :=
      (ih fun value => (h value).2).trans (event_result fun value => Ne.symm (h value).1)
    cases e with
    | streamEnd => rfl
    | documentEnd => rfl
    | _ => exact hevent

/-! ### What is read -/

/-- The entry of a block whose value an event is. -/
def setting (s : YamlReader) : YamlEvent → Option Setting
  | .scalar value =>
    if s.inParams ∧ s.mappingDepth = 2 ∧ s.itemValNext ∧ s.lastKey ≠ chars "id" then
      some ⟨s.paramId, s.lastKey, cstring value⟩
    else none
  | _ => none

/-- The entries of blocks that are read, each with the `id` that holds for it. -/
def settings (s : YamlReader) : List YamlEvent → List Setting
  | [] => []
  | e :: es => (s.setting e).toList ++ (s.event ones e).settings es

/-- The variables that decide what is read. -/
def control (s : YamlReader) : YamlReader := { s with ops := zeros, signaldevices := [] }

theorem event_control {D' : Type*} {num' : NumberReader D'} {t : YamlReader}
    (h : s.control = t.control) : (s.event num e).control = (t.event num' e).control := by
  obtain ⟨ops, devices, md, sd, ip, sp, rv, iv, id, key⟩ := s
  obtain ⟨ops', devices', md', sd', ip', sp', rv', iv', id', key'⟩ := t
  simp only [control, mk.injEq, true_and] at h
  obtain ⟨rfl, rfl, rfl, rfl, rfl, rfl, rfl, rfl⟩ := h
  cases e with
  | scalar value =>
    simp only [event, scalar, itemValue, control]
    split_ifs <;> rfl
  | mappingStart =>
    simp only [event, control]
    split_ifs <;> rfl
  | sequenceStart =>
    simp only [event, control]
    split_ifs <;> rfl
  | sequenceEnd =>
    simp only [event, control]
    split_ifs <;> rfl
  | _ => rfl

theorem settings_congr {t : YamlReader} (h : s.control = t.control) :
    s.settings es = t.settings es := by
  induction es generalizing s t with
  | nil => rfl
  | cons e es ih =>
    have hsetting : s.setting e = t.setting e := congrArg (·.setting e) h
    rw [settings, settings, hsetting, ih (event_control h)]

/-- An event stores what it is the value of. -/
theorem event_stores (num : NumberReader D) (s : YamlReader) (e : YamlEvent) :
    (s.event num e).result = ((s.setting e).toList.foldl (Setting.store num) s.ops,
      s.signaldevices ++ devicesOf (s.setting e).toList) := by
  have hnone : s.result = (([] : List Setting).foldl (Setting.store num) s.ops,
      s.signaldevices ++ devicesOf []) := by
    simp [result, devicesOf]
  cases e with
  | scalar value =>
    simp only [event, scalar, setting]
    by_cases hitem : s.inParams ∧ s.mappingDepth = 2
    · have hroot : ¬ (!s.inParams ∧ s.mappingDepth = 1) := by simp [hitem.1]
      rw [if_neg hroot, if_pos hitem]
      cases hval : s.itemValNext with
      | false => simpa [result] using hnone
      | true =>
        by_cases hid : s.lastKey = chars "id"
        · simpa [hid, itemValue, result] using hnone
        · simp [hitem, hid, itemValue_of_ne hid, accept, result]
    · have hread : ¬ (s.inParams ∧ s.mappingDepth = 2 ∧ s.itemValNext ∧ s.lastKey ≠ chars "id") :=
        fun h => hitem ⟨h.1, h.2.1⟩
      rw [if_neg hitem, if_neg hread]
      split_ifs <;> exact hnone
  | _ => exact (event_result (by simp)).trans hnone

/-- The events store what is read of them. -/
theorem run_result (num : NumberReader D) (s : YamlReader) (es : List YamlEvent) :
    (s.run num es).result = ((s.settings es).foldl (Setting.store num) s.ops,
      s.signaldevices ++ devicesOf (s.settings es)) := by
  induction es generalizing s with
  | nil => simp [result, settings, devicesOf]
  | cons e es ih =>
    have hsettings : (s.event num e).settings es = (s.event ones e).settings es :=
      settings_congr (event_control rfl)
    obtain ⟨hops, hdevices⟩ := Prod.mk.inj (event_stores num s e)
    rw [run_cons, ih, hsettings, hops, hdevices, settings]
    simp [devicesOf]

end YamlReader

/-! ## Places -/

/-- The events of a document. -/
def documentEvents (root : YamlNode) : List YamlEvent :=
  ([.streamStart, .documentStart] : List YamlEvent) ++ root.events ++ [.documentEnd, .streamEnd]

/-- A place in the root mapping of a document: the entries before it and behind it. -/
structure RootPlace where
  before : List (YamlNode × YamlNode)
  behind : List (YamlNode × YamlNode)

/-- A place in a mapping of the sequence `parameters`: the entries of the root mapping before
`parameters` and behind it, the blocks before this one and behind it, and its entries before the place
and behind it. -/
structure BlockPlace where
  rootBefore : List (YamlNode × YamlNode)
  rootBehind : List (YamlNode × YamlNode)
  blocksBefore : List YamlNode
  blocksBehind : List YamlNode
  before : List (YamlNode × YamlNode)
  behind : List (YamlNode × YamlNode)

namespace RootPlace

variable (p : RootPlace)

/-- The document with some entries at the place. -/
def document (es : List (YamlNode × YamlNode)) : YamlNode := .mapping (p.before ++ es ++ p.behind)

/-- The events before the place. -/
def eventsBefore : List YamlEvent :=
  [.streamStart, .documentStart, .mappingStart] ++ YamlNode.entryEvents p.before

/-- The events behind the place. -/
def eventsBehind : List YamlEvent :=
  YamlNode.entryEvents p.behind ++ [.mappingEnd, .documentEnd, .streamEnd]

theorem documentEvents_eq (es : List (YamlNode × YamlNode)) :
    documentEvents (p.document es) =
      p.eventsBefore ++ (YamlNode.entryEvents es ++ p.eventsBehind) := by
  simp [documentEvents, document, eventsBefore, eventsBehind, YamlNode.events,
    YamlNode.entryEvents_append]

variable {D : Type*} (num : NumberReader D) (ops : ClOps)

/-- The variables at the place. -/
def reader : YamlReader := (YamlReader.init ops).run num p.eventsBefore

theorem reader_counters :
    (p.reader num ops).mappingDepth = 1 ∧ (p.reader num ops).seqDepth = 0 := by
  obtain ⟨hmapping, hseq⟩ := (YamlNode.nested_entryEvents p.before).sum_steps
  rw [reader, YamlReader.run_counters.1, YamlReader.run_counters.2]
  simp [eventsBefore, YamlReader.init, YamlEvent.mappingStep, YamlEvent.seqStep, hmapping, hseq]

theorem readyaml_document (es : List (YamlNode × YamlNode)) :
    readyaml num ops (some (documentEvents (p.document es))) =
      (((p.reader num ops).run num (YamlNode.entryEvents es)).loop num p.eventsBehind).result := by
  have hbefore := YamlNode.nested_entryEvents p.before
  have hes := YamlNode.nested_entryEvents es
  rw [YamlReader.readyaml_eq_result, documentEvents_eq, YamlReader.loop_append, hes.loop_append, reader]
  · simp [eventsBefore, hbefore.streamEnd_notMem]
  · simp [eventsBefore, hbefore.documentEnd_notMem]

end RootPlace

namespace BlockPlace

variable (p : BlockPlace)

/-- The document with some entries at the place. -/
def document (es : List (YamlNode × YamlNode)) : YamlNode :=
  .mapping (p.rootBefore ++ (.scalar (chars "parameters"), .sequence (p.blocksBefore ++
    .mapping (p.before ++ es ++ p.behind) :: p.blocksBehind)) :: p.rootBehind)

/-- The events before the place. -/
def eventsBefore : List YamlEvent :=
  [.streamStart, .documentStart, .mappingStart] ++ YamlNode.entryEvents p.rootBefore ++
    [.scalar (chars "parameters"), .sequenceStart] ++ YamlNode.itemEvents p.blocksBefore ++
    [.mappingStart] ++ YamlNode.entryEvents p.before

/-- The events behind the place. -/
def eventsBehind : List YamlEvent :=
  YamlNode.entryEvents p.behind ++ [.mappingEnd] ++ YamlNode.itemEvents p.blocksBehind ++
    [.sequenceEnd] ++ YamlNode.entryEvents p.rootBehind ++ [.mappingEnd, .documentEnd, .streamEnd]

theorem documentEvents_eq (es : List (YamlNode × YamlNode)) :
    documentEvents (p.document es) =
      p.eventsBefore ++ (YamlNode.entryEvents es ++ p.eventsBehind) := by
  simp [documentEvents, document, eventsBefore, eventsBehind, YamlNode.events,
    YamlNode.entryEvents, YamlNode.itemEvents, YamlNode.entryEvents_append,
    YamlNode.itemEvents_append]

variable {D : Type*} (num : NumberReader D) (ops : ClOps)

/-- The variables at the place. -/
def reader : YamlReader := (YamlReader.init ops).run num p.eventsBefore

theorem reader_counters :
    (p.reader num ops).mappingDepth = 2 ∧ (p.reader num ops).seqDepth = 1 := by
  obtain ⟨hmapping, hseq⟩ := (YamlNode.nested_entryEvents p.rootBefore).sum_steps
  obtain ⟨hmapping', hseq'⟩ := (YamlNode.nested_itemEvents p.blocksBefore).sum_steps
  obtain ⟨hmapping'', hseq''⟩ := (YamlNode.nested_entryEvents p.before).sum_steps
  rw [reader, YamlReader.run_counters.1, YamlReader.run_counters.2]
  simp [eventsBefore, YamlReader.init, YamlEvent.mappingStep, YamlEvent.seqStep, hmapping, hseq,
    hmapping', hseq', hmapping'', hseq'']

theorem readyaml_document (es : List (YamlNode × YamlNode)) :
    readyaml num ops (some (documentEvents (p.document es))) =
      (((p.reader num ops).run num (YamlNode.entryEvents es)).loop num p.eventsBehind).result := by
  have hroot := YamlNode.nested_entryEvents p.rootBefore
  have hblocks := YamlNode.nested_itemEvents p.blocksBefore
  have hbefore := YamlNode.nested_entryEvents p.before
  have hes := YamlNode.nested_entryEvents es
  rw [YamlReader.readyaml_eq_result, documentEvents_eq, YamlReader.loop_append, hes.loop_append, reader]
  · simp [eventsBefore, hroot.streamEnd_notMem, hblocks.streamEnd_notMem, hbefore.streamEnd_notMem]
  · simp [eventsBefore, hroot.documentEnd_notMem, hblocks.documentEnd_notMem,
      hbefore.documentEnd_notMem]

end BlockPlace
end Aegir
