import Aegir.Verify.YamlDocuments

/-!
# Entries of a block

In a block only scalars flip the flag that tells keys from values, and `readyaml` does not see which of
them belong to a value. An entry with an unused key is skipped if and only if the scalars of its value
outside of mappings are a value, followed by entries with unused keys (`SkippedInBlock`).
-/

namespace Aegir

/-- The keys that `readyaml` looks for in a block. -/
def UsedInBlock (key : List Char) : Prop :=
  cstring key = chars "id" ∨ cstring key = chars "default" ∨ cstring key = chars "referencedevice" ∨
    chars "signaldevice" <+: cstring key

/-- Scalars in pairs; a last one without a partner is left out. -/
def pairs : List (List Char) → List Entry
  | key :: value :: vs => (key, value) :: pairs vs
  | _ => []

theorem length_cons_cons_even {α : Type*} {a b : α} {l : List α} :
    (a :: b :: l).length % 2 = 0 ↔ l.length % 2 = 0 := by
  rw [List.length_cons, List.length_cons]
  omega

/-- Induction on a list of pairs. -/
theorem evenLength_induction {α : Type*} {P : (l : List α) → l.length % 2 = 0 → Prop}
    (nil : P [] rfl)
    (cons : ∀ a b l h, P l h → P (a :: b :: l) (length_cons_cons_even.mpr h)) :
    ∀ l h, P l h
  | [], _ => nil
  | [_], h => by simp at h
  | a :: b :: l, h =>
    cons a b l (length_cons_cons_even.mp h)
      (evenLength_induction nil cons l (length_cons_cons_even.mp h))

theorem scalarEvents_pairs {vs : List (List Char)} (h : vs.length % 2 = 0) :
    scalarEvents (pairs vs) = vs.map .scalar := by
  induction vs, h using evenLength_induction with
  | nil => rfl
  | cons key value vs _ ih =>
    rw [pairs, scalarEvents, List.flatMap_cons, ← scalarEvents, ih]
    rfl

theorem pairs_append {vs : List (List Char)} (h : vs.length % 2 = 0) (ws : List (List Char)) :
    pairs (vs ++ ws) = pairs vs ++ pairs ws := by
  induction vs, h using evenLength_induction with
  | nil => rfl
  | cons key value vs _ ih => simp only [List.cons_append, pairs, ih]

namespace YamlNode

mutual

/-- The scalars of a node outside of its mappings. -/
def outside : YamlNode → List (List Char)
  | .alias => []
  | .scalar value => [value]
  | .sequence items => outsideItems items
  | .mapping _ => []

def outsideItems : List YamlNode → List (List Char)
  | [] => []
  | n :: items => n.outside ++ outsideItems items

end

/-- The scalars outside of the mappings are a value, followed by entries with unused keys. -/
structure SkippedInBlock (n : YamlNode) : Prop where
  odd : n.outside.length % 2 = 1
  unused : ∀ e ∈ pairs n.outside.tail, ¬ UsedInBlock e.1

end YamlNode

namespace YamlReader

variable {D : Type*} {num : NumberReader D} {s : YamlReader} {es : List YamlEvent}

/-! ## In a block -/

variable (num) in
/-- An event behind a value replaces the last key or does not look at it. -/
theorem event_lastKey (hv : s.itemValNext = false) (key : List Char) (e : YamlEvent) :
    { s with lastKey := key }.event num e = s.event num e ∨
      (s.event num e).itemValNext = false ∧
        { s with lastKey := key }.event num e = { s.event num e with lastKey := key } := by
  obtain ⟨ops, devices, md, sd, ip, saw, rv, iv, id, key'⟩ := s
  obtain rfl : iv = false := hv
  cases e with
  | scalar value =>
    simp only [event, scalar, Bool.not_false, reduceIte]
    split_ifs <;> first | exact .inl rfl | exact .inr ⟨rfl, rfl⟩
  | mappingStart =>
    simp only [event]
    split_ifs
    · exact .inl rfl
    · exact .inr ⟨rfl, rfl⟩
  | sequenceStart =>
    simp only [event]
    split_ifs <;> exact .inr ⟨rfl, rfl⟩
  | sequenceEnd =>
    simp only [event]
    split_ifs <;> exact .inr ⟨rfl, rfl⟩
  | _ => exact .inr ⟨rfl, rfl⟩

theorem result_loop_lastKey (hv : s.itemValNext = false) (key : List Char) :
    ({ s with lastKey := key }.loop num es).result = (s.loop num es).result := by
  induction es generalizing s with
  | nil => rfl
  | cons e es ih =>
    have hevent : (({ s with lastKey := key }.event num e).loop num es).result =
        ((s.event num e).loop num es).result := by
      rcases event_lastKey num hv key e with h | ⟨hv', h⟩
      · rw [h]
      · rw [h, ih hv']
    cases e with
    | streamEnd => rfl
    | documentEnd => rfl
    | _ => exact hevent

/-- The parser is in a mapping of `parameters`. -/
structure InBlock (s : YamlReader) : Prop where
  inParams : s.inParams = true
  sawParamsKey : s.sawParamsKey = false
  mappingDepth : s.mappingDepth = 2
  seqDepth : 1 ≤ s.seqDepth

variable (num) in
theorem InBlock.scalar_eq (hs : s.InBlock) (value : List Char) : s.scalar num value =
    if !s.itemValNext then { s with lastKey := value, itemValNext := true }
    else { s.itemValue num value with itemValNext := false } := by
  have hroot : ¬ (!s.inParams ∧ s.mappingDepth = 1) := by simp [hs.inParams]
  rw [scalar, if_neg hroot, if_pos ⟨hs.inParams, hs.mappingDepth⟩]

variable (num) in
theorem InBlock.run_scalars (hs : s.InBlock) (vs : List (List Char)) :
    (s.run num (vs.map .scalar)).InBlock := by
  induction vs generalizing s with
  | nil => exact hs
  | cons v vs ih =>
    refine ih ?_
    obtain ⟨ops, devices, id, h⟩ := itemValue_eq num s (cstring v)
    rw [event, hs.scalar_eq, h]
    split_ifs <;> exact ⟨hs.inParams, hs.sawParamsKey, hs.mappingDepth, hs.seqDepth⟩

/-- Scalars do not look at the depth of the sequences. -/
theorem run_scalars_seqDepth (d : Int) (vs : List (List Char)) :
    { s with seqDepth := d }.run num (vs.map .scalar) =
      { s.run num (vs.map .scalar) with seqDepth := d } := by
  induction vs generalizing s with
  | nil => rfl
  | cons v vs ih =>
    have hscalar : { s with seqDepth := d }.scalar num (cstring v) =
        { s.scalar num (cstring v) with seqDepth := d } := by
      simp only [scalar, itemValue]
      split_ifs <;> rfl
    rw [List.map_cons, run_cons, run_cons, event, hscalar]
    exact ih

theorem nested_scalars (vs : List (List Char)) : Nested (vs.map .scalar) := by
  induction vs with
  | nil => exact .nil
  | cons v vs ih => exact .append (.scalarEvent v) ih

mutual

/-- In a block only the scalars outside of mappings are read. -/
theorem InBlock.run_events (n : YamlNode) {s : YamlReader} (hs : s.InBlock) :
    s.run num n.events = s.run num (n.outside.map .scalar) := by
  match n with
  | .alias => rfl
  | .scalar value => rfl
  | .sequence items =>
    have hstart : s.event num .sequenceStart = { s with seqDepth := s.seqDepth + 1 } := by
      simp [event, hs.sawParamsKey]
    have hin : YamlReader.InBlock { s with seqDepth := s.seqDepth + 1 } :=
      ⟨hs.inParams, hs.sawParamsKey, hs.mappingDepth, by have := hs.seqDepth; simp only; omega⟩
    have hdepth : (s.run num ((YamlNode.outsideItems items).map .scalar)).seqDepth = s.seqDepth :=
      (run_nested_counters num (nested_scalars _)).2
    have hend : (s.run num ((YamlNode.outsideItems items).map .scalar)).seqDepth ≠ 0 := by
      have := hs.seqDepth
      omega
    rw [YamlNode.events, List.cons_append, run_cons, hstart, run_append,
      InBlock.run_itemEvents items hin, run_scalars_seqDepth, run_cons, run_nil, YamlNode.outside]
    simp [event, hend, ← hdepth]
  | .mapping entries =>
    have hstart : s.event num .mappingStart = { s with mappingDepth := s.mappingDepth + 1 } := by
      simp [event, hs.mappingDepth]
    have hidle : YamlReader.Idle { s with mappingDepth := s.mappingDepth + 1 } :=
      ⟨hs.sawParamsKey, .inr ⟨by simp [hs.mappingDepth], hs.seqDepth⟩⟩
    rw [YamlNode.events, List.cons_append, run_cons, hstart, run_append,
      hidle.run_eq (YamlNode.nested_entryEvents entries)]
    simp [event, YamlNode.outside]

theorem InBlock.run_itemEvents (items : List YamlNode) {s : YamlReader} (hs : s.InBlock) :
    s.run num (YamlNode.itemEvents items) =
      s.run num ((YamlNode.outsideItems items).map .scalar) := by
  match items with
  | [] => rfl
  | n :: items =>
    rw [YamlNode.itemEvents, run_append, InBlock.run_events n hs,
      InBlock.run_itemEvents items (hs.run_scalars num _), YamlNode.outsideItems, List.map_append,
      run_append]

end

variable (num) in
theorem InBlock.run_unused (hs : s.InBlock) (hv : s.itemValNext = false) {entries : List Entry}
    (h : ∀ e ∈ entries, ¬ UsedInBlock e.1) :
    ∃ key, s.run num (scalarEvents entries) = { s with lastKey := key } := by
  induction entries generalizing s with
  | nil => exact ⟨s.lastKey, rfl⟩
  | cons e entries ih =>
    obtain ⟨hid, hdefault, href, hsignal⟩ := by
      simpa only [UsedInBlock, not_or] using h e List.mem_cons_self
    have hkey : s.scalar num (cstring e.1) = { s with lastKey := cstring e.1, itemValNext := true } := by
      rw [hs.scalar_eq, hv]
      rfl
    have hkey' : YamlReader.InBlock { s with lastKey := cstring e.1, itemValNext := true } :=
      ⟨hs.inParams, hs.sawParamsKey, hs.mappingDepth, hs.seqDepth⟩
    have hvalue : (s.scalar num (cstring e.1)).scalar num (cstring e.2) =
        { s with lastKey := cstring e.1 } := by
      rw [hkey, hkey'.scalar_eq, itemValue, if_neg hid, if_neg hdefault, if_neg href, if_neg hsignal]
      simp [hv]
    obtain ⟨key, hrun⟩ := @ih { s with lastKey := cstring e.1 }
      ⟨hs.inParams, hs.sawParamsKey, hs.mappingDepth, hs.seqDepth⟩ hv
      fun e' he' => h e' (List.mem_cons_of_mem _ he')
    refine ⟨key, ?_⟩
    calc s.run num (scalarEvents (e :: entries))
        = ((s.scalar num (cstring e.1)).scalar num (cstring e.2)).run num (scalarEvents entries) :=
          rfl
      _ = { s with lastKey := key } := by rw [hvalue, hrun]

variable (num) in
/-- A value of an unused key that is skipped. -/
theorem InBlock.run_skipped (hs : s.InBlock) (hv : s.itemValNext = false) {key : List Char}
    {n : YamlNode} (hkey : ¬ UsedInBlock key) (hn : n.SkippedInBlock) :
    ∃ key', s.run num (.scalar key :: n.events) = { s with lastKey := key' } := by
  obtain ⟨v, vs, hvs⟩ : ∃ v vs, n.outside = v :: vs := by
    cases h : n.outside with
    | nil => simpa [h] using hn.odd
    | cons v vs => exact ⟨v, vs, rfl⟩
  have hodd := hn.odd
  have hunused := hn.unused
  rw [hvs] at hodd hunused
  have heven : vs.length % 2 = 0 := by
    rw [List.length_cons] at hodd
    omega
  have hkey₁ : (s.event num (.scalar key)).InBlock := hs.run_scalars num [key]
  have hentries : ∀ e ∈ (key, v) :: pairs vs, ¬ UsedInBlock e.1 := by
    intro e he
    rcases List.mem_cons.mp he with rfl | he
    · exact hkey
    · exact hunused e he
  obtain ⟨key', hrun⟩ := hs.run_unused num hv hentries
  refine ⟨key', ?_⟩
  rw [run_cons, hkey₁.run_events, hvs, ← run_cons, ← hrun, scalarEvents, List.flatMap_cons,
    ← scalarEvents, scalarEvents_pairs heven]
  rfl

variable (num) in
/-- The entries of a block, from a key on. -/
theorem InBlock.run_scalarEvents (hs : s.InBlock) (hv : s.itemValNext = false)
    (entries : List Entry) : ∃ key, s.run num (scalarEvents entries) =
      s.accept num (settingsFrom s.paramId (cutEntries entries))
        (idBehind s.paramId (cutEntries entries)) key := by
  obtain ⟨key, h⟩ := @loop_entries _ num s [] hs.inParams hs.mappingDepth hv entries
  have hnested := YamlNode.nested_entryEvents (entries.map YamlNode.ofEntry)
  rw [YamlNode.entryEvents_ofEntry] at hnested
  rw [hnested.loop_append] at h
  exact ⟨key, h⟩

theorem InBlock.result_run_scalars (hs : s.InBlock) (hv : s.itemValNext = false)
    (vs : List (List Char)) :
    (s.run num (vs.map .scalar)).result =
      ((settingsFrom s.paramId (cutEntries (pairs vs))).foldl (Setting.store num) s.ops,
        s.signaldevices ++ devicesOf (settingsFrom s.paramId (cutEntries (pairs vs)))) := by
  have heven : ∀ us : List (List Char), us.length % 2 = 0 → ∃ id key, s.run num (us.map .scalar) =
      s.accept num (settingsFrom s.paramId (cutEntries (pairs us))) id key := by
    intro us hus
    obtain ⟨key, h⟩ := hs.run_scalarEvents num hv (pairs us)
    rw [scalarEvents_pairs hus] at h
    exact ⟨_, key, h⟩
  rcases Nat.mod_two_eq_zero_or_one vs.length with h | h
  · obtain ⟨id, key, hrun⟩ := heven vs h
    rw [hrun]
    rfl
  · -- the last scalar is a key without a value
    obtain ⟨us, v, rfl⟩ : ∃ us v, vs = us ++ [v] := by
      rcases List.eq_nil_or_concat vs with rfl | ⟨us, v, rfl⟩
      · simp at h
      · exact ⟨us, v, by simp⟩
    have hus : us.length % 2 = 0 := by
      rw [List.length_append, List.length_singleton] at h
      omega
    obtain ⟨id, key, hrun⟩ := heven us hus
    have hpairs : pairs (us ++ [v]) = pairs us := by rw [pairs_append hus]; simp [pairs]
    have hscalar := (hs.run_scalars num us).scalar_eq num (cstring v)
    rw [hrun] at hscalar
    rw [hpairs, List.map_append, run_append, hrun, List.map_singleton, run_cons, run_nil, event,
      hscalar]
    simp [accept, hv, result]

end YamlReader
namespace BlockPlace

variable {D : Type*} (num : NumberReader D) (ops : ClOps) {p : BlockPlace}

/-- `readyaml` has come to a key of the block at the place. -/
def AtKey (p : BlockPlace) : Prop :=
  (p.reader num ops).inParams = true ∧ (p.reader num ops).itemValNext = false

/-- The block has an `id` before the place. -/
def AfterId (p : BlockPlace) : Prop :=
  ∃ id, (YamlNode.scalar (chars "id"), YamlNode.scalar id) ∈ p.before

variable {num ops}

theorem AtKey.inBlock (h : p.AtKey num ops) : (p.reader num ops).InBlock where
  inParams := h.1
  sawParamsKey := YamlReader.run_sawParamsKey (fun h => by cases h) h.1
  mappingDepth := (p.reader_counters num ops).1
  seqDepth := (p.reader_counters num ops).2.ge

theorem AtKey.unchanged (h : p.AtKey num ops) {key : List Char} {n : YamlNode}
    (hkey : ¬ UsedInBlock key) (hn : n.SkippedInBlock) :
    readyaml num ops (some (documentEvents (p.document [(.scalar key, n)]))) =
      readyaml num ops (some (documentEvents (p.document []))) := by
  have hevents : YamlNode.entryEvents [(.scalar key, n)] = .scalar key :: n.events := by
    simp [YamlNode.entryEvents, YamlNode.events]
  obtain ⟨key', hrun⟩ := h.inBlock.run_skipped num h.2 hkey hn
  rw [readyaml_document, readyaml_document, hevents, hrun, YamlReader.result_loop_lastKey h.2]
  rfl

end BlockPlace

/-! ## Blocks that tell -/

/-- A document with one block, in which only some scalar entries follow `id`. -/
def idBlock (id : List Char) (entries : List Entry) : BlockPlace where
  rootBefore := []
  rootBehind := []
  blocksBefore := []
  blocksBehind := []
  before := [(.scalar (chars "id"), .scalar id)]
  behind := entries.map YamlNode.ofEntry

namespace idBlock

variable {D : Type*} {num : NumberReader D} {ops : ClOps} {id : List Char} {entries : List Entry}

theorem reader_eq : (idBlock id entries).reader num ops =
    ⟨ops, [], 2, 1, true, false, false, false, cstring id, chars "id"⟩ := by
  have hparameters : cstring (chars "parameters") = chars "parameters" := cstring_chars (by decide)
  have hid : cstring (chars "id") = chars "id" := cstring_chars (by decide)
  simp [BlockPlace.reader, BlockPlace.eventsBefore, idBlock, YamlNode.entryEvents,
    YamlNode.itemEvents, YamlNode.events, YamlReader.init, YamlReader.event, YamlReader.scalar,
    YamlReader.itemValue, hparameters, hid]

theorem atKey : (idBlock id entries).AtKey num ops := by
  rw [BlockPlace.AtKey, reader_eq]
  exact ⟨rfl, rfl⟩

theorem afterId : (idBlock id entries).AfterId := ⟨id, by simp [idBlock]⟩

theorem result_loop_eventsBehind {s : YamlReader} :
    (s.loop num (idBlock id entries).eventsBehind).result =
      (s.run num (scalarEvents entries)).result := by
  have hnested : Nested (scalarEvents entries) := by
    rw [← YamlNode.entryEvents_ofEntry]
    exact YamlNode.nested_entryEvents _
  have hevents : (idBlock id entries).eventsBehind = scalarEvents entries ++
      [.mappingEnd, .sequenceEnd, .mappingEnd, .documentEnd, .streamEnd] := by
    simp [BlockPlace.eventsBehind, idBlock, YamlNode.entryEvents_ofEntry, YamlNode.entryEvents,
      YamlNode.itemEvents]
  rw [hevents, hnested.loop_append, YamlReader.loop_result]
  simp

/-- All that is read are the scalars. -/
theorem readyaml_eq {es : List (YamlNode × YamlNode)} {vs : List (List Char)}
    (hes : ∀ s : YamlReader, s.InBlock →
      s.run num (YamlNode.entryEvents es) = s.run num (vs.map .scalar)) :
    let read := settingsFrom (cstring id)
      (cutEntries (pairs (vs ++ entries.flatMap fun e => [e.1, e.2])))
    readyaml num ops (some (documentEvents ((idBlock id entries).document es))) =
      (read.foldl (Setting.store num) ops, devicesOf read) := by
  have hscalars : scalarEvents entries = (entries.flatMap fun e => [e.1, e.2]).map .scalar := by
    rw [scalarEvents, List.map_flatMap]
    rfl
  have hat : (idBlock id entries).AtKey num ops := atKey
  have hin := hat.inBlock
  have hv := hat.2
  rw [BlockPlace.readyaml_document, result_loop_eventsBehind, hes _ hin, hscalars,
    ← YamlReader.run_append, ← List.map_append, hin.result_run_scalars hv, reader_eq]
  rfl

end idBlock
/-! ## Values that are not skipped -/

/-- Only the number `w` is read as `1`. -/
def only (w : List Char) : NumberReader (List Char) where
  atoi v := if v = w then 1 else 0
  atof := id
  toUint32 v := if v = w then 1 else 0

theorem settingsFrom_append (id : List Char) (es es' : List Entry) :
    settingsFrom id (es ++ es') = settingsFrom id es ++ settingsFrom (idBehind id es) es' := by
  induction es generalizing id with
  | nil => rfl
  | cons e es ih =>
    obtain ⟨k, v⟩ := e
    rw [List.cons_append, settingsFrom, settingsFrom, idBehind]
    split_ifs
    · exact ih v
    · rw [ih id, List.cons_append]

/-- An `id` holds whatever was before it. -/
theorem idBehind_eq {es : List Entry} (h : chars "id" ∈ es.map Prod.fst) (id id' : List Char) :
    idBehind id es = idBehind id' es := by
  induction es generalizing id id' with
  | nil => simp at h
  | cons e es ih =>
    obtain ⟨k, v⟩ := e
    rw [idBehind, idBehind]
    split_ifs with hk
    · rfl
    · rcases List.mem_cons.mp h with h | h
      · exact absurd h.symm hk
      · exact ih h id id'

theorem idBehind_append (id : List Char) (es es' : List Entry) :
    idBehind id (es ++ es') = idBehind (idBehind id es) es' := by
  induction es generalizing id with
  | nil => rfl
  | cons e es ih => exact ih _

theorem idBehind_of_notMem {es : List Entry} (h : chars "id" ∉ es.map Prod.fst) (id : List Char) :
    idBehind id es = id := by
  induction es with
  | nil => rfl
  | cons e es ih =>
    simp only [List.map_cons, List.mem_cons, not_or] at h
    rw [idBehind, if_neg (Ne.symm h.1), ih h.2]

theorem value_mem_of_mem_settingsFrom {id : List Char} {es : List Entry} {e : Setting}
    (h : e ∈ settingsFrom id es) : (e.key, e.value) ∈ es := by
  induction es generalizing id with
  | nil => cases h
  | cons e' es ih =>
    obtain ⟨k, v⟩ := e'
    rw [settingsFrom] at h
    split_ifs at h
    · exact List.mem_cons_of_mem _ (ih h)
    · rcases List.mem_cons.mp h with rfl | h
      · exact List.mem_cons_self
      · exact List.mem_cons_of_mem _ (ih h)

/-- Where `w` is no value, nothing is read as `1`. -/
theorem foldl_store_only {w : List Char} {ops : ClOps} (hfc : ops.fc = 0) (hfs : ops.fs = 0)
    {es : List Setting} (h : ∀ e ∈ es, e.value ≠ w) :
    (es.foldl (Setting.store (only w)) ops).fc = 0 ∧
      (es.foldl (Setting.store (only w)) ops).fs = 0 := by
  induction es generalizing ops with
  | nil => exact ⟨hfc, hfs⟩
  | cons e es ih =>
    have hw : (only w).toUint32 ((only w).atof e.value) = 0 := if_neg (h e List.mem_cons_self)
    refine ih ?_ ?_ fun e' he' => h e' (List.mem_cons_of_mem _ he')
    · rw [store_fc, hw]
      split_ifs <;> simp [hfc]
    · rw [store_fs, hw]
      split_ifs <;> simp [hfs]

theorem exists_fresh (vs : List (List Char)) : ∃ w, cstring w = w ∧ w ∉ vs.map cstring := by
  refine ⟨List.replicate ((vs.map List.length).sum + 1) 'x', cstring_of_notMem ?_, ?_⟩
  · rw [List.mem_replicate]
    rintro ⟨_, h⟩
    exact absurd h (by decide)
  · intro h
    obtain ⟨v, hv, hw⟩ := List.mem_map.mp h
    have hlen : (cstring v).length ≤ v.length := (List.takeWhile_prefix _).length_le
    have hsum : v.length ≤ (vs.map List.length).sum :=
      List.le_sum_of_mem (List.mem_map_of_mem hv)
    rw [hw, List.length_replicate] at hlen
    omega

theorem mem_of_mem_pairs {vs : List (List Char)} {e : Entry} (h : e ∈ pairs vs) : e.2 ∈ vs := by
  induction vs using pairs.induct with
  | case1 key value vs ih =>
    rcases List.mem_cons.mp h with rfl | h
    · simp
    · simp [ih h]
  | case2 vs hvs => simp [pairs] at h

/-- What is read in a block `id` of the scalars in it. -/
def read (id : List Char) (vs : List (List Char)) : List Setting :=
  settingsFrom id (cutEntries (pairs vs))

/-- The scalars of some entries. -/
def scalarsOf (entries : List Entry) : List (List Char) := entries.flatMap fun e => [e.1, e.2]

/-- In every block the scalars change nothing. -/
structure NoTrace (vs : List (List Char)) : Prop where
  ops : ∀ (D : Type) (num : NumberReader D) (ops : ClOps) (id : List Char) (entries : List Entry),
    cstring id = id → (read id (vs ++ scalarsOf entries)).foldl (Setting.store num) ops =
      (read id (scalarsOf entries)).foldl (Setting.store num) ops
  devices : devicesOf (read (chars "devices") vs) = []

namespace NoTrace

variable {vs : List (List Char)}

theorem read_default {id w : List Char} (hw : cstring w = w) :
    read id [chars "default", w] = [⟨id, chars "default", w⟩] := by
  have hdefault : cstring (chars "default") = chars "default" := cstring_chars (by decide)
  have hne : chars "default" ≠ chars "id" := by simp [chars_inj]
  simp [read, pairs, cutEntries, settingsFrom, hdefault, hw, hne]

theorem scalarsOf_default {w : List Char} :
    scalarsOf [(chars "default", w)] = [chars "default", w] := rfl

/-- A `default` behind an odd number of scalars is not read, and its value least of all. -/
theorem even (h : NoTrace vs) : vs.length % 2 = 0 := by
  by_contra hodd
  obtain ⟨w, hw, hfresh⟩ := exists_fresh (vs ++ [chars "default"])
  have hfreq : cstring (chars "freq") = chars "freq" := cstring_chars (by decide)
  have heven : (vs ++ [chars "default"]).length % 2 = 0 := by
    rw [List.length_append, List.length_singleton]
    omega
  have hpairs : pairs (vs ++ [chars "default", w]) = pairs (vs ++ [chars "default"]) := by
    have hlast := pairs_append heven [w]
    rw [List.append_assoc] at hlast
    rw [← List.singleton_append, hlast]
    simp [pairs]
  have hread : ∀ e ∈ read (chars "freq") (vs ++ [chars "default", w]), e.value ≠ w := by
    rintro e he rfl
    rw [read, hpairs] at he
    obtain ⟨e', he', hcut⟩ := List.mem_map.mp (value_mem_of_mem_settingsFrom he)
    exact hfresh (List.mem_map.mpr ⟨e'.2, mem_of_mem_pairs he', congrArg Prod.snd hcut⟩)
  have hops := h.ops _ (only w) zeros (chars "freq") [(chars "default", w)] hfreq
  have hfc : ((read (chars "freq") (vs ++ [chars "default", w])).foldl (Setting.store (only w))
      zeros).fc = 0 := (foldl_store_only rfl rfl hread).1
  rw [← scalarsOf_default, hops, scalarsOf_default, read_default hw, List.foldl_cons,
    List.foldl_nil, store_fc, if_pos ⟨rfl, rfl⟩] at hfc
  simp [only] at hfc

/-- Behind another `id` the value is stored in another field. -/
theorem id_notMem (h : NoTrace vs) : chars "id" ∉ (cutEntries (pairs vs)).map Prod.fst := by
  intro hid
  obtain ⟨w, hw, hfresh⟩ := exists_fresh vs
  have hfreq : cstring (chars "freq") = chars "freq" := cstring_chars (by decide)
  have hsamplerate : cstring (chars "samplerate") = chars "samplerate" := cstring_chars (by decide)
  have hne : chars "samplerate" ≠ chars "freq" := by simp [chars_inj]
  have hread : ∀ id, read id (vs ++ [chars "default", w]) =
      read id vs ++ [⟨idBehind (chars "freq") (cutEntries (pairs vs)), chars "default", w⟩] := by
    intro id
    rw [idBehind_eq hid (chars "freq") id, ← read_default hw, read, read, read,
      pairs_append h.even, cutEntries, List.map_append, settingsFrom_append]
    rfl
  have hvalues : ∀ id, ∀ e ∈ read id vs, e.value ≠ w := by
    rintro id e he rfl
    obtain ⟨e', he', hcut⟩ := List.mem_map.mp (value_mem_of_mem_settingsFrom he)
    exact hfresh (List.mem_map.mpr ⟨e'.2, mem_of_mem_pairs he', congrArg Prod.snd hcut⟩)
  by_cases hfc : idBehind (chars "freq") (cutEntries (pairs vs)) = chars "freq"
  · have hops := congrArg ClOps.fs (h.ops _ (only w) zeros _ [(chars "default", w)] hsamplerate)
    rw [scalarsOf_default, hread, List.foldl_append, List.foldl_cons, List.foldl_nil, store_fs,
      if_neg (by simp [hfc, hne.symm]), (foldl_store_only rfl rfl (hvalues _)).2, read_default hw,
      List.foldl_cons, List.foldl_nil, store_fs, if_pos ⟨rfl, rfl⟩] at hops
    simp [only] at hops
  · have hops := congrArg ClOps.fc (h.ops _ (only w) zeros _ [(chars "default", w)] hfreq)
    rw [scalarsOf_default, hread, List.foldl_append, List.foldl_cons, List.foldl_nil, store_fc,
      if_neg (by simp [hfc]),
      (foldl_store_only rfl rfl (hvalues _)).1, read_default hw, List.foldl_cons, List.foldl_nil,
      store_fc, if_pos ⟨rfl, rfl⟩] at hops
    simp [only] at hops

theorem read_eq (h : NoTrace vs) (id : List Char) :
    read id vs = (cutEntries (pairs vs)).map fun e => ⟨id, e.1, e.2⟩ :=
  settingsFrom_of_notMem h.id_notMem

/-- A value of `default` is stored. -/
theorem default_notMem (h : NoTrace vs) :
    chars "default" ∉ (cutEntries (pairs vs)).map Prod.fst := by
  intro hdefault
  obtain ⟨e, he, hkey⟩ := List.mem_map.mp hdefault
  have hfreq : cstring (chars "freq") = chars "freq" := cstring_chars (by decide)
  let zero : NumberReader Unit := ⟨fun _ => 0, fun _ => (), fun _ => 0⟩
  have hops := congrArg ClOps.fc (h.ops _ zero ⟨[], 0, 1, 0⟩ _ [] hfreq)
  have hmem : (⟨chars "freq", e.1, e.2⟩ : Setting) ∈ read (chars "freq") vs := by
    rw [h.read_eq]
    exact List.mem_map_of_mem he
  obtain ⟨_, hfc⟩ := exists_foldl_field (store_fc zero) ⟨[], 0, 1, 0⟩ hmem ⟨rfl, hkey⟩
  rw [scalarsOf, List.flatMap_nil, List.append_nil, hfc] at hops
  have hzero : (0 : UInt32) = 1 := hops
  exact absurd hzero (by decide)

/-- A device is returned. -/
theorem device_notMem (h : NoTrace vs) {e : Entry} (he : e ∈ cutEntries (pairs vs)) :
    e.1 ≠ chars "referencedevice" ∧ ¬ chars "signaldevice" <+: e.1 := by
  have hdevices := h.devices
  rw [devicesOf, List.map_eq_nil_iff, List.filter_eq_nil_iff, h.read_eq] at hdevices
  have hnot := hdevices _ (List.mem_map_of_mem he)
  simpa using hnot

theorem unused (h : NoTrace vs) : ∀ e ∈ pairs vs, ¬ UsedInBlock e.1 := by
  intro e he
  have hcut : (cstring e.1, cstring e.2) ∈ cutEntries (pairs vs) := List.mem_map_of_mem he
  have hkey := List.mem_map_of_mem (f := Prod.fst) hcut
  obtain ⟨href, hsignal⟩ := h.device_notMem hcut
  simp only [UsedInBlock, not_or]
  exact ⟨fun hid => h.id_notMem (hid ▸ hkey), fun hdefault => h.default_notMem (hdefault ▸ hkey),
    href, hsignal⟩

end NoTrace

/-- Nowhere behind an `id` the entry changes what is read. -/
def UnchangedInBlock (key : List Char) (n : YamlNode) : Prop :=
  ∀ (D : Type) (num : NumberReader D) (ops : ClOps) (p : BlockPlace), p.AtKey num ops → p.AfterId →
    readyaml num ops (some (documentEvents (p.document [(.scalar key, n)]))) =
      readyaml num ops (some (documentEvents (p.document [])))

theorem UnchangedInBlock.skipped {key : List Char} {n : YamlNode} (h : UnchangedInBlock key n) :
    n.SkippedInBlock := by
  have hrun : ∀ (D : Type) (num : NumberReader D) (s : YamlReader), s.InBlock →
      s.run num (YamlNode.entryEvents [(.scalar key, n)]) =
        s.run num ((key :: n.outside).map .scalar) := by
    intro D num s hs
    have hkey : (s.event num (.scalar key)).InBlock := hs.run_scalars num [key]
    have hevents : YamlNode.entryEvents [(.scalar key, n)] = .scalar key :: n.events := by
      simp [YamlNode.entryEvents, YamlNode.events]
    rw [hevents, YamlReader.run_cons, hkey.run_events]
    rfl
  have hnil : ∀ (D : Type) (num : NumberReader D) (s : YamlReader), s.InBlock →
      s.run num (YamlNode.entryEvents []) = s.run num (([] : List (List Char)).map .scalar) :=
    fun D num s _ => by simp [YamlNode.entryEvents]
  have hunchanged : ∀ (D : Type) (num : NumberReader D) ops id entries, cstring id = id →
      ((read id (key :: n.outside ++ scalarsOf entries)).foldl (Setting.store num) ops,
        devicesOf (read id (key :: n.outside ++ scalarsOf entries))) =
      ((read id (scalarsOf entries)).foldl (Setting.store num) ops,
        devicesOf (read id (scalarsOf entries))) := by
    intro D num ops id entries hid
    have hdoc := h D num ops (idBlock id entries) idBlock.atKey idBlock.afterId
    rw [idBlock.readyaml_eq (hrun D num), idBlock.readyaml_eq (hnil D num), hid] at hdoc
    exact hdoc
  have htrace : NoTrace (key :: n.outside) := by
    refine ⟨fun D num ops id entries hid => congrArg Prod.fst (hunchanged D num ops id entries hid), ?_⟩
    have hdevices := congrArg Prod.snd (hunchanged _ (only []) zeros (chars "devices") []
      (cstring_chars (by decide)))
    rw [scalarsOf, List.flatMap_nil, List.append_nil] at hdevices
    exact hdevices
  have heven := htrace.even
  rw [List.length_cons] at heven
  cases hout : n.outside with
  | nil => simp [hout] at heven
  | cons v vs =>
    rw [hout] at htrace heven
    refine ⟨by rw [hout]; omega, fun e he => htrace.unused e ?_⟩
    rw [hout] at he
    exact List.mem_cons_of_mem _ he

end Aegir
