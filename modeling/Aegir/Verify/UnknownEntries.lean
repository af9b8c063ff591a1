import Aegir.Verify.RootEntries

/-!
# Entries with unknown keys

An entry whose key `readyaml` does not use is skipped, in the root mapping or in a block, if and only
if its value leaves the parser where a key is expected and has no used key at the place of a key
(`unchanged_iff`). This is for places to which the parser comes in step; it does when the values
before the place are of the same kind (`RootPlace.atKey_of_inStep`, `BlockPlace.atKey_of_inStep`).
-/

namespace Aegir

variable {D : Type*} {num : NumberReader D} {ops : ClOps}

/-! ## In step -/

namespace RootPhase

variable {s : YamlReader} {e : YamlEvent} {es : List YamlEvent}

/-- In the sequence of the blocks, whatever is read. -/
theorem blocks_event (h : blocks.Holds s) (hend : e = .sequenceEnd → s.seqDepth ≠ 1) :
    blocks.Holds (s.event num e) := by
  cases e with
  | scalar v =>
    obtain ⟨ops, devices, id, hvalue⟩ :=
      YamlReader.itemValue_eq num s (cstring v)
    have hroot : ¬ (!s.inParams ∧ s.mappingDepth = 1) := by simp [h.1]
    simp only [YamlReader.event, YamlReader.scalar, if_neg hroot, hvalue]
    split_ifs <;> exact h
  | mappingStart =>
    simp only [YamlReader.event]
    split_ifs <;> exact h
  | sequenceStart =>
    have hstart : s.event num .sequenceStart = { s with seqDepth := s.seqDepth + 1 } := by
      simp [YamlReader.event, h.2.1]
    rw [hstart]
    exact h
  | sequenceEnd =>
    have hzero : ¬ s.seqDepth - 1 = 0 := by have := hend rfl; omega
    simp only [YamlReader.event, if_neg hzero]
    exact h
  | _ => exact h

theorem blocks_run (h : blocks.Holds s)
    (hd : ∀ es₁, es₁ <+: es → 1 ≤ s.seqDepth + (es₁.map YamlEvent.seqStep).sum) :
    blocks.Holds (s.run num es) := by
  induction es generalizing s with
  | nil => exact h
  | cons e es ih =>
    refine ih (blocks_event h ?_) fun es₁ hes₁ => ?_
    · rintro rfl
      have := hd [.sequenceEnd] (by simp)
      simp [YamlEvent.seqStep] at this
      omega
    · have := hd (e :: es₁) (List.cons_prefix_cons.mpr ⟨rfl, hes₁⟩)
      rw [YamlReader.event_seqDepth]
      simp only [List.map_cons, List.sum_cons] at this
      omega

end RootPhase

/-- An entry of the root mapping behind which a key is expected. -/
inductive InStepInRoot : YamlNode × YamlNode → Prop
  | skipped : ¬ UsedInRoot key → n.SkippedInRoot → InStepInRoot (.scalar key, n)
  | parameters (items : List YamlNode) : InStepInRoot (.scalar (chars "parameters"), .sequence items)

/-- An entry of a block behind which a key is expected. -/
def InStepInBlock (e : YamlNode × YamlNode) : Prop :=
  ∃ key, e.1 = .scalar key ∧ e.2.outside.length % 2 = 1

namespace YamlReader

variable {s : YamlReader}

variable (num) in
/-- The blocks, up to the end of one of them. -/
theorem AtRootKey.run_blocks (hs : s.AtRootKey) (items : List YamlNode) :
    let t := s.run num ([.scalar (chars "parameters"), .sequenceStart] ++ YamlNode.itemEvents items)
    RootPhase.blocks.Holds t ∧ t.mappingDepth = 1 ∧ t.seqDepth = 1 := by
  have hitems := YamlNode.nested_itemEvents items
  have hstart : s.run num [.scalar (chars "parameters"), .sequenceStart] =
      { s with seqDepth := 1, inParams := true, sawParamsKey := false, rootValNext := false } := by
    have hparameters := cstring_names.1
    obtain ⟨hin, hsaw, hval⟩ := hs.key
    simp [event, scalar, hs.mappingDepth, hs.seqDepth, hin, hval, hparameters]
  have hprefix : ∀ es₁, es₁ <+: YamlNode.itemEvents items →
      1 ≤ (1 : Int) + (es₁.map YamlEvent.seqStep).sum := by
    intro es₁ hes₁
    have := hitems.sum_seqStep_nonneg hes₁
    omega
  rw [run_append, hstart]
  exact ⟨RootPhase.blocks_run ⟨rfl, rfl, rfl⟩ hprefix,
    (run_nested_counters num hitems).1.trans hs.mappingDepth, (run_nested_counters num hitems).2⟩

theorem AtRootKey.run_parameters (hs : s.AtRootKey) (items : List YamlNode) :
    (s.run num (YamlNode.entryEvents
      [(.scalar (chars "parameters"), .sequence items)])).AtRootKey := by
  obtain ⟨⟨hin, hsaw, hval⟩, hmapping, hseq⟩ := hs.run_blocks num items
  have hevents : YamlNode.entryEvents [(.scalar (chars "parameters"), .sequence items)] =
      ([.scalar (chars "parameters"), .sequenceStart] ++ YamlNode.itemEvents items) ++
        [.sequenceEnd] := by
    simp [YamlNode.entryEvents, YamlNode.events]
  rw [hevents, run_append]
  generalize s.run num ([.scalar (chars "parameters"), .sequenceStart] ++
    YamlNode.itemEvents items) = t at hin hsaw hval hmapping hseq
  have hend : t.event num .sequenceEnd = { t with seqDepth := 0, inParams := false } := by
    simp [event, hseq]
  rw [run_cons, run_nil, hend]
  exact ⟨⟨rfl, hsaw, hval⟩, hmapping, rfl⟩

variable (num) in
theorem AtRootKey.run_inStep (hs : s.AtRootKey) {entries : List (YamlNode × YamlNode)}
    (h : ∀ e ∈ entries, InStepInRoot e) : (s.run num (YamlNode.entryEvents entries)).AtRootKey := by
  induction entries generalizing s with
  | nil => exact hs
  | cons e entries ih =>
    have hentry : (s.run num (YamlNode.entryEvents [e])).AtRootKey := by
      cases h e List.mem_cons_self with
      | skipped hkey hn =>
        rw [hs.run_skipped hkey hn]
        exact hs
      | parameters items => exact hs.run_parameters items
    rw [← List.singleton_append, YamlNode.entryEvents_append, run_append]
    exact ih hentry fun e' he' => h e' (List.mem_cons_of_mem _ he')

/-- Scalars in pairs leave the parser at a key. -/
theorem InBlock.run_even (hs : s.InBlock) (hv : s.itemValNext = false) {vs : List (List Char)}
    (hvs : vs.length % 2 = 0) : (s.run num (vs.map .scalar)).itemValNext = false := by
  induction vs, hvs using evenLength_induction generalizing s with
  | nil => exact hv
  | cons key value vs _ ih =>
    have hs₂ : (s.run num ([key, value].map .scalar)).InBlock := hs.run_scalars num [key, value]
    have hkey : s.scalar num (cstring key) = { s with lastKey := cstring key, itemValNext := true } := by
      rw [hs.scalar_eq, hv]
      rfl
    have hs₁ : YamlReader.InBlock { s with lastKey := cstring key, itemValNext := true } :=
      ⟨hs.inParams, hs.sawParamsKey, hs.mappingDepth, hs.seqDepth⟩
    have hvalue : (s.run num ([key, value].map .scalar)).itemValNext = false := by
      simp only [List.map_cons, List.map_nil, run_cons, run_nil, event, hkey, hs₁.scalar_eq]
      rfl
    exact ih hs₂ hvalue

variable (num) in
theorem InBlock.run_inStep (hs : s.InBlock) (hv : s.itemValNext = false)
    {entries : List (YamlNode × YamlNode)} (h : ∀ e ∈ entries, InStepInBlock e) :
    let t := s.run num (YamlNode.entryEvents entries)
    t.InBlock ∧ t.itemValNext = false := by
  induction entries generalizing s with
  | nil => exact ⟨hs, hv⟩
  | cons e entries ih =>
    obtain ⟨k, n⟩ := e
    obtain ⟨key, rfl, hodd⟩ := h _ List.mem_cons_self
    have hkey : (s.event num (.scalar key)).InBlock := hs.run_scalars num [key]
    have hentry : s.run num (YamlNode.entryEvents [(.scalar key, n)]) =
        s.run num ((key :: n.outside).map .scalar) := by
      rw [YamlReader.run_entry, hkey.run_events]
      rfl
    have heven : (key :: n.outside).length % 2 = 0 := by
      rw [List.length_cons]
      simp only at hodd
      omega
    rw [← List.singleton_append, YamlNode.entryEvents_append, run_append, hentry]
    exact ih (hs.run_scalars num _) (hs.run_even hv heven)
      fun e' he' => h e' (List.mem_cons_of_mem _ he')

end YamlReader

theorem RootPlace.atKey_of_inStep {p : RootPlace} (h : ∀ e ∈ p.before, InStepInRoot e) :
    p.AtKey num ops := by
  have hstart : YamlReader.AtRootKey
      ((YamlReader.init ops).run num [.streamStart, .documentStart, .mappingStart]) :=
    ⟨⟨rfl, rfl, rfl⟩, rfl, rfl⟩
  rw [RootPlace.AtKey, reader, eventsBefore, YamlReader.run_append]
  exact (hstart.run_inStep num h).key

theorem BlockPlace.atKey_of_inStep {p : BlockPlace} (hroot : ∀ e ∈ p.rootBefore, InStepInRoot e)
    (h : ∀ e ∈ p.before, InStepInBlock e) : p.AtKey num ops := by
  have hstart : YamlReader.AtRootKey
      ((YamlReader.init ops).run num [.streamStart, .documentStart, .mappingStart]) :=
    ⟨⟨rfl, rfl, rfl⟩, rfl, rfl⟩
  obtain ⟨⟨hin, hsaw, -⟩, hmapping, hseq⟩ :=
    (hstart.run_inStep num hroot).run_blocks num p.blocksBefore
  have hreader : p.reader num ops = ((((YamlReader.init ops).run num
      [.streamStart, .documentStart, .mappingStart]).run num
        (YamlNode.entryEvents p.rootBefore)).run num
          ([.scalar (chars "parameters"), .sequenceStart] ++
            YamlNode.itemEvents p.blocksBefore)).run num
              (.mappingStart :: YamlNode.entryEvents p.before) := by
    rw [reader, eventsBefore, ← YamlReader.run_append, ← YamlReader.run_append, ← YamlReader.run_append]
    simp only [List.append_assoc]
    rfl
  generalize YamlReader.run num (YamlReader.run num _ _) (_ ++ _) = t at hin hsaw hmapping hseq hreader
  have hblock : t.event num .mappingStart =
      { t with mappingDepth := 2, paramId := [], lastKey := [], itemValNext := false } := by
    simp [YamlReader.event, hmapping, hin]
  have hinBlock : YamlReader.InBlock
      { t with mappingDepth := 2, paramId := [], lastKey := [], itemValNext := false } :=
    ⟨hin, hsaw, rfl, hseq.ge⟩
  obtain ⟨hin', hv'⟩ := hinBlock.run_inStep num rfl h
  rw [AtKey, hreader, YamlReader.run_cons, hblock]
  exact ⟨hin'.inParams, hv'⟩

/-! ## Skipped entries -/

/-- An entry with an unused key is skipped wherever the parser is in step if and only if its value
leaves it in step and stores nothing. -/
theorem unchanged_iff {key : List Char} (n : YamlNode) (hroot : ¬ UsedInRoot key)
    (hblock : ¬ UsedInBlock key) :
    (UnchangedInRoot key n ↔ n.SkippedInRoot) ∧ (UnchangedInBlock key n ↔ n.SkippedInBlock) :=
  ⟨⟨fun h => h.skipped hroot, fun hn _ _ _ _ hp => hp.unchanged hroot hn⟩,
    ⟨fun h => h.skipped, fun hn _ _ _ _ hp _ => hp.unchanged hblock hn⟩⟩

theorem unused_label : ¬ UsedInRoot (chars "label") ∧ ¬ UsedInBlock (chars "label") := by
  have hlabel : cstring (chars "label") = chars "label" := cstring_chars (by decide)
  have hsignal : ¬ chars "signaldevice" <+: chars "label" := by
    unfold chars
    decide
  simp [UsedInRoot, UsedInBlock, hlabel, chars_inj, hsignal]

/-- A label is skipped. -/
theorem unchanged_iff_label : UnchangedInRoot (chars "label") (.scalar (chars "AegirSDR")) ∧
    UnchangedInBlock (chars "label") (.scalar (chars "AegirSDR")) :=
  have h := unchanged_iff (.scalar (chars "AegirSDR")) unused_label.1 unused_label.2
  ⟨h.1.mpr rfl, h.2.mpr ⟨rfl, by simp [YamlNode.outside, pairs]⟩⟩

/-- An empty mapping is not skipped. -/
theorem not_unchanged : ¬ ∀ (key : List Char) (n : YamlNode), ¬ UsedInRoot key → ¬ UsedInBlock key →
    UnchangedInRoot key n ∧ UnchangedInBlock key n := by
  intro h
  obtain ⟨-, hunchanged⟩ := h (chars "label") (.mapping []) unused_label.1 unused_label.2
  have hodd := hunchanged.skipped.odd
  simp [YamlNode.outside] at hodd

end Aegir
