import Aegir.Verify.BlockEntries

/-!
# Entries of the root mapping

In the root mapping the scalars of a value are taken for values and keys as well. If one of them is
taken for the key `parameters`, the next sequence in the value is taken for that of the blocks, up to
the end of the value. An entry with an unused key is skipped if and only if a key is expected behind
its value and nothing of it was read as a part of a block (`SkippedInRoot`).
-/

namespace Aegir

/-- The key that `readyaml` looks for in the root mapping. -/
def UsedInRoot (key : List Char) : Prop := cstring key = chars "parameters"

/-- What the next event is taken for behind a value in the root mapping. -/
inductive RootPhase
  | value
  | key
  | named
  | blocks
  deriving DecidableEq

namespace RootPhase

/-- An event at the depth `d` of mappings; `none` if it is read as a part of a block. -/
def next (d : Int) : RootPhase → YamlEvent → Option RootPhase
  | .value, .scalar _ => some (if d = 1 then .key else .value)
  | .key, .scalar v =>
    some (if d = 1 then if cstring v = chars "parameters" then .named else .value else .key)
  | .named, .sequenceStart => some .blocks
  | .blocks, .scalar _ => if d = 2 then none else some .blocks
  | .blocks, .mappingStart => if d = 1 then none else some .blocks
  | phase, _ => some phase

/-- The events of a value from the depth `d` on. -/
def after (d : Int) (phase : RootPhase) : List YamlEvent → Option RootPhase
  | [] => some phase
  | e :: es => (phase.next d e).bind fun phase' => phase'.after (d + e.mappingStep) es

/-- The variables that belong to a phase. -/
def Holds : RootPhase → YamlReader → Prop
  | .value, s => s.inParams = false ∧ s.sawParamsKey = false ∧ s.rootValNext = true
  | .key, s => s.inParams = false ∧ s.sawParamsKey = false ∧ s.rootValNext = false
  | .named, s => s.inParams = false ∧ s.sawParamsKey = true
  | .blocks, s => s.inParams = true ∧ s.sawParamsKey = false ∧ s.rootValNext = false

end RootPhase

/-- The variables of the blocks. -/
def YamlReader.blockVars (s : YamlReader) : (ClOps × List (List Char)) × Bool × List Char × List Char :=
  (s.result, s.itemValNext, s.paramId, s.lastKey)

variable {D : Type*} {num : NumberReader D}

namespace RootPhase

variable {phase phase' : RootPhase} {s : YamlReader} {e : YamlEvent} {es : List YamlEvent}

/-- The counters and flags that no phase speaks of. -/
theorem Holds.congr {s' : YamlReader} (h : phase.Holds s) (hin : s'.inParams = s.inParams)
    (hsaw : s'.sawParamsKey = s.sawParamsKey) (hval : s'.rootValNext = s.rootValNext) :
    phase.Holds s' := by
  cases phase <;> simpa [Holds, hin, hsaw, hval] using h

variable (num) in
theorem Holds.scalar (h : phase.Holds s) (v : List Char)
    (hnext : phase.next s.mappingDepth (.scalar v) = some phase') :
    phase'.Holds (s.event num (.scalar v)) ∧ (s.event num (.scalar v)).blockVars = s.blockVars := by
  obtain ⟨ops, devices, md, sd, ip, saw, rv, iv, id, key⟩ := s
  by_cases hd : md = 1
  · subst hd
    cases phase with
    | value =>
      obtain ⟨rfl, rfl, rfl⟩ : ip = false ∧ saw = false ∧ rv = true := h
      cases hnext
      exact ⟨⟨rfl, rfl, rfl⟩, rfl⟩
    | key =>
      obtain ⟨rfl, rfl, rfl⟩ : ip = false ∧ saw = false ∧ rv = false := h
      by_cases hv : cstring v = chars "parameters" <;>
        simp only [next, hv, reduceIte, Option.some.injEq] at hnext <;> subst hnext <;>
        simp [YamlReader.event, YamlReader.scalar, hv, Holds, YamlReader.blockVars,
          YamlReader.result]
    | named =>
      obtain ⟨rfl, rfl⟩ : ip = false ∧ saw = true := h
      cases hnext
      cases rv <;>
        simp [YamlReader.event, YamlReader.scalar, Holds, YamlReader.blockVars, YamlReader.result]
    | blocks =>
      obtain ⟨rfl, rfl, rfl⟩ : ip = true ∧ saw = false ∧ rv = false := h
      cases hnext
      exact ⟨⟨rfl, rfl, rfl⟩, rfl⟩
  · -- in a mapping below, only the scalars of a block are read
    have hunread : phase' = phase ∧ ¬ (ip ∧ md = 2) := by
      cases phase with
      | blocks =>
        obtain ⟨rfl, rfl, rfl⟩ : ip = true ∧ saw = false ∧ rv = false := h
        simp only [next, Option.ite_none_left_eq_some, Option.some.injEq] at hnext
        exact ⟨hnext.2.symm, fun hmd => hnext.1 hmd.2⟩
      | named =>
        obtain ⟨rfl, rfl⟩ : ip = false ∧ saw = true := h
        exact ⟨by cases hnext; rfl, by simp⟩
      | _ =>
        simp only [next, if_neg hd, Option.some.injEq] at hnext
        have hin : ip = false := h.1
        exact ⟨hnext.symm, by simp [hin]⟩
    obtain ⟨rfl, hitem⟩ := hunread
    have hroot : ¬ (!ip ∧ md = 1) := fun hmd => hd hmd.2
    rw [YamlReader.event, YamlReader.scalar, if_neg hroot, if_neg hitem]
    exact ⟨h, rfl⟩

variable (num) in
/-- One event; the sequence of the blocks does not end with it. -/
theorem Holds.event (h : phase.Holds s) (hnext : phase.next s.mappingDepth e = some phase')
    (hend : e = .sequenceEnd → s.seqDepth ≠ 1) :
    phase'.Holds (s.event num e) ∧ (s.event num e).blockVars = s.blockVars := by
  cases e with
  | scalar v => exact h.scalar num v hnext
  | mappingStart =>
    have hunread : phase' = phase ∧ ¬ (s.mappingDepth + 1 = 2 ∧ s.inParams) := by
      cases phase with
      | blocks =>
        simp only [next, Option.ite_none_left_eq_some, Option.some.injEq] at hnext
        exact ⟨hnext.2.symm, fun hmd => hnext.1 (by omega)⟩
      | _ => exact ⟨by cases hnext; rfl, by rw [h.1]; simp⟩
    obtain ⟨rfl, hreset⟩ := hunread
    simp only [YamlReader.event, if_neg hreset]
    exact ⟨h.congr rfl rfl rfl, rfl⟩
  | sequenceStart =>
    cases phase with
    | named =>
      cases hnext
      simp [YamlReader.event, h.2, Holds, YamlReader.blockVars, YamlReader.result]
    | _ =>
      have hstart : s.event num .sequenceStart = { s with seqDepth := s.seqDepth + 1 } := by
        simp [YamlReader.event, h.2.1]
      cases hnext
      rw [hstart]
      exact ⟨h.congr rfl rfl rfl, rfl⟩
  | sequenceEnd =>
    have hsame : phase' = phase := by cases phase <;> cases hnext <;> rfl
    have hzero : ¬ s.seqDepth - 1 = 0 := by have := hend rfl; omega
    subst hsame
    simp only [YamlReader.event, if_neg hzero]
    exact ⟨h.congr rfl rfl rfl, rfl⟩
  | mappingEnd =>
    have hsame : phase' = phase := by cases phase <;> cases hnext <;> rfl
    subst hsame
    exact ⟨h.congr rfl rfl rfl, rfl⟩
  | _ =>
    have hsame : phase' = phase := by cases phase <;> cases hnext <;> rfl
    subst hsame
    exact ⟨h, rfl⟩

variable (num) in
/-- The events of a value, as far as the sequence of the blocks does not end with one of them. -/
theorem Holds.run (h : phase.Holds s)
    (hd : ∀ es₁, es₁ <+: es → 1 ≤ s.seqDepth + (es₁.map YamlEvent.seqStep).sum)
    (hafter : phase.after s.mappingDepth es = some phase') :
    phase'.Holds (s.run num es) ∧ (s.run num es).blockVars = s.blockVars := by
  induction es generalizing s phase with
  | nil =>
    cases hafter
    exact ⟨h, rfl⟩
  | cons e es ih =>
    rw [after, Option.bind_eq_some_iff] at hafter
    obtain ⟨phase₁, hnext, hafter⟩ := hafter
    have hend : e = .sequenceEnd → s.seqDepth ≠ 1 := by
      rintro rfl
      have := hd [.sequenceEnd] (by simp)
      simp [YamlEvent.seqStep] at this
      omega
    obtain ⟨h₁, hvars⟩ := h.event num hnext hend
    have hd₁ : ∀ es₁, es₁ <+: es →
        1 ≤ (s.event num e).seqDepth + (es₁.map YamlEvent.seqStep).sum := by
      intro es₁ hes₁
      have := hd (e :: es₁) (List.cons_prefix_cons.mpr ⟨rfl, hes₁⟩)
      rw [YamlReader.event_seqDepth]
      simp only [List.map_cons, List.sum_cons] at this
      omega
    rw [← YamlReader.event_mappingDepth num] at hafter
    obtain ⟨h', hvars'⟩ := ih h₁ hd₁ hafter
    exact ⟨h', hvars'.trans hvars⟩

end RootPhase

/-- Among the first of nested events at least as many sequences start as end. -/
theorem Nested.sum_seqStep_nonneg {es es₁ : List YamlEvent} (h : Nested es) (hes₁ : es₁ <+: es) :
    0 ≤ (es₁.map YamlEvent.seqStep).sum := by
  induction h generalizing es₁ with
  | nil =>
    cases List.prefix_nil.mp hes₁
    exact le_rfl
  | @append es es' h _ ih ih' =>
    rcases List.prefix_or_prefix_of_prefix hes₁ (List.prefix_append es es') with hes | ⟨t, rfl⟩
    · exact ih hes
    · have ht := ih' ((List.prefix_append_right_inj es).mp hes₁)
      simp [h.sum_steps.2, ht]
  | aliasEvent | scalarEvent =>
    rcases List.prefix_cons_iff.mp hes₁ with rfl | ⟨t, rfl, ht⟩
    · exact le_rfl
    · cases List.prefix_nil.mp ht
      exact le_rfl
  | @sequence es h ih | @mapping es h ih =>
    rcases List.prefix_cons_iff.mp hes₁ with rfl | ⟨t, rfl, ht⟩
    · exact le_rfl
    · rcases List.prefix_concat_iff.mp ht with rfl | ht
      · simp [YamlEvent.seqStep, h.sum_steps.2]
      · have := ih ht
        simp only [List.map_cons, List.sum_cons, YamlEvent.seqStep]
        omega

namespace RootPhase

variable {phase phase' : RootPhase} {s : YamlReader} {es es' : List YamlEvent}

theorem after_append {d : Int} : phase.after d (es ++ es') = (phase.after d es).bind fun phase' =>
    phase'.after (d + (es.map YamlEvent.mappingStep).sum) es' := by
  induction es generalizing d phase with
  | nil => simp [after]
  | cons e es ih =>
    simp only [List.cons_append, after, ih, Option.bind_assoc, List.map_cons, List.sum_cons, add_assoc]

/-- The phase outside of the parameters: whether a value is expected or a key. -/
def expect : Bool → RootPhase
  | true => .value
  | false => .key

/-- In the mappings below, no scalar is taken for a value or a key. -/
theorem after_nested {d : Int} (hd : 2 ≤ d) (valNext : Bool) (h : Nested es) :
    (expect valNext).after d es = some (expect valNext) := by
  induction h generalizing d with
  | nil => rfl
  | append h _ ih ih' => rw [after_append, ih hd, Option.bind_some, h.sum_steps.1, ih' (by omega)]
  | aliasEvent => cases valNext <;> rfl
  | scalarEvent v =>
    have hne : d ≠ 1 := by omega
    cases valNext <;> simp [after, expect, next, hne]
  | sequence _ ih =>
    have hin := ih hd
    cases valNext <;> simp_all [after, expect, next, YamlEvent.mappingStep, after_append]
  | mapping _ ih =>
    have hin := ih (d := d + 1) (by omega)
    cases valNext <;> simp_all [after, expect, next, YamlEvent.mappingStep, after_append]

theorem after_mapping (valNext : Bool) (h : Nested es) :
    (expect valNext).after 1 (.mappingStart :: es ++ [.mappingEnd]) = some (expect valNext) := by
  have hin := after_nested (d := 2) le_rfl valNext h
  cases valNext <;> simp_all [after, expect, next, YamlEvent.mappingStep, after_append]

theorem after_sequence {d : Int} (hphase : phase ≠ .named) :
    phase.after d (.sequenceStart :: es ++ [.sequenceEnd]) = phase.after d es := by
  have hstart : phase.next d .sequenceStart = some phase := by
    cases phase with
    | named => exact absurd rfl hphase
    | _ => rfl
  have hend : ∀ (phase' : RootPhase) (d' : Int), phase'.after d' [.sequenceEnd] = some phase' := by
    intro phase' d'
    cases phase' <;> rfl
  rw [List.cons_append, after, hstart, Option.bind_some, after_append]
  simp [hend, YamlEvent.mappingStep]

/-- The phase behind the last sequence: there are no blocks any more. -/
def close : RootPhase → RootPhase
  | .blocks => .key
  | phase => phase

variable (num) in
/-- A value in the root mapping. -/
theorem Holds.run_events (h : value.Holds s) (hmapping : s.mappingDepth = 1) (hseq : s.seqDepth = 0)
    (n : YamlNode) (hafter : value.after 1 n.events = some phase) :
    phase.close.Holds (s.run num n.events) ∧ (s.run num n.events).blockVars = s.blockVars := by
  cases n with
  | «alias» =>
    cases hafter
    exact ⟨h, rfl⟩
  | scalar v =>
    have hnext : value.next s.mappingDepth (.scalar v) = some .key := by simp [next, hmapping]
    obtain ⟨h', hvars⟩ := h.scalar num v hnext
    cases hafter
    exact ⟨h', hvars⟩
  | mapping entries =>
    have hentries := YamlNode.nested_entryEvents entries
    have hvalue : value.after 1 (YamlNode.mapping entries).events = some .value :=
      after_mapping true hentries
    have hstart : s.event num .mappingStart = { s with mappingDepth := s.mappingDepth + 1 } := by
      simp [YamlReader.event, h.1]
    have hidle : YamlReader.Idle { s with mappingDepth := s.mappingDepth + 1 } :=
      ⟨h.2.1, .inl ⟨h.1, by simp [hmapping]⟩⟩
    have hrun : s.run num (YamlNode.mapping entries).events = s := by
      rw [YamlNode.events, List.cons_append, YamlReader.run_cons, hstart, YamlReader.run_append,
        hidle.run_eq hentries]
      simp [YamlReader.event]
    cases hvalue.symm.trans hafter
    rw [hrun]
    exact ⟨h, rfl⟩
  | sequence items =>
    have hitems := YamlNode.nested_itemEvents items
    have hstart : s.event num .sequenceStart = { s with seqDepth := s.seqDepth + 1 } := by
      simp [YamlReader.event, h.2.1]
    have hprefix : ∀ es₁, es₁ <+: YamlNode.itemEvents items →
        1 ≤ s.seqDepth + 1 + (es₁.map YamlEvent.seqStep).sum := by
      intro es₁ hes₁
      have := hitems.sum_seqStep_nonneg hes₁
      omega
    have hvalue : value.Holds { s with seqDepth := s.seqDepth + 1 } := h.congr rfl rfl rfl
    rw [YamlNode.events, after_sequence (by simp), ← hmapping] at hafter
    obtain ⟨h', hvars⟩ := hvalue.run num hprefix hafter
    rw [YamlNode.events, List.cons_append, YamlReader.run_cons, hstart, YamlReader.run_append]
    have hlast := (YamlReader.run_nested_counters num
      (s := { s with seqDepth := s.seqDepth + 1 }) hitems).2
    generalize YamlReader.run num _ (YamlNode.itemEvents items) = t at h' hvars hlast ⊢
    -- the last sequence ends
    have hend : t.event num .sequenceEnd = { t with seqDepth := t.seqDepth - 1, inParams := false } := by
      have hzero : t.seqDepth - 1 = 0 := by simp only at hlast; omega
      simp only [YamlReader.event, if_pos hzero]
    rw [YamlReader.run_cons, YamlReader.run_nil, hend]
    refine ⟨?_, hvars⟩
    cases phase with
    | blocks => exact ⟨rfl, h'.2.1, h'.2.2⟩
    | named => exact ⟨rfl, h'.2⟩
    | _ => exact ⟨rfl, h'.2.1, h'.2.2⟩

/-- The variables of a phase and the others are all. -/
theorem Holds.eq {s t : YamlReader} (hs : key.Holds s) (ht : key.Holds t)
    (hvars : t.blockVars = s.blockVars) (hmapping : t.mappingDepth = s.mappingDepth)
    (hseq : t.seqDepth = s.seqDepth) : t = s := by
  obtain ⟨ops, devices, md, sd, ip, saw, rv, iv, id, key⟩ := s
  obtain ⟨ops', devices', md', sd', ip', saw', rv', iv', id', key'⟩ := t
  simp_all [Holds, YamlReader.blockVars, YamlReader.result]

/-- The first event that is read as a part of a block. -/
theorem after_eq_none {d : Int} (h : phase.after d es = none) : ∃ es₁ e es₂, es = es₁ ++ e :: es₂ ∧
    phase.after d es₁ = some .blocks ∧
      ((∃ v, e = .scalar v) ∧ d + (es₁.map YamlEvent.mappingStep).sum = 2 ∨
        e = .mappingStart ∧ d + (es₁.map YamlEvent.mappingStep).sum = 1) := by
  induction es generalizing d phase with
  | nil => cases h
  | cons e es ih =>
    rw [after, Option.bind_eq_none_iff] at h
    cases hnext : phase.next d e with
    | none =>
      refine ⟨[], e, es, rfl, ?_⟩
      cases phase <;> cases e <;> simp_all [next, after]
    | some phase' =>
      obtain ⟨es₁, e', es₂, rfl, hafter, hread⟩ := ih (h phase' hnext)
      refine ⟨e :: es₁, e', es₂, rfl, ?_, ?_⟩
      · rw [after, hnext, Option.bind_some, hafter]
      · simpa [add_assoc] using hread

end RootPhase

namespace YamlNode

/-- Behind the value a key of the root mapping is expected, and nothing of it was read as a part of a
block. -/
def SkippedInRoot (n : YamlNode) : Prop :=
  (RootPhase.value.after 1 n.events).map RootPhase.close = some .key

instance (n : YamlNode) : Decidable n.SkippedInRoot := inferInstanceAs (Decidable (_ = _))

mutual

/-- Without `parameters`, every scalar outside of the mappings is taken for a value or a key in turn. -/
theorem after_events (n : YamlNode) (h : ∀ v ∈ n.outside, ¬ UsedInRoot v) (valNext : Bool) :
    (RootPhase.expect valNext).after 1 n.events =
      some (RootPhase.expect (valNext ^^ decide (n.outside.length % 2 = 1))) := by
  match n with
  | .alias => cases valNext <;> rfl
  | .scalar value =>
    have hne : cstring value ≠ chars "parameters" := h value (by simp [outside])
    cases valNext <;> simp [events, outside, RootPhase.after, RootPhase.expect, RootPhase.next, hne]
  | .sequence items =>
    rw [events, RootPhase.after_sequence (by cases valNext <;> simp [RootPhase.expect])]
    exact after_itemEvents items h valNext
  | .mapping entries =>
    rw [events, RootPhase.after_mapping valNext (nested_entryEvents entries)]
    simp [outside]

theorem after_itemEvents (items : List YamlNode) (h : ∀ v ∈ outsideItems items, ¬ UsedInRoot v)
    (valNext : Bool) : (RootPhase.expect valNext).after 1 (itemEvents items) =
      some (RootPhase.expect (valNext ^^ decide ((outsideItems items).length % 2 = 1))) := by
  match items with
  | [] => simp [itemEvents, outsideItems, RootPhase.after]
  | n :: items =>
    rw [outsideItems] at h ⊢
    rw [itemEvents, RootPhase.after_append,
      after_events n (fun v hv => h v (List.mem_append_left _ hv)) valNext, Option.bind_some,
      n.nested_events.sum_steps.1, add_zero,
      after_itemEvents items (fun v hv => h v (List.mem_append_right _ hv)), List.length_append,
      Bool.xor_assoc]
    rcases Nat.mod_two_eq_zero_or_one n.outside.length with hn | hn <;>
      rcases Nat.mod_two_eq_zero_or_one (outsideItems items).length with hi | hi <;>
        simp [Nat.add_mod, hn, hi]

end

/-- A value without `parameters` is skipped if and only if it has an odd number of scalars outside of
its mappings. -/
theorem skippedInRoot_iff {n : YamlNode} (h : ∀ v ∈ n.outside, ¬ UsedInRoot v) :
    n.SkippedInRoot ↔ n.outside.length % 2 = 1 := by
  have hafter : RootPhase.value.after 1 n.events = _ := after_events n h true
  rw [SkippedInRoot, hafter]
  rcases Nat.mod_two_eq_zero_or_one n.outside.length with hlen | hlen <;>
    simp [hlen, RootPhase.expect, RootPhase.close]

end YamlNode

namespace YamlReader

/-- The parser expects a key of the root mapping. -/
structure AtRootKey (s : YamlReader) : Prop where
  key : RootPhase.key.Holds s
  mappingDepth : s.mappingDepth = 1
  seqDepth : s.seqDepth = 0

variable {s : YamlReader} {key : List Char} {n : YamlNode}

theorem run_entry : s.run num (YamlNode.entryEvents [(.scalar key, n)]) =
    (s.event num (.scalar key)).run num n.events := by
  simp [YamlNode.entryEvents, YamlNode.events]

namespace AtRootKey

variable (num) in
/-- An unused key has been read. -/
theorem value (hs : s.AtRootKey) (hkey : ¬ UsedInRoot key) :
    let s' := s.event num (.scalar key)
    RootPhase.value.Holds s' ∧ s'.blockVars = s.blockVars ∧ s'.mappingDepth = 1 ∧
      s'.seqDepth = 0 := by
  have hne : cstring key ≠ chars "parameters" := hkey
  have hnext : RootPhase.key.next s.mappingDepth (.scalar key) = some .value := by
    rw [RootPhase.next, hs.mappingDepth, if_pos rfl, if_neg hne]
  obtain ⟨hvalue, hvars⟩ := hs.key.scalar num key hnext
  refine ⟨hvalue, hvars, ?_, ?_⟩
  · rw [event_mappingDepth, hs.mappingDepth]
    rfl
  · rw [event_seqDepth, hs.seqDepth]
    rfl

variable (num) in
/-- What an entry with an unused key leaves. -/
theorem run_entry (hs : s.AtRootKey) (hkey : ¬ UsedInRoot key) {phase : RootPhase}
    (hafter : RootPhase.value.after 1 n.events = some phase) :
    let t := s.run num (YamlNode.entryEvents [(.scalar key, n)])
    phase.close.Holds t ∧ t.blockVars = s.blockVars ∧ t.mappingDepth = 1 ∧ t.seqDepth = 0 := by
  obtain ⟨hvalue, hvars, hmapping, hseq⟩ := hs.value num hkey
  obtain ⟨hholds, hvars'⟩ := hvalue.run_events num hmapping hseq n hafter
  obtain ⟨hmapping', hseq'⟩ := run_nested_counters num
    (s := s.event num (.scalar key)) n.nested_events
  rw [YamlReader.run_entry]
  exact ⟨hholds, hvars'.trans hvars, hmapping'.trans hmapping, hseq'.trans hseq⟩

/-- Nothing at all is left of an entry that is skipped. -/
theorem run_skipped (hs : s.AtRootKey) (hkey : ¬ UsedInRoot key) (hn : n.SkippedInRoot) :
    s.run num (YamlNode.entryEvents [(.scalar key, n)]) = s := by
  obtain ⟨phase, hafter, hclose⟩ := Option.map_eq_some_iff.mp hn
  obtain ⟨hholds, hvars, hmapping, hseq⟩ := hs.run_entry num hkey hafter
  rw [hclose] at hholds
  exact hs.key.eq hholds hvars (hmapping.trans hs.mappingDepth.symm) (hseq.trans hs.seqDepth.symm)

variable (num) in
/-- A value that is a sequence, up to one of the events in it. -/
theorem run_items (hs : s.AtRootKey) (hkey : ¬ UsedInRoot key) {items : List YamlNode}
    {es₁ es₂ : List YamlEvent} {e : YamlEvent} (hitems : YamlNode.itemEvents items = es₁ ++ e :: es₂)
    {phase : RootPhase} (hafter : RootPhase.value.after 1 es₁ = some phase) :
    ∃ u : YamlReader, phase.Holds u ∧ u.blockVars = s.blockVars ∧
      u.mappingDepth = 1 + (es₁.map YamlEvent.mappingStep).sum ∧
      u.seqDepth = 1 + (es₁.map YamlEvent.seqStep).sum ∧
      s.run num (YamlNode.entryEvents [(.scalar key, .sequence items)]) =
        (u.event num e).run num (es₂ ++ [.sequenceEnd]) := by
  obtain ⟨hvalue, hvars, hmapping, hseq⟩ := hs.value num hkey
  rw [YamlReader.run_entry]
  generalize s.event num (.scalar key) = s' at hvalue hvars hmapping hseq ⊢
  have hstart : s'.event num .sequenceStart = { s' with seqDepth := 1 } := by
    simp [event, hvalue.2.1, hseq]
  have hvalue' : RootPhase.value.Holds { s' with seqDepth := 1 } := hvalue.congr rfl rfl rfl
  have hprefix : ∀ es, es <+: es₁ → 1 ≤ 1 + (es.map YamlEvent.seqStep).sum := by
    intro es hes
    have hall : es <+: YamlNode.itemEvents items := by
      rw [hitems]
      exact hes.trans (List.prefix_append _ _)
    have := (YamlNode.nested_itemEvents items).sum_seqStep_nonneg hall
    omega
  rw [← hmapping] at hafter
  obtain ⟨hholds, hvars'⟩ := hvalue'.run num hprefix hafter
  refine ⟨_, hholds, hvars'.trans hvars, ?_, run_counters.2, ?_⟩
  · rw [run_counters.1]
    simp only [hmapping]
  · rw [YamlNode.events, List.cons_append, run_cons, hstart, hitems, List.append_assoc, run_append]
    rfl

end AtRootKey
end YamlReader

namespace RootPlace

variable {D : Type*} (num : NumberReader D) (ops : ClOps) {p : RootPlace}

/-- `readyaml` has come to a key of the root mapping at the place. -/
def AtKey (p : RootPlace) : Prop := RootPhase.key.Holds (p.reader num ops)

variable {num ops}

theorem AtKey.atRootKey (h : p.AtKey num ops) : (p.reader num ops).AtRootKey where
  key := h
  mappingDepth := (p.reader_counters num ops).1
  seqDepth := (p.reader_counters num ops).2

theorem AtKey.unchanged (h : p.AtKey num ops) {key : List Char} {n : YamlNode}
    (hkey : ¬ UsedInRoot key) (hn : n.SkippedInRoot) :
    readyaml num ops (some (documentEvents (p.document [(.scalar key, n)]))) =
      readyaml num ops (some (documentEvents (p.document []))) := by
  rw [readyaml_document, readyaml_document, h.atRootKey.run_skipped hkey hn]
  rfl

end RootPlace

/-! ## Places that tell -/

section
variable {s : YamlReader} {e : YamlEvent} {es : List YamlEvent}

/-- A number that has been read as `1` stays. -/
theorem run_ones (h : s.ops.fc = 1) : (s.run ones es).ops.fc = 1 := by
  have hrun := congrArg (fun r => r.1.fc) (YamlReader.run_result ones s es)
  rw [YamlReader.result] at hrun
  rw [hrun, foldl_field (store_fc ones), h]
  cases ((s.settings es).filter _).getLast? <;> rfl

/-- A block with a value of `default`. -/
def defaultBlock (id : List Char) (value : YamlNode) : YamlNode :=
  .mapping [(.scalar (chars "id"), .scalar id), (.scalar (chars "default"), value)]

/-- The blocks follow. -/
def beforeBlocks : RootPlace where
  before := []
  behind := [(.scalar (chars "parameters"), .sequence [defaultBlock (chars "freq") (.scalar [])])]

/-- A sequence follows that is not that of the blocks. -/
def beforeSequence : RootPlace where
  before := []
  behind := [(.scalar [], .sequence [defaultBlock (chars "freq") (.scalar []), .scalar []])]

/-- Behind a block whose last value is a mapping: the scalars in it are not read. -/
def behindBlock (id : List Char) (behind : List (YamlNode × YamlNode)) : RootPlace where
  before := [(.scalar (chars "parameters"), .sequence [defaultBlock id (.mapping [])])]
  behind

/-- In a value, a mapping below `parameters`. -/
def belowParameters : YamlNode :=
  .sequence [.scalar [], .scalar (chars "parameters"),
    .mapping [(.scalar [], .sequence [.scalar []])]]

theorem beforeBlocks_fc (valNext : Bool) :
    ((⟨zeros, [], 1, 0, false, false, valNext, false, [], []⟩ : YamlReader).loop ones
      beforeBlocks.eventsBehind).result.1.fc = if valNext then 0 else 1 := by
  obtain ⟨hparameters, hid, hdefault, hfreq, -⟩ := cstring_names
  cases valNext <;>
    simp [beforeBlocks, RootPlace.eventsBehind, defaultBlock, YamlNode.entryEvents,
      YamlNode.itemEvents, YamlNode.events, YamlReader.loop, YamlReader.event, YamlReader.scalar,
      YamlReader.itemValue, YamlReader.setDefault, YamlReader.result, chars_inj, hparameters, hid,
      hdefault, hfreq, ones, zeros]

theorem beforeSequence_fc (saw valNext : Bool) :
    ((⟨zeros, [], 1, 0, false, saw, valNext, false, [], []⟩ : YamlReader).loop ones
      beforeSequence.eventsBehind).result.1.fc = if saw then 1 else 0 := by
  obtain ⟨-, hid, hdefault, hfreq, -⟩ := cstring_names
  have hnil := nil_ne_parameters
  have hnil' : cstring [] = [] := rfl
  cases saw <;> cases valNext <;>
    simp [beforeSequence, RootPlace.eventsBehind, defaultBlock, YamlNode.entryEvents,
      YamlNode.itemEvents, YamlNode.events, YamlReader.loop, YamlReader.event, YamlReader.scalar,
      YamlReader.itemValue, YamlReader.setDefault, YamlReader.result, chars_inj, hid, hdefault, hfreq,
      ones, zeros, hnil, hnil']

theorem behindBlock_reader {id : List Char} (h : cstring id = id)
    (behind : List (YamlNode × YamlNode)) :
    (behindBlock id behind).reader ones zeros =
      ⟨zeros, [], 1, 0, false, false, false, true, id, chars "default"⟩ := by
  obtain ⟨hparameters, hid, hdefault, -, -⟩ := cstring_names
  simp [behindBlock, RootPlace.reader, RootPlace.eventsBefore, defaultBlock, YamlNode.entryEvents,
    YamlNode.itemEvents, YamlNode.events, YamlReader.event, YamlReader.scalar, YamlReader.itemValue,
    YamlReader.init, hparameters, hid, hdefault, h]

theorem belowParameters_fc {id : List Char} (h : id = chars "freq" ∨ id = chars "samplerate") :
    ((⟨zeros, [], 1, 0, false, false, false, true, id, chars "default"⟩ : YamlReader).loop ones
      (behindBlock id [(.scalar [], belowParameters)]).eventsBehind).result.1.fc =
        if id = chars "freq" then 1 else 0 := by
  obtain ⟨hparameters, -⟩ := cstring_names
  have hnil := nil_ne_parameters
  have hnil' : cstring [] = [] := rfl
  rcases h with rfl | rfl <;>
    simp [behindBlock, belowParameters, RootPlace.eventsBehind, YamlNode.entryEvents,
      YamlNode.itemEvents, YamlNode.events, YamlReader.loop, YamlReader.event, YamlReader.scalar,
      YamlReader.itemValue, YamlReader.setDefault, YamlReader.result, chars_inj, hparameters, ones,
      zeros, hnil, hnil']

/-- What `readyaml` leaves unchanged, wherever it stands. -/
def UnchangedInRoot (key : List Char) (n : YamlNode) : Prop :=
  ∀ (D : Type) (num : NumberReader D) (ops : ClOps) (p : RootPlace), p.AtKey num ops →
    readyaml num ops (some (documentEvents (p.document [(.scalar key, n)]))) =
      readyaml num ops (some (documentEvents (p.document [])))

namespace UnchangedInRoot

variable {key : List Char} {n : YamlNode} {items : List YamlNode}

theorem result (h : UnchangedInRoot key n) {p : RootPlace} (hp : p.AtKey ones zeros) :
    (((p.reader ones zeros).run ones (YamlNode.entryEvents [(.scalar key, n)])).loop ones
      p.eventsBehind).result = ((p.reader ones zeros).loop ones p.eventsBehind).result := by
  have hdoc := h Unit ones zeros p hp
  rwa [RootPlace.readyaml_document, RootPlace.readyaml_document] at hdoc

/-- The reader behind the entry, when it has read nothing as a part of a block. -/
theorem fc_eq (h : UnchangedInRoot key n) (hkey : ¬ UsedInRoot key) {phase : RootPhase}
    (hafter : RootPhase.value.after 1 n.events = some phase) {p : RootPlace}
    (hp : p.reader ones zeros = ⟨zeros, [], 1, 0, false, false, false, false, [], []⟩) :
    ∃ saw valNext, phase.close.Holds ⟨zeros, [], 1, 0, false, saw, valNext, false, [], []⟩ ∧
      ((⟨zeros, [], 1, 0, false, saw, valNext, false, [], []⟩ : YamlReader).loop ones
        p.eventsBehind).result =
      ((⟨zeros, [], 1, 0, false, false, false, false, [], []⟩ : YamlReader).loop ones
        p.eventsBehind).result := by
  have hkey' : p.AtKey ones zeros := by
    rw [RootPlace.AtKey, hp]
    exact ⟨rfl, rfl, rfl⟩
  obtain ⟨hholds, hvars, hmapping, hseq⟩ := hkey'.atRootKey.run_entry ones hkey hafter
  have hresult := h.result hkey'
  generalize YamlReader.run ones (p.reader ones zeros) _ = t at hholds hvars hmapping hseq hresult
  obtain ⟨ops, devices, md, sd, ip, saw, rv, iv, id, key⟩ := t
  rw [hp] at hvars hresult
  have hin : ip = false := by cases phase <;> exact hholds.1
  simp only [YamlReader.blockVars, YamlReader.result, Prod.mk.injEq] at hvars hmapping hseq
  obtain ⟨⟨rfl, rfl⟩, rfl, rfl, rfl⟩ := hvars
  subst hin hmapping hseq
  exact ⟨saw, rv, hholds, hresult⟩

theorem after_ne_value (h : UnchangedInRoot key n) (hkey : ¬ UsedInRoot key) :
    RootPhase.value.after 1 n.events ≠ some .value := by
  intro hafter
  obtain ⟨saw, valNext, ⟨_, hsaw, hval⟩, hresult⟩ := h.fc_eq hkey hafter (p := beforeBlocks) rfl
  simp only at hsaw hval
  subst hsaw hval
  have hfc := congrArg (fun r => r.1.fc) hresult
  simp only [beforeBlocks_fc] at hfc
  exact absurd hfc (by decide)

theorem after_ne_named (h : UnchangedInRoot key n) (hkey : ¬ UsedInRoot key) :
    RootPhase.value.after 1 n.events ≠ some .named := by
  intro hafter
  obtain ⟨saw, valNext, ⟨_, hsaw⟩, hresult⟩ := h.fc_eq hkey hafter (p := beforeSequence) rfl
  simp only at hsaw
  subst hsaw
  have hfc := congrArg (fun r => r.1.fc) hresult
  simp only [beforeSequence_fc] at hfc
  exact absurd hfc (by decide)

/-- A scalar is stored as the value of the last `default`. -/
theorem scalar_notRead (h : UnchangedInRoot key (.sequence items)) (hkey : ¬ UsedInRoot key)
    {es₁ es₂ : List YamlEvent} {v : List Char}
    (hitems : YamlNode.itemEvents items = es₁ ++ .scalar v :: es₂)
    (hafter : RootPhase.value.after 1 es₁ = some .blocks) :
    1 + (es₁.map YamlEvent.mappingStep).sum ≠ 2 := by
  intro hdepth
  obtain ⟨-, -, -, hfreq, -⟩ := cstring_names
  have hreader := behindBlock_reader hfreq []
  have hp : (behindBlock (chars "freq") []).AtKey ones zeros := by
    rw [RootPlace.AtKey, hreader]
    exact ⟨rfl, rfl, rfl⟩
  obtain ⟨u, ⟨hin, hsaw, hval⟩, hvars, hmapping, hseq, hrun⟩ :=
    hp.atRootKey.run_items ones hkey hitems hafter
  have hbehind : ∀ value, .scalar value ∉ (behindBlock (chars "freq") []).eventsBehind := by
    simp [behindBlock, RootPlace.eventsBehind, YamlNode.entryEvents]
  have hfc : (u.event ones (.scalar v)).ops.fc = 1 := by
    obtain ⟨ops, devices, md, sd, ip, saw, rv, iv, id, key⟩ := u
    rw [hreader] at hvars
    simp only [YamlReader.blockVars, YamlReader.result, Prod.mk.injEq] at hvars hin hmapping
    obtain ⟨⟨rfl, rfl⟩, rfl, rfl, rfl⟩ := hvars
    subst hin
    rw [hdepth] at hmapping
    subst hmapping
    simp [YamlReader.event, YamlReader.scalar, YamlReader.itemValue, YamlReader.setDefault, chars_inj,
      ones]
  have hresult := congrArg (fun r => r.1.fc) (h.result hp)
  rw [hrun, YamlReader.loop_result hbehind, YamlReader.loop_result hbehind, hreader] at hresult
  have hzero : (1 : UInt32) = 0 := (run_ones hfc).symm.trans hresult
  exact absurd hzero (by decide)

/-- The start of a block forgets the last `id`. -/
theorem mapping_notRead (h : UnchangedInRoot key (.sequence items)) (hkey : ¬ UsedInRoot key)
    {es₁ es₂ : List YamlEvent}
    (hitems : YamlNode.itemEvents items = es₁ ++ .mappingStart :: es₂)
    (hafter : RootPhase.value.after 1 es₁ = some .blocks) :
    1 + (es₁.map YamlEvent.mappingStep).sum ≠ 1 := by
  intro hdepth
  obtain ⟨-, -, -, hfreq, hsamplerate⟩ := cstring_names
  -- whatever the last `id` was, the same is left
  have hread : ∀ id : List Char, cstring id = id → id = chars "freq" ∨ id = chars "samplerate" →
      ((((⟨zeros, [], 2, 1 + (es₁.map YamlEvent.seqStep).sum, true, false, false, false, [], []⟩ :
        YamlReader).run ones (es₂ ++ [.sequenceEnd])).loop ones
          (behindBlock id [(.scalar [], belowParameters)]).eventsBehind).result.1.fc) =
            if id = chars "freq" then 1 else 0 := by
    intro id hid hids
    have hreader := behindBlock_reader hid [(.scalar [], belowParameters)]
    have hp : (behindBlock id [(.scalar [], belowParameters)]).AtKey ones zeros := by
      rw [RootPlace.AtKey, hreader]
      exact ⟨rfl, rfl, rfl⟩
    obtain ⟨u, ⟨hin, hsaw, hval⟩, hvars, hmapping, hseq, hrun⟩ :=
      hp.atRootKey.run_items ones hkey hitems hafter
    have hstart : u.event ones .mappingStart = ⟨zeros, [], 2, 1 + (es₁.map YamlEvent.seqStep).sum,
        true, false, false, false, [], []⟩ := by
      obtain ⟨ops, devices, md, sd, ip, saw, rv, iv, id', key⟩ := u
      rw [hreader] at hvars
      simp only [YamlReader.blockVars, YamlReader.result, Prod.mk.injEq]
        at hvars hin hsaw hval hmapping hseq
      obtain ⟨⟨rfl, rfl⟩, rfl, rfl, rfl⟩ := hvars
      subst hin hsaw hval hseq
      rw [hdepth] at hmapping
      subst hmapping
      rfl
    have hresult := congrArg (fun r => r.1.fc) (h.result hp)
    rw [hrun, hstart, hreader] at hresult
    exact hresult.trans (belowParameters_fc hids)
  have hne : chars "samplerate" ≠ chars "freq" := by simp [chars_inj]
  have hone := hread _ hfreq (.inl rfl)
  have hzero := hread _ hsamplerate (.inr rfl)
  rw [if_pos rfl] at hone
  rw [if_neg hne] at hzero
  exact absurd (hone.symm.trans hzero) (by decide)

theorem after_ne_none (h : UnchangedInRoot key n) (hkey : ¬ UsedInRoot key) :
    RootPhase.value.after 1 n.events ≠ none := by
  intro hafter
  cases n with
  | «alias» => cases hafter
  | scalar v => cases hafter
  | mapping entries =>
    have hvalue := RootPhase.after_mapping true (YamlNode.nested_entryEvents entries)
    rw [YamlNode.events] at hafter
    cases hvalue.symm.trans hafter
  | sequence items =>
    rw [YamlNode.events, RootPhase.after_sequence (by simp)] at hafter
    obtain ⟨es₁, e, es₂, hitems, hblocks, ⟨⟨v, rfl⟩, hdepth⟩ | ⟨rfl, hdepth⟩⟩ :=
      RootPhase.after_eq_none hafter
    · exact h.scalar_notRead hkey hitems hblocks hdepth
    · exact h.mapping_notRead hkey hitems hblocks hdepth

theorem skipped (h : UnchangedInRoot key n) (hkey : ¬ UsedInRoot key) : n.SkippedInRoot := by
  rw [YamlNode.SkippedInRoot]
  cases hafter : RootPhase.value.after 1 n.events with
  | none => exact absurd hafter (h.after_ne_none hkey)
  | some phase =>
    cases phase with
    | value => exact absurd hafter (h.after_ne_value hkey)
    | named => exact absurd hafter (h.after_ne_named hkey)
    | _ => rfl

end UnchangedInRoot

end
end Aegir
