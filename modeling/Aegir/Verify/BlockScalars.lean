import Aegir.Verify.RootEntries

/-!
# The entries in the events of a document

The entries of the blocks, found in the events without the variables of `readyaml`: the scalars that
stand directly in the mappings of the sequence `parameters` are collected mapping by mapping and taken
in pairs, where the events tell the depth and the phase of the root mapping (`entriesIn`). `readyaml`
reads just these (`settings_eq_entriesIn`). When a flat configuration is cut off anywhere in its root
mapping, they are the entries of the whole blocks and those of the block that is cut off, which the
document shows (`entriesIn_cut`).
-/

namespace Aegir

/-! ## Places in the events -/

/-- A place between two events: the depths of the mappings and the sequences, and what the next scalar
of the root mapping is taken for. -/
structure EventPlace where
  depth : Int
  seqs : Int
  phase : RootPhase

namespace EventPlace

/-- Before the first event. -/
def start : EventPlace := ⟨0, 0, .key⟩

/-- The place behind an event. The phase of the blocks ends with the outermost sequence. -/
def next (p : EventPlace) (e : YamlEvent) : EventPlace where
  depth := p.depth + e.mappingStep
  seqs := p.seqs + e.seqStep
  phase :=
    if p.phase = .blocks ∧ e = .sequenceEnd ∧ p.seqs = 1 then .key
    else (p.phase.next p.depth e).getD .blocks

/-- The event is a scalar that stands directly in a mapping of `parameters`, or the start of such a
mapping. -/
def InBlock (p : EventPlace) : YamlEvent → Prop
  | .scalar _ => p.phase = .blocks ∧ p.depth = 2
  | .mappingStart => p.phase = .blocks ∧ p.depth = 1
  | _ => False

instance (p : EventPlace) : (e : YamlEvent) → Decidable (p.InBlock e)
  | .scalar _ => inferInstanceAs (Decidable (p.phase = .blocks ∧ p.depth = 2))
  | .mappingStart => inferInstanceAs (Decidable (p.phase = .blocks ∧ p.depth = 1))
  | .streamStart | .streamEnd | .documentStart | .documentEnd | .alias | .sequenceStart
  | .sequenceEnd | .mappingEnd => isFalse id

end EventPlace

section
variable {p : EventPlace} {l : List (List Char)} {e : YamlEvent} {es : List YamlEvent}

end

/-- The entries of a block with the scalars `l`, which are keys and values in turn. -/
def entriesOf (l : List (List Char)) : List Setting := settingsFrom [] (pairs l)

/-- The variables of a block behind the scalars `l`. -/
structure YamlReader.HasScalars (s : YamlReader) (l : List (List Char)) : Prop where
  paramId : s.paramId = idBehind [] (pairs l)
  scalars : s.itemValNext = false ∧ l.length % 2 = 0 ∨
    s.itemValNext = true ∧ ∃ l', l'.length % 2 = 0 ∧ l = l' ++ [s.lastKey]

/-- The variables of `readyaml` at a place, where the scalars `l` stand in the open block. -/
structure EventPlace.Holds (p : EventPlace) (l : List (List Char)) (s : YamlReader) : Prop where
  depth : s.mappingDepth = p.depth
  seqs : s.seqDepth = p.seqs
  phase : p.phase.Holds s
  block : s.HasScalars l

section
variable {p : EventPlace} {l : List (List Char)} {s : YamlReader} {e : YamlEvent}
  {es : List YamlEvent}

theorem YamlReader.HasScalars.congr {s' : YamlReader} (h : s.HasScalars l)
    (hvars : s'.blockVars = s.blockVars) : s'.HasScalars l := by
  simp only [YamlReader.blockVars, Prod.mk.injEq] at hvars
  obtain ⟨-, hval, hid, hkey⟩ := hvars
  exact ⟨hid.trans h.paramId, by rw [hval, hkey]; exact h.scalars⟩

/-- The end of a sequence ends the blocks if it is the outermost one. -/
theorem EventPlace.Holds.sequenceEnd (h : p.Holds l s) :
    (p.next .sequenceEnd).Holds l (s.event ones .sequenceEnd) := by
  obtain ⟨d, q, phase⟩ := p
  obtain ⟨ops, devices, md, sd, ip, saw, rv, iv, id, key⟩ := s
  obtain ⟨rfl, rfl, hphase, hblock⟩ := h
  by_cases hq : sd = 1
  · subst hq
    cases phase with
    | blocks =>
      obtain ⟨-, rfl, rfl⟩ : ip = true ∧ saw = false ∧ rv = false := hphase
      exact ⟨(add_zero _).symm, rfl, ⟨rfl, rfl, rfl⟩, hblock.congr rfl⟩
    | _ =>
      obtain ⟨rfl, hphase⟩ := hphase
      exact ⟨(add_zero _).symm, rfl, ⟨rfl, hphase⟩, hblock.congr rfl⟩
  · have hzero : ¬ sd - 1 = 0 := by omega
    have hnext : (next ⟨md, sd, phase⟩ .sequenceEnd).phase = phase := by
      cases phase <;> simp [next, hq, RootPhase.next]
    simp only [YamlReader.event, if_neg hzero]
    refine ⟨(add_zero _).symm, rfl, ?_, hblock.congr rfl⟩
    rw [hnext]
    exact RootPhase.Holds.congr hphase rfl rfl rfl

/-- The variables are in a block just where the events are. -/
theorem EventPlace.Holds.inBlock_iff (h : p.Holds l s) :
    (s.inParams = true ∧ s.mappingDepth = 2) ↔ p.phase = .blocks ∧ p.depth = 2 := by
  rw [h.depth]
  refine and_congr_left' ⟨fun hin => ?_, fun hp => ?_⟩
  · cases hp : p.phase with
    | blocks => rfl
    | _ =>
      have hholds := h.phase
      rw [hp] at hholds
      cases hin.symm.trans hholds.1
  · have hholds := h.phase
    rw [hp] at hholds
    exact hholds.1

theorem pairs_concat (h : l.length % 2 = 0) (key : List Char) : pairs (l ++ [key]) = pairs l := by
  rw [pairs_append h]
  exact List.append_nil _

/-- A scalar of a block: a key, or the value of an entry. -/
theorem YamlReader.HasScalars.scalar (h : s.HasScalars l) (hin : s.inParams = true)
    (hd : s.mappingDepth = 2) (v : List Char) :
    (s.event ones (.scalar v)).HasScalars (l ++ [cstring v]) ∧
      entriesOf (l ++ [cstring v]) = entriesOf l ++ (s.setting (.scalar v)).toList := by
  obtain ⟨ops, devices, md, sd, ip, saw, rv, iv, id, key⟩ := s
  obtain rfl : ip = true := hin
  obtain rfl : md = 2 := hd
  obtain ⟨hid, hscalars⟩ := h
  have hid : id = idBehind [] (pairs l) := hid
  rcases hscalars with ⟨hiv, heven⟩ | ⟨hiv, l', heven, hl⟩
  · -- a key
    obtain rfl : iv = false := hiv
    refine ⟨⟨?_, .inr ⟨?_, l, heven, ?_⟩⟩, ?_⟩
    · rw [pairs_concat heven]
      simpa [event, YamlReader.scalar] using hid
    · simp [event, YamlReader.scalar]
    · simp [event, YamlReader.scalar]
    · rw [entriesOf, pairs_concat heven]
      simp [entriesOf, setting]
  · -- a value
    obtain rfl : iv = true := hiv
    have hl : l = l' ++ [key] := hl
    have hpairs : pairs (l ++ [cstring v]) = pairs l ++ [(key, cstring v)] := by
      rw [hl, pairs_concat heven, List.append_assoc, pairs_append heven]
      rfl
    have hlen : (l ++ [cstring v]).length % 2 = 0 := by
      rw [hl]
      simp only [List.length_append, List.length_singleton]
      omega
    have hentries : entriesOf (l ++ [cstring v]) =
        entriesOf l ++ settingsFrom id [(key, cstring v)] := by
      rw [entriesOf, entriesOf, hpairs, settingsFrom_append, ← hid]
    have hbehind : idBehind [] (pairs (l ++ [cstring v])) =
        if key = chars "id" then cstring v else id := by
      rw [hpairs, idBehind_append, ← hid]
      rfl
    rw [hentries]
    by_cases hkey : key = chars "id"
    · refine ⟨⟨?_, .inl ⟨?_, hlen⟩⟩, ?_⟩
      · rw [hbehind, if_pos hkey]
        simp [event, YamlReader.scalar, itemValue, hkey]
      · simp [event, YamlReader.scalar]
      · simp [settingsFrom, setting, hkey]
    · refine ⟨⟨?_, .inl ⟨?_, hlen⟩⟩, ?_⟩
      · rw [hbehind, if_neg hkey]
        simp [event, YamlReader.scalar, itemValue_of_ne, hkey, accept]
      · simp [event, YamlReader.scalar]
      · simp [settingsFrom, setting, hkey]

/-- A scalar of the block that is open. -/
theorem EventPlace.Holds.scalar (h : p.Holds l s) (hp : p.phase = .blocks) (hd : p.depth = 2)
    (v : List Char) :
    (p.next (.scalar v)).Holds (l ++ [cstring v]) (s.event ones (.scalar v)) ∧
      entriesOf (l ++ [cstring v]) = entriesOf l ++ (s.setting (.scalar v)).toList := by
  obtain ⟨hin, hdepth⟩ := h.inBlock_iff.mpr ⟨hp, hd⟩
  obtain ⟨hblock, hentries⟩ := h.block.scalar hin hdepth v
  have hphase : (p.next (.scalar v)).phase = .blocks := by
    simp [next, hp, hd, RootPhase.next]
  refine ⟨⟨?_, ?_, ?_, hblock⟩, hentries⟩
  · rw [YamlReader.event_mappingDepth, h.depth, next]
  · rw [YamlReader.event_seqDepth, h.seqs, next]
  · have hholds := h.phase
    rw [hp] at hholds
    rw [hphase]
    obtain ⟨ops, devices, id, hitem⟩ := YamlReader.itemValue_eq ones s (cstring v)
    rw [YamlReader.event, YamlReader.scalar, hitem]
    simp only [hin, hdepth]
    split_ifs <;> simp_all [RootPhase.Holds]

/-- A mapping of the sequence of blocks starts. -/
theorem EventPlace.Holds.mappingStart (h : p.Holds l s) (hp : p.phase = .blocks) (hd : p.depth = 1) :
    (p.next .mappingStart).Holds [] (s.event ones .mappingStart) := by
  obtain ⟨d, q, phase⟩ := p
  obtain ⟨ops, devices, md, sd, ip, saw, rv, iv, id, key⟩ := s
  obtain ⟨rfl, rfl, hphase, -⟩ := h
  obtain rfl : phase = .blocks := hp
  obtain rfl : md = 1 := hd
  obtain ⟨rfl, rfl, rfl⟩ : ip = true ∧ saw = false ∧ rv = false := hphase
  exact ⟨rfl, (add_zero _).symm, ⟨rfl, rfl, rfl⟩, rfl, .inl ⟨rfl, rfl⟩⟩

end

/-! ## A configuration that is cut off -/

/-- A flat configuration that is cut off: in the root mapping before the sequence of blocks, in the
sequence between two blocks, in a block, or in the root mapping behind the sequence. The last of the
`scalars` may be a key without a value. -/
inductive CutConfig
  | root (scalars : List (List Char))
  | sequence (before : List Entry) (blocks : List Block)
  | block (before : List Entry) (blocks : List Block) (scalars : List (List Char))
  | behind (before : List Entry) (blocks : List Block) (scalars : List (List Char))

namespace CutConfig

/-- The events with whole blocks and `rest` behind them. -/
def eventsTo (before : List Entry) (blocks : List Block) (rest : List YamlEvent) : List YamlEvent :=
  [.streamStart, .documentStart, .mappingStart] ++ (scalarEvents before ++
    .scalar (chars "parameters") :: .sequenceStart :: (blocks.flatMap Block.events ++ rest))

/-- The events before the error. -/
def events : CutConfig → List YamlEvent
  | root scalars => [.streamStart, .documentStart, .mappingStart] ++ scalars.map .scalar
  | sequence before blocks => eventsTo before blocks []
  | block before blocks scalars => eventsTo before blocks (.mappingStart :: scalars.map .scalar)
  | behind before blocks scalars => eventsTo before blocks (.sequenceEnd :: scalars.map .scalar)

/-- The entries of the whole blocks, and those of the block that is cut off. -/
def settings : CutConfig → List Setting
  | root _ => []
  | sequence _ blocks | behind _ blocks _ => blocks.flatMap fun b => b.cut.settings
  | block _ blocks scalars =>
    (blocks.flatMap fun b => b.cut.settings) ++ entriesOf (scalars.map cstring)

end CutConfig

section
variable {l : List (List Char)} {rest : List YamlEvent}

end
end Aegir
