import Aegir.Std.CString

/-!
# `readyaml`: the configuration file

The loop of `readyaml` over the events that libyaml makes of the file. Where the list of events
ends without the end of the document, `yaml_parser_parse` reports an error. The numbers in the file
are read by `atoi` and `atof`, which are parameters, like the conversion of a `double` to `uint32_t`.
-/

namespace Aegir

/-- The events of libyaml, with the data that `readyaml` uses. The value of a scalar may contain
NUL. -/
inductive YamlEvent
  | streamStart | streamEnd
  | documentStart | documentEnd
  | alias
  | scalar (value : List Char)
  | sequenceStart | sequenceEnd
  | mappingStart | mappingEnd
  deriving DecidableEq, Repr

/-- The fields of `cl_ops` that `readyaml` sets. -/
structure ClOps where
  refname : List Char
  fs : UInt32
  fc : UInt32
  blocksize : UInt32
  deriving DecidableEq, Repr

/-- `atoi`, `atof` and the conversion `(uint32_t)` of a `double`. -/
structure NumberReader (D : Type*) where
  atoi : List Char → Int32
  atof : List Char → D
  toUint32 : D → UInt32

/-- The local variables of `readyaml`, and what it has stored in `ops`. -/
structure YamlReader where
  ops : ClOps
  signaldevices : List (List Char)
  mappingDepth : Int
  seqDepth : Int
  inParams : Bool
  sawParamsKey : Bool
  rootValNext : Bool
  itemValNext : Bool
  paramId : List Char
  lastKey : List Char
  deriving DecidableEq, Repr

namespace YamlReader

variable {D : Type*} (num : NumberReader D)

/-- The variables before the first event. -/
def init (ops : ClOps) : YamlReader := ⟨ops, [], 0, 0, false, false, false, false, [], []⟩

/-- The value of `default` in the current block. -/
def setDefault (ops : ClOps) (paramId val : List Char) : ClOps :=
  if paramId = chars "num_samples" then { ops with blocksize := (num.atoi val * 2).toUInt32 }
  else if paramId = chars "freq" then { ops with fc := num.toUint32 (num.atof val) }
  else if paramId = chars "samplerate" then { ops with fs := num.toUint32 (num.atof val) }
  else ops

/-- A value in a block. The test `last_key.find("signaldevice") == 0` is for a prefix. -/
def itemValue (s : YamlReader) (val : List Char) : YamlReader :=
  if s.lastKey = chars "id" then { s with paramId := val }
  else if s.lastKey = chars "default" then { s with ops := setDefault num s.ops s.paramId val }
  else if s.paramId = chars "devices" then
    if s.lastKey = chars "referencedevice" then
      { s with ops := { s.ops with refname := val }, signaldevices := s.signaldevices ++ [val] }
    else if chars "signaldevice" <+: s.lastKey then
      { s with signaldevices := s.signaldevices ++ [val] }
    else s
  else s

/-- The case `YAML_SCALAR_EVENT`. -/
def scalar (s : YamlReader) (val : List Char) : YamlReader :=
  if !s.inParams ∧ s.mappingDepth = 1 then
    if !s.rootValNext then
      let s := if val = chars "parameters" then { s with sawParamsKey := true } else s
      { s with rootValNext := true }
    else { s with rootValNext := false }
  else if s.inParams ∧ s.mappingDepth = 2 then
    if !s.itemValNext then { s with lastKey := val, itemValNext := true }
    else { s.itemValue num val with itemValNext := false }
  else s

/-- One event that does not end the loop. -/
def event (s : YamlReader) : YamlEvent → YamlReader
  | .mappingStart =>
    let s := { s with mappingDepth := s.mappingDepth + 1 }
    if s.mappingDepth = 2 ∧ s.inParams then
      { s with paramId := [], lastKey := [], itemValNext := false }
    else s
  | .mappingEnd => { s with mappingDepth := s.mappingDepth - 1 }
  | .sequenceStart =>
    let s := { s with seqDepth := s.seqDepth + 1 }
    if s.sawParamsKey then { s with inParams := true, sawParamsKey := false, rootValNext := false }
    else s
  | .sequenceEnd =>
    let s := { s with seqDepth := s.seqDepth - 1 }
    if s.seqDepth = 0 then { s with inParams := false } else s
  | .scalar value => s.scalar num (cstring value)
  | _ => s

/-- The loop: it ends with the document or the stream, or with an error of the parser. -/
def loop (s : YamlReader) : List YamlEvent → YamlReader
  | [] | .streamEnd :: _ | .documentEnd :: _ => s
  | e :: es => loop (s.event num e) es

end YamlReader

/-- `readyaml`: what it leaves in `ops`, and the devices that it returns. There are no events when
the file cannot be opened or the parser cannot be initialized. -/
def readyaml {D : Type*} (num : NumberReader D) (ops : ClOps) (file : Option (List YamlEvent)) :
    ClOps × List (List Char) :=
  match file with
  | none => (ops, [])
  | some es =>
    let s := (YamlReader.init ops).loop num es
    (s.ops, s.signaldevices)

end Aegir
