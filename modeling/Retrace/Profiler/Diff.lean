import Retrace.Profiler.Aggregate

/-!
# Comparing profiles

`diff.c`: the paths whose class changed from a baseline to a candidate, and the names that only the candidate has.
-/

namespace Retrace.Profiler

open CLib

end Retrace.Profiler
