import Arborist.Proofs.BatchOutcome
import Arborist.Proofs.Dispatch

/-!
# From a finding back to its tree file

The path of a finding is that of a tree file without the suffix.  The suffix is looked for in the
whole path, and the path is cut off where it occurs for the last time.
`Discovery.beforeLast?_eq_some_iff` says what an occurrence is: the text before it, followed by the
part, begins the whole text.  Of two occurrences the later one has more text before it, whether
they overlap or not, and nothing has more before it than the one at the very end.  So it is always
the end of the name that is cut off, and putting the suffix back gives the path of the tree file.

That path is text.  Two files whose paths are displayed alike cannot be told apart by it
(`Runner.Reaches.sourceOf_eq_iff`), and this is possible if directories have names that are not
text.
-/

namespace Arborist

open Arborist.Path

namespace Discovery

/-! ### The last occurrence -/

end Discovery

namespace Path

end Path

namespace Runner

open Discovery

variable {volume : Volume} {r : Runner} {names : List Name} {entries : List (Name × Entry)}

namespace Reaches

end Reaches

end Runner
end Arborist
