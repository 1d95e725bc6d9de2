/-!
# Paths

A node of a tree is addressed by the child indices on the way to it from the root. Indices count from
1, and the empty path addresses the root: `[2, 1]` is the first child of the second child of the root.
-/

namespace TypedGrammar

/-- The child indices from the root to a node, counted from 1. -/
abbrev Path := List Nat

/-- The indices between square brackets. -/
def Path.text (path : Path) : String := "[" ++ ", ".intercalate (path.map toString) ++ "]"

end TypedGrammar
