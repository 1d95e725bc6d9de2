/-!
# Order tests on lists

Two ways in which one list may occur in another: in order with gaps (`isSubsequence`), and as one
contiguous run (`containsRun`).
-/

namespace TypedGrammar.Sequence

universe u

variable {α : Type u} [DecidableEq α]

/-- Does the first list occur in the second in order, gaps allowed? Each element takes the first
place that is left for it. -/
def isSubsequence : List α → List α → Bool
  | [], _ => true
  | _ :: _, [] => false
  | a :: needle, b :: haystack =>
    if a = b then isSubsequence needle haystack else isSubsequence (a :: needle) haystack

/-- Does the second list begin with the first? -/
def beginsWith : List α → List α → Bool
  | [], _ => true
  | _ :: _, [] => false
  | a :: needle, b :: haystack => a = b && beginsWith needle haystack

/-- Does the first list occur in the second as a contiguous run? The empty list occurs everywhere. -/
def containsRun (needle : List α) : List α → Bool
  | [] => needle.isEmpty
  | b :: haystack => beginsWith needle (b :: haystack) || containsRun needle haystack

end TypedGrammar.Sequence
