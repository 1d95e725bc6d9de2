import TypedGrammar.Sequence
import Mathlib.Data.List.Infix
import Mathlib.Data.List.NodupEquivFin

/-!
# What the order tests decide

The test for a subsequence takes the first place that is left for each element, and the test for a run
tries every place. Both decide the relations that the library knows for lists: a list embeds into
another in order with gaps, and a list stands in another as a contiguous part.

That taking the first place loses nothing is seen on the pass over the list. However the elements are
placed, the pass has met each of them at its place at the latest, so that it leaves at least what stands
behind that place. Places and windows are the other view of the two relations.
-/

namespace TypedGrammar.Sequence

universe u

variable {α : Type u} {a : α} {needle haystack before behind rest : List α}

/-! ### Places -/

/-- The elements of the first list stand at these places of the second, in strictly ascending order. -/
structure PlacedAt (needle haystack : List α) (place : Fin needle.length → Fin haystack.length) :
    Prop where
  ascending : StrictMono place
  get_place : ∀ i, haystack.get (place i) = needle.get i

/-- A list is a sublist when its elements can be placed in the other one in ascending order. -/
theorem sublist_iff_exists_placedAt :
    needle.Sublist haystack ↔ ∃ place, PlacedAt needle haystack place := by
  rw [List.sublist_iff_exists_fin_orderEmbedding_get_eq]
  constructor
  · intro h
    obtain ⟨place, hplace⟩ := h
    exact ⟨place, place.strictMono, fun i => (hplace i).symm⟩
  · intro h
    obtain ⟨place, hplaced⟩ := h
    exact ⟨OrderEmbedding.ofStrictMono place hplaced.ascending, fun i => (hplaced.get_place i).symm⟩

/-- Up to the place of an element, the elements up to that one are placed. -/
theorem PlacedAt.sublist_take {place : Fin needle.length → Fin haystack.length}
    (h : PlacedAt needle haystack place) (i : Fin needle.length) :
    (needle.take (i + 1)).Sublist (haystack.take (place i + 1)) := by
  have hlt (j : Fin (needle.take (i + 1)).length) : j.val < i + 1 ∧ j.val < needle.length :=
    Nat.lt_min.mp (List.length_take ▸ j.isLt)
  have hplace (j : Fin (needle.take (i + 1)).length) :
      (place ⟨j, (hlt j).2⟩).val < (haystack.take (place i + 1)).length := by
    have hle : place ⟨j, (hlt j).2⟩ ≤ place i :=
      h.ascending.monotone (Nat.le_of_lt_succ (hlt j).1)
    exact (Nat.lt_min.mpr ⟨Nat.lt_succ_of_le hle, (place _).isLt⟩).trans_eq List.length_take.symm
  refine sublist_iff_exists_placedAt.mpr ⟨fun j => ⟨_, hplace j⟩, ?_, fun j => ?_⟩
  · intro j k hjk
    exact h.ascending (show (⟨j, (hlt j).2⟩ : Fin needle.length) < ⟨k, (hlt k).2⟩ from hjk)
  · simpa using h.get_place ⟨j, (hlt j).2⟩

variable [DecidableEq α]

/-! ### Subsequences -/

/-- Taking the first place for each element finds every embedding. -/
theorem isSubsequence_iff :
    isSubsequence needle haystack = true ↔ needle.Sublist haystack := by
  induction haystack generalizing needle with
  | nil => cases needle <;> simp [isSubsequence]
  | cons b haystack ih =>
    cases needle with
    | nil => simp [isSubsequence]
    | cons a needle =>
      by_cases hab : a = b
      · simp [isSubsequence, hab, ih]
      · simp [isSubsequence, hab, ih, List.cons_sublist_cons']

/-- What is left of a list behind the first place that holds the element. -/
def behindFirst (a : α) : List α → Option (List α)
  | [] => none
  | b :: rest => if a = b then some rest else behindFirst a rest

/-- One pass over a list that looks for the elements in turn, each in what those before it have left. -/
def readInTurn : List α → List α → Option (List α)
  | [], unread => some unread
  | a :: needle, unread => (behindFirst a unread).bind (readInTurn needle)

/-- The test for an element and more looks for the element first, and then for the others behind it. -/
theorem isSubsequence_cons (a : α) (needle haystack : List α) :
    isSubsequence (a :: needle) haystack = (behindFirst a haystack).any (isSubsequence needle) := by
  induction haystack with
  | nil => rfl
  | cons b rest ih =>
    by_cases hab : a = b
    · simp [isSubsequence, behindFirst, hab]
    · simp [isSubsequence, behindFirst, hab, ih]

/-- The test for a subsequence is one pass. -/
theorem isSubsequence_eq_isSome (needle haystack : List α) :
    isSubsequence needle haystack = (readInTurn needle haystack).isSome := by
  induction needle generalizing haystack with
  | nil => simp [isSubsequence, readInTurn]
  | cons a needle ih =>
    rw [isSubsequence_cons, readInTurn]
    cases behindFirst a haystack with
    | none => rfl
    | some rest => exact ih rest

/-- Equal elements need a place each. -/
example : readInTurn [1, 1] [2, 1, 3, 1, 4] = some [4] ∧ isSubsequence [1, 1] [2, 1, 3] = false := by
  decide

/-- Behind the first place of an element comes the rest of the list. -/
theorem behindFirst_append (h : a ∉ before) :
    behindFirst a (before ++ a :: rest) = some rest := by
  induction before with
  | nil => simp [behindFirst]
  | cons b before ih =>
    obtain ⟨hne, hbefore⟩ := List.ne_and_not_mem_of_not_mem_cons h
    rw [List.cons_append, behindFirst, if_neg hne, ih hbefore]

/-- Where the elements stand in order in a first part, the pass leaves at least the other part. The first
place of an element may come before the one where it is given to stand, and then even more is left. -/
theorem exists_readInTurn (h : needle.Sublist before) (behind : List α) :
    ∃ rest, readInTurn needle (before ++ behind) = some rest ∧ behind <:+ rest := by
  induction needle generalizing before with
  | nil => exact ⟨before ++ behind, rfl, List.suffix_append before behind⟩
  | cons a needle ih =>
    obtain ⟨upTo, further, rfl, ha, hneedle⟩ := List.cons_sublist_iff.mp h
    obtain ⟨skipped, more, rfl, hfirst⟩ := List.eq_append_cons_of_mem ha
    obtain ⟨rest, hread, hsuffix⟩ := ih (hneedle.trans (List.sublist_append_right more further))
    refine ⟨rest, ?_, hsuffix⟩
    rw [List.append_assoc, List.append_assoc, List.cons_append, readInTurn, behindFirst_append hfirst,
      Option.bind_some, ← List.append_assoc, hread]

/-- Each element is met at the place that it is given at the latest. -/
theorem PlacedAt.exists_readInTurn {place : Fin needle.length → Fin haystack.length}
    (h : PlacedAt needle haystack place) (i : Fin needle.length) :
    ∃ rest, readInTurn (needle.take (i + 1)) haystack = some rest ∧
      haystack.drop (place i + 1) <:+ rest := by
  have hread := Sequence.exists_readInTurn (h.sublist_take i) (haystack.drop (place i + 1))
  rwa [List.take_append_drop] at hread

/-! ### Runs -/

/-- The test for a list at the start is the one for a prefix. -/
theorem beginsWith_iff : beginsWith needle haystack = true ↔ needle <+: haystack := by
  induction needle generalizing haystack with
  | nil => simp [beginsWith]
  | cons a needle ih =>
    cases haystack with
    | nil => simp [beginsWith]
    | cons b haystack => simp [beginsWith, ih, List.cons_prefix_cons]

/-- Trying every place finds every run. -/
theorem containsRun_iff : containsRun needle haystack = true ↔ needle <:+: haystack := by
  induction haystack with
  | nil => simp [containsRun]
  | cons b haystack ih => simp [containsRun, ih, beginsWith_iff, List.infix_cons_iff]

/-- A run is one of the windows of its length, and the last of these ends where the list does. -/
theorem containsRun_iff_window : containsRun needle haystack = true ↔
    ∃ i, i + needle.length ≤ haystack.length ∧ (haystack.drop i).take needle.length = needle := by
  rw [containsRun_iff]
  constructor
  · intro h
    obtain ⟨before, behind, rfl⟩ := h
    exact ⟨before.length, by simp, by simp⟩
  · intro h
    obtain ⟨i, -, hwindow⟩ := h
    rw [← hwindow]
    exact (List.take_prefix _ _).isInfix.trans (List.drop_suffix i haystack).isInfix

/-! ### Both tests -/

/-- What the order tests say of two lists. -/
structure DecidesOccurrence (needle haystack : List α) : Prop where
  /-- The first list is a subsequence when its elements can be placed in the second one in strictly
  ascending order. -/
  isSubsequence_iff_placed :
    isSubsequence needle haystack = true ↔ ∃ place, PlacedAt needle haystack place
  /-- This is found out in one pass over the second list. -/
  one_pass : isSubsequence needle haystack = (readInTurn needle haystack).isSome
  /-- However the elements are placed, the pass meets each of them at its place at the latest. -/
  never_behind : ∀ place, PlacedAt needle haystack place → ∀ i : Fin needle.length,
    ∃ rest, readInTurn (needle.take (i + 1)) haystack = some rest ∧
      haystack.drop (place i + 1) <:+ rest
  refl : isSubsequence needle needle = true
  trans : ∀ longer, isSubsequence needle haystack = true → isSubsequence haystack longer = true →
    isSubsequence needle longer = true
  /-- It stays one when elements are put into the second list, wherever and however many. -/
  of_sublist : ∀ fuller, haystack.Sublist fuller → isSubsequence needle haystack = true →
    isSubsequence needle fuller = true
  /-- The first list is a run when it stands in the second one with something in front and something
  behind, which may be empty. -/
  containsRun_iff_append : containsRun needle haystack = true ↔
    ∃ before behind, haystack = before ++ needle ++ behind
  /-- It is a run when it is one of the windows of its length, of which the last ends with the list. -/
  containsRun_iff_window : containsRun needle haystack = true ↔
    ∃ i, i + needle.length ≤ haystack.length ∧ (haystack.drop i).take needle.length = needle
  /-- The empty list is a run in every list, the empty one included. -/
  containsRun_nil : containsRun [] haystack = true
  containsRun_of_longer : haystack.length < needle.length → containsRun needle haystack = false
  isSubsequence_of_containsRun : containsRun needle haystack = true →
    isSubsequence needle haystack = true

/-- The order tests decide whether a list occurs in another, for lists over any type. -/
theorem decides_occurrence (needle haystack : List α) : DecidesOccurrence needle haystack where
  isSubsequence_iff_placed := isSubsequence_iff.trans sublist_iff_exists_placedAt
  one_pass := isSubsequence_eq_isSome needle haystack
  never_behind _ hplaced i := hplaced.exists_readInTurn i
  refl := isSubsequence_iff.mpr (List.Sublist.refl needle)
  trans longer h hlonger :=
    isSubsequence_iff.mpr ((isSubsequence_iff.mp h).trans (isSubsequence_iff.mp hlonger))
  of_sublist fuller hfuller h := isSubsequence_iff.mpr ((isSubsequence_iff.mp h).trans hfuller)
  containsRun_iff_append := by
    rw [containsRun_iff]
    exact exists_congr fun before => exists_congr fun behind => eq_comm
  containsRun_iff_window := containsRun_iff_window
  containsRun_nil := containsRun_iff.mpr List.nil_infix
  containsRun_of_longer hlonger := by
    rw [Bool.eq_false_iff, Ne, containsRun_iff]
    intro h
    exact absurd h.length_le (Nat.not_le_of_lt hlonger)
  isSubsequence_of_containsRun h := isSubsequence_iff.mpr (containsRun_iff.mp h).sublist

end TypedGrammar.Sequence
