import Mathlib.Order.Bounds.Basic
import TypedGrammar.Proofs.SetRefinement

/-!
# Iterating over a bit set

The walk over a bit set answers its members and nothing else, in ascending order and thus once, and is
over after as many steps as there are members. Words without a member, wherever they stand, do not
show. So the first answer is the least member, the rules are the members other than 0, and the answers
make up a set with the same members.
-/

namespace TypedGrammar

/-- An ascending list begins with the least of its elements. -/
theorem head?_eq_some_iff_isLeast {list : List Nat} (ascending : list.Pairwise (· < ·)) {i : Nat} :
    list.head? = some i ↔ IsLeast {j | j ∈ list} i := by
  cases list with
  | nil => exact ⟨nofun, fun h => absurd h.1 List.not_mem_nil⟩
  | cons first rest =>
    have hfirst : IsLeast {j | j ∈ first :: rest} first := by
      refine ⟨List.mem_cons_self, fun j hj => ?_⟩
      rcases List.mem_cons.mp hj with rfl | hbehind
      · exact Nat.le_refl _
      · exact Nat.le_of_lt (List.rel_of_pairwise_cons ascending hbehind)
    rw [List.head?_cons, Option.some.injEq]
    constructor
    · intro h
      exact h ▸ hfirst
    · exact hfirst.unique

namespace BitSet

/-- The numbers of the rules are the members other than 0, in the same order. -/
theorem map_number_rules (s : BitSet) :
    s.rules.map RuleId.number = s.members.filter (· ≠ 0) := by
  rw [rules]
  induction s.members with
  | nil => rfl
  | cons i rest ih =>
    cases i with
    | zero => exact ih
    | succ n => exact congrArg ((n + 1) :: ·) ih

namespace Construction

/-- What iterating over a bit set that is made by any operations gives. -/
structure Iterates (c : Construction) : Prop where
  /-- The steps of the walk answer the members that are listed, one after the other. -/
  answers : ∀ n, (c.eval.walk.after n).next.1 = c.eval.members[n]?
  /-- The walk is over after as many steps as there are members, and stays so. -/
  ends_iff : ∀ n, (c.eval.walk.after n).next.1 = none ↔ c.denote.card ≤ n
  /-- Exactly the members are listed. -/
  mem_iff : ∀ i, i ∈ c.eval.members ↔ i ∈ c.denote
  /-- They are listed in strictly ascending order. -/
  ascending : c.eval.members.Pairwise (· < ·)
  /-- No member is listed twice. -/
  nodup : c.eval.members.Nodup
  /-- There is no first member exactly when the set is empty. -/
  first_none_iff : c.eval.first? = none ↔ c.denote = ∅
  /-- The first member is the least one. -/
  first_some_iff : ∀ i, c.eval.first? = some i ↔ IsLeast {j | j ∈ c.denote} i
  /-- The rules are the members other than 0, in ascending order. -/
  rules_eq : c.eval.rules.map RuleId.number = c.eval.members.filter (· ≠ 0)
  /-- There is no first rule exactly when the set has no member other than 0. -/
  firstRule_none_iff : c.eval.firstRule? = none ↔ ∀ i ∈ c.denote, i = 0
  /-- The first rule is the least member other than 0. -/
  firstRule_some_iff : ∀ r, c.eval.firstRule? = some r ↔ IsLeast {i | i ∈ c.denote ∧ i ≠ 0} r.number
  /-- The listed members make up an equal set. -/
  same_ofList : (BitSet.ofList c.eval.members).same c.eval = true

/-- Iterating over a bit set is exact, whatever operations made it and whichever of its words are
empty. -/
theorem iterates (c : Construction) : c.Iterates := by
  have hmem : ∀ i, i ∈ c.eval.members ↔ i ∈ c.denote := fun i => by
    rw [mem_members, ← mem_toFinset, toFinset_eval]
  have hanswers : ∀ n, (c.eval.walk.after n).next.1 = c.eval.members[n]? := fun n => by
    rw [BitWalk.next_after, remaining_walk]
  have hascending := c.eval.members_pairwise
  have hrules : ∀ i, i ∈ c.eval.rules.map RuleId.number ↔ i ∈ c.denote ∧ i ≠ 0 := fun i => by
    rw [map_number_rules, List.mem_filter, hmem, decide_eq_true_eq]
  have hfirstRule : (c.eval.rules.map RuleId.number).head? = c.eval.firstRule?.map RuleId.number :=
    List.head?_map
  exact {
    answers := hanswers
    ends_iff := fun n => by
      rw [hanswers, List.getElem?_eq_none_iff, ← size_eq_length_members, size_eq_card, toFinset_eval]
    mem_iff := hmem
    ascending := hascending
    nodup := hascending.imp Nat.ne_of_lt
    first_none_iff := by
      rw [first?_eq, List.head?_eq_none_iff, List.eq_nil_iff_forall_not_mem,
        Finset.eq_empty_iff_forall_notMem]
      simp only [hmem]
    first_some_iff := fun i => by
      rw [first?_eq, head?_eq_some_iff_isLeast hascending]
      simp only [hmem]
    rules_eq := map_number_rules c.eval
    firstRule_none_iff := by
      rw [← Option.map_eq_none_iff (f := RuleId.number), ← hfirstRule, List.head?_eq_none_iff,
        List.eq_nil_iff_forall_not_mem]
      simp only [hrules, not_and_not_right]
    firstRule_some_iff := fun r => by
      have hpairwise : (c.eval.rules.map RuleId.number).Pairwise (· < ·) :=
        c.eval.map_number_rules ▸ hascending.filter _
      have hleast := head?_eq_some_iff_isLeast hpairwise (i := r.number)
      simp only [hrules] at hleast
      rw [← hleast, hfirstRule]
      constructor
      · intro h
        rw [h, Option.map_some]
      · intro h
        obtain ⟨r', hr', hnumber⟩ := Option.map_eq_some_iff.mp h
        rw [hr', RuleId.number_inj.mp hnumber]
    same_ofList := by
      refine same_iff.mpr fun i => ?_
      rw [contains_ofList, Bool.eq_iff_iff, List.contains_iff_mem, mem_members] }

/-- Empty words stand in front of the members, between them and behind them. -/
example : ((((withCapacity 400).insert 70).insert 0).insert 255 |>.remove 0).eval.members = [70, 255] := by
  decide

end Construction

end BitSet

end TypedGrammar
