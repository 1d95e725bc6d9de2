import Mathlib.Logic.Function.Iterate
import TypedGrammar.Derivation.Search
import TypedGrammar.Proofs.Derivation.Expansion
import TypedGrammar.Proofs.Derivation.Renaming
import TypedGrammar.Proofs.Derivation.Rewriting
import TypedGrammar.Proofs.Tree.HoleOrder

/-!
# The fuel of an enumeration

A call of the search goes on with the expansions of the leftmost hole. An expansion adds as many holes as
nodes, save for the hole that it fills, so the room that is left together with the number of holes shrinks
with each call, and the calls come to an end. With fuel for that many calls the answer does not depend on
the fuel, nor on what would be answered without any: the enumeration is the one function that satisfies
its recursion. All of this holds in every grammar and for every tree.
-/

namespace TypedGrammar.Grammar

variable {g : Grammar} {bound fuel : Nat} {t t' : Tree} {path : Path}
  {search search' : Tree → Except Failure (List Tree)}

/-- One call of the search, with other calls at hand. -/
def enumerateBy (g : Grammar) (bound : Nat) (search : Tree → Except Failure (List Tree)) (t : Tree) :
    Except Failure (List Tree) :=
  if bound < t.size then .ok []
  else
    match t.firstHole? with
    | none => .ok [t]
    | some path => do
      let legal ← g.legalDomain t path
      g.expandEach search t path legal.rules

/-- A search with fuel calls searches with less of it. -/
theorem enumerateFrom_succ (g : Grammar) (bound fuel : Nat) :
    g.enumerateFrom bound (fuel + 1) = enumerateBy g bound (g.enumerateFrom bound fuel) := rfl

/-- The search goes on from a tree that is not too large with the expansion of its leftmost hole by a
legal rule. -/
inductive GoesOn (g : Grammar) (bound : Nat) (t t' : Tree) : Prop
  | intro {path : Path} {legal : BitSet} {r : RuleId} (hsmall : t.size ≤ bound)
      (hfirst : t.firstHole? = some path) (hlegal : g.legalDomain t path = .ok legal)
      (hr : r ∈ legal.rules) (hresult : (g.expand t path r).result = .ok ())
      (hstate : (g.expand t path r).state = t')

/-! ### The calls come to an end -/

/-- An expansion adds as many holes as nodes, save for the hole that it fills. -/
theorem balance_of_expand {r : RuleId} (h : (g.expand t path r).result = .ok ()) :
    (g.expand t path r).state.holeCount + t.size + 1 =
      t.holeCount + (g.expand t path r).state.size := by
  obtain ⟨hcheck, node, hnode, hexpand⟩ := of_expand h
  obtain ⟨ctx, hole, rfl, rfl, -⟩ := of_checkCommit hcheck
  have hsize := size_of_expansion hnode
  have hstate : (g.expand (ctx.plug (.hole hole)) ctx.path r).state = ctx.plug node := by
    rw [hexpand, commit, Context.editNode_plug]
    rfl
  rw [hstate]
  simp only [Context.size_plug, Context.holeCount_plug]
  rw [Tree.size, Tree.holeCount]
  omega

/-- With fuel for the search from a tree there is fuel for the searches from its expansions. -/
theorem room_of_expand {r : RuleId} (h : (g.expand t path r).result = .ok ())
    (hroom : bound + t.holeCount + 1 ≤ fuel + 1 + t.size) :
    bound + (g.expand t path r).state.holeCount + 1 ≤ fuel + (g.expand t path r).state.size := by
  have hbalance := balance_of_expand h
  omega

/-- With fuel for one call of the search there is fuel for the calls that it makes. -/
theorem GoesOn.room (h : GoesOn g bound t t')
    (hroom : bound + t.holeCount + 1 ≤ fuel + 1 + t.size) :
    bound + t'.holeCount + 1 ≤ fuel + t'.size := by
  obtain ⟨-, -, -, -, hresult, rfl⟩ := h
  exact room_of_expand hresult hroom

/-- Every call has less room, or fewer holes. -/
theorem GoesOn.measure_lt (h : GoesOn g bound t t') :
    bound + t'.holeCount + 1 - t'.size < bound + t.holeCount + 1 - t.size := by
  obtain ⟨hsmall, -, -, -, hresult, rfl⟩ := h
  have hbalance := balance_of_expand hresult
  omega

/-- There is no endless sequence of calls. -/
theorem wellFounded_goesOn (g : Grammar) (bound : Nat) :
    WellFounded fun t' t => GoesOn g bound t t' :=
  Subrelation.wf GoesOn.measure_lt (measure fun t : Tree => bound + t.holeCount + 1 - t.size).wf

/-! ### The answer does not depend on the fuel -/

/-- What is found below the rules of a list depends on the searches from the expansions. -/
theorem expandEach_congr {rules : List RuleId}
    (h : ∀ r ∈ rules, (g.expand t path r).result = .ok () →
      search (g.expand t path r).state = search' (g.expand t path r).state) :
    g.expandEach search t path rules = g.expandEach search' t path rules := by
  induction rules with
  | nil => rfl
  | cons r rest ih =>
    obtain ⟨hr, hrest⟩ := List.forall_mem_cons.mp h
    simp only [expandEach]
    rcases hexpand : g.expand t path r with ⟨t', failure | ⟨⟩, notices⟩
    · rfl
    · rw [hexpand] at hr
      dsimp only
      rw [hr rfl, ih hrest]

/-- What a call answers depends on the calls below it, and on nothing else. -/
theorem enumerateBy_congr (h : ∀ t', GoesOn g bound t t' → search t' = search' t') :
    enumerateBy g bound search t = enumerateBy g bound search' t := by
  unfold enumerateBy
  split
  · rfl
  · rename_i hsmall
    split
    · rfl
    · rename_i path hfirst
      cases hlegal : g.legalDomain t path with
      | error failure => rfl
      | ok legal =>
        rw [ok_bind, ok_bind]
        exact expandEach_congr fun r hr hresult =>
          h _ (.intro (Nat.not_lt.mp hsmall) hfirst hlegal hr hresult rfl)

/-- With enough fuel it does not matter how the innermost calls are answered. -/
theorem iterate_enumerateBy_eq (hroom : bound + t.holeCount + 1 ≤ fuel + t.size) :
    (enumerateBy g bound)^[fuel + 1] search t = g.enumerateFrom bound fuel t := by
  induction fuel generalizing t with
  | zero =>
    have hlarge : bound < t.size := by omega
    exact if_pos hlarge
  | succ fuel ih =>
    rw [Function.iterate_succ_apply', enumerateFrom_succ]
    exact enumerateBy_congr fun t' h => ih (h.room hroom)

/-- Whatever satisfies the recursion of the search gives the answer of a search with enough fuel. -/
theorem search_eq_enumerateFrom (hsearch : enumerateBy g bound search = search)
    (hroom : bound + t.holeCount + 1 ≤ fuel + t.size) : search t = g.enumerateFrom bound fuel t := by
  rw [← iterate_enumerateBy_eq hroom, Function.iterate_fixed hsearch]

/-- The fuel that an enumeration starts with is enough. -/
theorem room_enumerate (bound : Nat) (t : Tree) :
    bound + t.holeCount + 1 ≤ bound + t.holeCount + 1 - t.size + t.size := by
  omega

/-- Searches with enough fuel enumerate the same trees. -/
theorem enumerateFrom_eq_enumerate (hroom : bound + t.holeCount + 1 ≤ fuel + t.size) :
    g.enumerateFrom bound fuel t = g.enumerate t bound := by
  generalize hstart : bound + t.holeCount + 1 - t.size = start
  have henough : bound + t.holeCount + 1 ≤ start + t.size := hstart ▸ room_enumerate bound t
  have hsum : fuel + 1 + start = start + 1 + fuel := by omega
  calc g.enumerateFrom bound fuel t
      = (enumerateBy g bound)^[fuel + 1] ((enumerateBy g bound)^[start] (g.enumerateFrom bound 0)) t :=
        (iterate_enumerateBy_eq hroom).symm
    _ = (enumerateBy g bound)^[start + 1] ((enumerateBy g bound)^[fuel] (g.enumerateFrom bound 0)) t := by
        rw [← Function.iterate_add_apply, ← Function.iterate_add_apply, hsum]
    _ = g.enumerateFrom bound start t := iterate_enumerateBy_eq henough
    _ = g.enumerate t bound := by rw [enumerate, hstart]

/-- The enumeration satisfies the recursion of the search: its answer for a tree is that of one call
which goes on by enumerating. -/
theorem enumerateBy_enumerate (g : Grammar) (bound : Nat) :
    enumerateBy g bound (fun t => g.enumerate t bound) = fun t => g.enumerate t bound := by
  funext t
  have hroom : bound + t.holeCount + 1 ≤ bound + t.holeCount + 1 + t.size := Nat.le_add_right _ _
  rw [← enumerateFrom_eq_enumerate hroom, enumerateFrom_succ]
  exact enumerateBy_congr fun t' h => (enumerateFrom_eq_enumerate (h.room hroom)).symm

/-- Nothing else satisfies this recursion. -/
theorem eq_enumerate_iff : enumerateBy g bound search = search ↔
    search = fun t => g.enumerate t bound := by
  constructor
  · intro hsearch
    funext t
    exact search_eq_enumerateFrom hsearch (room_enumerate bound t)
  · rintro rfl
    exact enumerateBy_enumerate g bound

end TypedGrammar.Grammar
