import TypedGrammar.Proofs.Derivation.ParseCalls
import Mathlib.Data.List.Perm.Subperm
import Mathlib.Logic.Function.Iterate

/-!
# The fuel of a parse

A search for a type enters each type at most once for one expression, and starts anew on the arguments
of a call, which are lower. `EnoughFuel` compares the fuel with what such a search can still use up.
With enough fuel the answer does not depend on the fuel, nor on what would happen without any, so the
bound that a parse starts with hides nothing.
-/

namespace TypedGrammar.Grammar

variable {g : Grammar} {fuel fuel' : Nat} {visiting : List String} {type : String} {e e' : Expr}
  {s s' : Search}

/-- Each argument is at most as high as the highest. -/
theorem height_le_heightOfArgs {args : List Expr} {arg : Expr} (h : arg ∈ args) :
    arg.height ≤ Expr.heightOfArgs args := by
  induction args with
  | nil => exact absurd h List.not_mem_nil
  | cons first rest ih =>
    rw [Expr.heightOfArgs]
    rcases List.mem_cons.mp h with rfl | h
    · exact Nat.le_max_left _ _
    · exact Nat.le_trans (ih h) (Nat.le_max_right _ _)

/-- An argument is lower than the call. -/
theorem IsArgument.height_lt (h : IsArgument e' e) : e'.height < e.height := by
  obtain ⟨op, args, rfl, hmem⟩ := h
  have hle := height_le_heightOfArgs hmem
  rw [Expr.height]
  omega

/-- A part of an expression is lower. -/
theorem height_lt_of_part (h : Relation.TransGen IsArgument e' e) : e'.height < e.height := by
  induction h with
  | single harg => exact harg.height_lt
  | tail _ harg ih => exact Nat.lt_trans ih harg.height_lt

/-- Every expression has a height of one at least. -/
theorem height_pos (e : Expr) : 0 < e.height := by
  cases e with
  | lit value => exact Nat.zero_lt_one
  | sym name => exact Nat.zero_lt_one
  | call op args =>
    rw [Expr.height]
    omega

/-- The fuel is enough for a search on an expression where some types are being tried already. -/
structure EnoughFuel (g : Grammar) (fuel : Nat) (visiting : List String) (e : Expr) : Prop where
  nodup : visiting.Nodup
  known : ∀ type ∈ visiting, g.hasType type = true
  bound : g.types.size * e.height ≤ fuel + visiting.length

namespace EnoughFuel

/-- No more types are being tried than there are. -/
theorem length_le (h : EnoughFuel g fuel visiting e) : visiting.length ≤ g.types.size := by
  have hsubset : visiting ⊆ g.types.keys := fun type htype => NameMap.mem_keys_iff.mpr (h.known type htype)
  have hlength := (List.subperm_of_subset h.nodup hsubset).length_le
  rwa [NameMap.keys, List.length_map] at hlength

/-- From scratch it is enough to enter every type once on each level of the expression. -/
theorem scratch (hfuel : g.types.size * e.height ≤ fuel) : EnoughFuel g fuel [] e where
  nodup := List.nodup_nil
  known := fun _ htype => absurd htype List.not_mem_nil
  bound := hfuel

/-- A parse starts with enough fuel. -/
theorem start (hfuel : g.parseFuel e ≤ fuel) : EnoughFuel g fuel [] e := by
  have hmul : g.types.size * e.height ≤ (g.types.size + 1) * e.height :=
    Nat.mul_le_mul_right _ (Nat.le_succ _)
  rw [parseFuel] at hfuel
  exact scratch (by omega)

/-- A type that is not being tried yet can be entered, and fuel is left for that. -/
theorem enter (h : EnoughFuel g fuel visiting e) (hfresh : type ∉ visiting)
    (htype : g.hasType type = true) :
    ∃ rest, fuel = rest + 1 ∧ EnoughFuel g rest (type :: visiting) e := by
  have hentered : EnoughFuel g fuel (type :: visiting) e :=
    { nodup := List.nodup_cons.mpr ⟨hfresh, h.nodup⟩
      known := List.forall_mem_cons.mpr ⟨htype, h.known⟩
      bound := Nat.le_trans h.bound (by rw [List.length_cons]; omega) }
  have hlength := hentered.length_le
  have hheight : g.types.size * 1 ≤ g.types.size * e.height :=
    Nat.mul_le_mul_left _ (height_pos e)
  have hbound := h.bound
  rw [List.length_cons] at hlength
  obtain ⟨rest, rfl⟩ := Nat.exists_eq_add_of_lt (show 0 < fuel by omega)
  refine ⟨rest, by omega, hentered.nodup, hentered.known, ?_⟩
  rw [List.length_cons]
  omega

/-- The fuel is enough for a lower expression as well, where no type is being tried. -/
theorem descend (h : EnoughFuel g fuel visiting e) (hlower : e'.height < e.height) :
    EnoughFuel g fuel [] e' := by
  have hlength := h.length_le
  have hbound := h.bound
  have hmul : g.types.size * (e'.height + 1) ≤ g.types.size * e.height :=
    Nat.mul_le_mul_left _ hlower
  rw [Nat.mul_succ] at hmul
  exact scratch (by omega)

/-- A search that is called needs less fuel. -/
theorem call (h : EnoughFuel g fuel s.visiting s.expr) (hcall : Calls g s s') :
    ∃ rest, fuel = rest + 1 ∧ EnoughFuel g rest s'.visiting s'.expr := by
  obtain ⟨hfresh, htype, -, hstep⟩ := hcall.step
  obtain ⟨rest, rfl, hentered⟩ := h.enter hfresh htype
  refine ⟨rest, rfl, ?_⟩
  obtain ⟨hexpr, hvisiting⟩ | ⟨hpart, hscratch⟩ := hstep
  · rwa [hexpr, hvisiting]
  · rw [hscratch]
    exact hentered.descend (height_lt_of_part hpart)

end EnoughFuel

/-! ### The answer does not depend on the fuel -/

section Answer

variable {search : String → Expr → List String → Except Failure (Option Tree)}

/-- Nothing is found for a type that is being tried already, or that has no rule. -/
theorem searchBy_closed (e : Expr) (h : ¬ (type ∉ visiting ∧ g.hasType type = true)) :
    searchBy g search type e visiting = .ok none := by
  unfold searchBy
  split
  · rfl
  · rename_i hfresh
    have hunknown : g.types.get? type = none := by
      rw [← Option.not_isSome_iff_eq_none]
      exact fun hknown => h ⟨by simpa using hfresh, hknown⟩
    rw [hunknown]

/-- With enough fuel it does not matter how the innermost searches are answered. -/
theorem iterate_searchBy_eq (h : EnoughFuel g fuel visiting e) :
    (searchBy g)^[fuel + 1] search type e visiting = g.matchType fuel type e visiting := by
  induction fuel generalizing type e visiting with
  | zero =>
    have hclosed : ¬ (type ∉ visiting ∧ g.hasType type = true) := fun hopen => by
      obtain ⟨rest, hrest, -⟩ := h.enter hopen.1 hopen.2
      cases hrest
    exact searchBy_closed e hclosed
  | succ fuel ih =>
    rw [Function.iterate_succ_apply', matchType_succ]
    refine searchBy_congr (s := ⟨type, e, visiting⟩) fun s' hcall => ih ?_
    obtain ⟨rest, hrest, hfuel⟩ := h.call (s := ⟨type, e, visiting⟩) hcall
    rwa [Nat.succ.inj hrest]

/-- Searches with enough fuel give the same answer. -/
theorem matchType_eq_of_enoughFuel (h : EnoughFuel g fuel visiting e)
    (h' : EnoughFuel g fuel' visiting e) :
    g.matchType fuel type e visiting = g.matchType fuel' type e visiting := by
  have hsum : fuel + 1 + fuel' = fuel' + 1 + fuel := by omega
  calc g.matchType fuel type e visiting
      = (searchBy g)^[fuel + 1] ((searchBy g)^[fuel'] (g.matchType 0)) type e visiting :=
        (iterate_searchBy_eq h).symm
    _ = (searchBy g)^[fuel' + 1] ((searchBy g)^[fuel] (g.matchType 0)) type e visiting := by
        rw [← Function.iterate_add_apply, ← Function.iterate_add_apply, hsum]
    _ = g.matchType fuel' type e visiting := iterate_searchBy_eq h'

/-- Whatever satisfies the recursion of a search gives the answer of a search with enough fuel. -/
theorem search_eq_matchType (hsearch : searchBy g search = search)
    (h : EnoughFuel g fuel visiting e) :
    search type e visiting = g.matchType fuel type e visiting := by
  rw [← iterate_searchBy_eq h, Function.iterate_fixed hsearch]

end Answer

end TypedGrammar.Grammar
