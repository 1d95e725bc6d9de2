import TypedGrammar.Derivation.Parse
import TypedGrammar.Proofs.Grammar.Consistency
import Mathlib.Logic.Relation

/-!
# The calls of a parse

A search for a tree of a type calls other searches: a bare placeholder is searched for on the same
expression, with one more type that is being tried on it, and the placeholders in the arguments of a
call are searched for on the arguments, from scratch. `Calls` says which searches these can be. What a
search answers depends on nothing but the answers of the searches that it calls.

`MatchedBy` says which trees matching a body gives, and what holds of them is shown by induction over it:
first of all that they are answers of the searches that are called. A tree that is found applies a rule
to such trees.
-/

namespace TypedGrammar.Grammar

/-- A search for a tree of a type that stands for an expression, where some types are being tried on the
expression already. -/
structure Search where
  type : String
  expr : Expr
  visiting : List String

/-- Matching a body against an expression may call the search. -/
inductive BodyCalls (g : Grammar) : Expr → Expr → List String → Search → Prop
  /-- A bare placeholder is searched for on the expression itself. -/
  | place {name : String} (htype : g.hasType name = true) (e : Expr) (visiting : List String) :
      BodyCalls g (.sym name) e visiting ⟨name, e, visiting⟩
  /-- The arguments of a call are matched one by one, from scratch. -/
  | argument {op : String} {args others : List Expr} {arg e : Expr} {s : Search}
      (hlength : args.length = others.length) (hmem : (arg, e) ∈ args.zip others)
      (h : BodyCalls g arg e [] s) (visiting : List String) :
      BodyCalls g (.call op args) (.call op others) visiting s

/-- The first search may call the second one: it enters its type and matches the body of an ordinary
rule of the type. -/
inductive Calls (g : Grammar) (s s' : Search) : Prop
  | intro {entry : TypeEntry} {r : RuleId} {body : Expr} (hfresh : s.type ∉ s.visiting)
      (hentry : g.types.get? s.type = some entry) (hmem : r ∈ entry.rules)
      (hordinary : g.isImmediate r = .ok false) (hbody : g.body r = .ok body)
      (h : BodyCalls g body s.expr (s.type :: s.visiting) s')

/-- One search for a tree of a type, with other searches at hand. -/
def searchBy (g : Grammar) (search : String → Expr → List String → Except Failure (Option Tree))
    (type : String) (e : Expr) (visiting : List String) : Except Failure (Option Tree) :=
  if visiting.contains type then .ok none
  else
    match g.types.get? type with
    | none => .ok none
    | some entry => do
      match ← matchOrdinary g search e (type :: visiting) entry.rules with
      | some t => return some t
      | none => g.matchImmediate entry.rules e

/-- A search with fuel calls searches with less of it. -/
theorem matchType_succ (g : Grammar) (fuel : Nat) :
    g.matchType (fuel + 1) = searchBy g (g.matchType fuel) := rfl

variable {g : Grammar} {s s' : Search} {type : String} {e : Expr} {visiting : List String}
  {rules : List RuleId} {t : Tree}

/-! ### What a call does -/

/-- The first expression is an argument of the second. -/
def IsArgument (arg e : Expr) : Prop := ∃ op args, e = .call op args ∧ arg ∈ args

/-- A search that is called by matching a body is one for a type of the grammar, on the same expression
with the same types being tried, or on a part of it from scratch. -/
theorem BodyCalls.step {body : Expr} (h : BodyCalls g body e visiting s) : g.hasType s.type = true ∧
    ((s.expr = e ∧ s.visiting = visiting) ∨
      (Relation.TransGen IsArgument s.expr e ∧ s.visiting = [])) := by
  induction h with
  | place htype e visiting => exact ⟨htype, .inl ⟨rfl, rfl⟩⟩
  | @argument op args others arg e s hlength hmem h visiting ih =>
    have harg : IsArgument e (.call op others) := ⟨op, others, rfl, (List.of_mem_zip hmem).2⟩
    obtain ⟨htype, ⟨rfl, hscratch⟩ | ⟨hpart, hscratch⟩⟩ := ih
    · exact ⟨htype, .inr ⟨.single harg, hscratch⟩⟩
    · exact ⟨htype, .inr ⟨hpart.tail harg, hscratch⟩⟩

/-- A search that calls another one entered its type, and the types being tried are this one and the
former ones, or none when the search goes on with a part of the expression. -/
theorem Calls.step (h : Calls g s s') :
    s.type ∉ s.visiting ∧ g.hasType s.type = true ∧ g.hasType s'.type = true ∧
      ((s'.expr = s.expr ∧ s'.visiting = s.type :: s.visiting) ∨
        (Relation.TransGen IsArgument s'.expr s.expr ∧ s'.visiting = [])) := by
  obtain ⟨hfresh, hentry, -, -, -, hbody⟩ := h
  obtain ⟨htype, hstep⟩ := hbody.step
  exact ⟨hfresh, Option.isSome_iff_exists.mpr ⟨_, hentry⟩, htype, hstep⟩

/-! ### Answers depend on calls only -/

section Answer

variable {search search' : String → Expr → List String → Except Failure (Option Tree)}

/-- A bare placeholder is matched by searching for a tree of its type. -/
theorem matchBody_place {name : String} (htype : g.hasType name = true) :
    matchBody g search (.sym name) e visiting =
      (search name e visiting >>= fun found => pure (found.map fun child => [child])) := by
  cases e <;> simp only [matchBody, htype, if_true]

/-- A symbol that names no type matches itself and the literal that it names. -/
theorem matchBody_symbol {name : String} (htype : g.hasType name = false) :
    matchBody g search (.sym name) e visiting =
      .ok (if (g.symbols.constant name).map Expr.lit = some e ∨ Expr.sym name = e then some []
        else none) := by
  cases e with
  | lit value => simp [matchBody, htype, Option.map_eq_some_iff]
  | sym other => simp [matchBody, htype, Option.map_eq_some_iff]
  | call op args => simp [matchBody, htype, Option.map_eq_some_iff]

mutual

/-- What matching a body answers depends on the searches that it calls. -/
theorem matchBody_congr (g : Grammar) : ∀ (body e : Expr) (visiting : List String),
    (∀ s, BodyCalls g body e visiting s →
      search s.type s.expr s.visiting = search' s.type s.expr s.visiting) →
    matchBody g search body e visiting = matchBody g search' body e visiting
  | .lit value, e, visiting, _ => by rw [matchBody, matchBody]
  | .sym name, e, visiting, h => by
    cases htype : g.hasType name with
    | true => rw [matchBody_place htype, matchBody_place htype, h _ (.place htype e visiting)]
    | false => rw [matchBody_symbol htype, matchBody_symbol htype]
  | .call op args, .lit value, visiting, _ => rfl
  | .call op args, .sym name, visiting, _ => rfl
  | .call op args, .call op' others, visiting, h => by
    rw [matchBody, matchBody]
    split
    · rename_i hsame
      simp only [Bool.and_eq_true, decide_eq_true_iff] at hsame
      obtain ⟨rfl, hlength⟩ := hsame
      exact matchArgs_congr g args others fun arg e hmem s hs =>
        h s (.argument hlength hmem hs visiting)
    · rfl

/-- The same for the arguments of a call. -/
theorem matchArgs_congr (g : Grammar) : ∀ args others : List Expr,
    (∀ arg e, (arg, e) ∈ args.zip others → ∀ s, BodyCalls g arg e [] s →
      search s.type s.expr s.visiting = search' s.type s.expr s.visiting) →
    matchArgs g search args others = matchArgs g search' args others
  | [], others, _ => by rw [matchArgs, matchArgs]
  | _ :: _, [], _ => rfl
  | arg :: rest, e :: others, h => by
    rw [matchArgs, matchArgs, matchBody_congr g arg e [] (h arg e List.mem_cons_self),
      matchArgs_congr g rest others fun arg' e' hmem => h arg' e' (List.mem_cons_of_mem _ hmem)]

end

/-- Trying ordinary rules depends on what matching their bodies answers. -/
theorem matchOrdinary_congr (h : ∀ r ∈ rules, ∀ body, g.isImmediate r = .ok false →
      g.body r = .ok body → matchBody g search body e visiting = matchBody g search' body e visiting) :
    matchOrdinary g search e visiting rules = matchOrdinary g search' e visiting rules := by
  induction rules with
  | nil => rfl
  | cons r rest ih =>
    have hrest := ih fun r' hr' => h r' (List.mem_cons_of_mem _ hr')
    have hfirst := h r List.mem_cons_self
    rw [matchOrdinary, matchOrdinary, hrest]
    cases himmediate : g.isImmediate r with
    | error failure => rfl
    | ok immediate =>
      cases immediate with
      | true => rfl
      | false =>
        cases hbody : g.body r with
        | error failure => rfl
        | ok body => simp only [ok_bind, hfirst body himmediate hbody]

/-- What a search answers depends on the searches that it calls. -/
theorem searchBy_congr (h : ∀ s', Calls g s s' →
      search s'.type s'.expr s'.visiting = search' s'.type s'.expr s'.visiting) :
    searchBy g search s.type s.expr s.visiting = searchBy g search' s.type s.expr s.visiting := by
  unfold searchBy
  split
  · rfl
  · rename_i hfresh
    have hfresh : s.type ∉ s.visiting := by simpa using hfresh
    cases hentry : g.types.get? s.type with
    | none => rfl
    | some entry =>
      have hsame : matchOrdinary g search s.expr (s.type :: s.visiting) entry.rules =
          matchOrdinary g search' s.expr (s.type :: s.visiting) entry.rules :=
        matchOrdinary_congr fun r hr body hordinary hbody =>
          matchBody_congr g body s.expr _ fun s' hs' =>
            h s' (.intro hfresh hentry hr hordinary hbody hs')
      dsimp only
      rw [hsame]

/-! ### Trees come from calls -/

mutual

/-- The body matches the expression, with trees in its places that the search finds. -/
inductive MatchedBy (g : Grammar)
    (search : String → Expr → List String → Except Failure (Option Tree)) :
    Expr → Expr → List String → List Tree → Prop
  | lit (value : Value) (visiting : List String) :
      MatchedBy g search (.lit value) (.lit value) visiting []
  | place {name : String} {e : Expr} {visiting : List String} {child : Tree}
      (htype : g.hasType name = true) (h : search name e visiting = .ok (some child)) :
      MatchedBy g search (.sym name) e visiting [child]
  | symbol {name : String} (htype : g.hasType name = false) (visiting : List String) :
      MatchedBy g search (.sym name) (.sym name) visiting []
  | constant {name : String} {value : Value} (htype : g.hasType name = false)
      (hvalue : g.symbols.constant name = some value) (visiting : List String) :
      MatchedBy g search (.sym name) (.lit value) visiting []
  | call (op : String) {args others : List Expr} {children : List Tree}
      (h : ArgsMatchedBy g search args others children) (visiting : List String) :
      MatchedBy g search (.call op args) (.call op others) visiting children

/-- The arguments match the expressions, from scratch. -/
inductive ArgsMatchedBy (g : Grammar)
    (search : String → Expr → List String → Except Failure (Option Tree)) :
    List Expr → List Expr → List Tree → Prop
  | nil : ArgsMatchedBy g search [] [] []
  | cons {arg e : Expr} {rest others : List Expr} {children later : List Tree}
      (harg : MatchedBy g search arg e [] children) (hrest : ArgsMatchedBy g search rest others later) :
      ArgsMatchedBy g search (arg :: rest) (e :: others) (children ++ later)

end

/-- Arguments match as many expressions. -/
theorem ArgsMatchedBy.length_eq {args others : List Expr} {children : List Tree}
    (h : ArgsMatchedBy g search args others children) : args.length = others.length := by
  induction args generalizing others children with
  | nil =>
    cases h
    rfl
  | cons arg rest ih =>
    cases h with
    | cons _ hrest => rw [List.length_cons, List.length_cons, ih hrest]

mutual

/-- The trees that matching a body gives are found by the search. -/
theorem matchedBy_of_matchBody (g : Grammar) : ∀ (body e : Expr) (visiting : List String)
    (children : List Tree), matchBody g search body e visiting = .ok (some children) →
    MatchedBy g search body e visiting children
  | .lit value, e, visiting, children, hfound => by
    rw [matchBody] at hfound
    split at hfound
    · rename_i heq
      subst heq
      cases hfound
      exact .lit value visiting
    · cases hfound
  | .sym name, e, visiting, children, hfound => by
    cases htype : g.hasType name with
    | true =>
      rw [matchBody_place htype] at hfound
      obtain ⟨found, hchild, hfound⟩ := bind_eq_ok.mp hfound
      obtain ⟨child, rfl, rfl⟩ := Option.map_eq_some_iff.mp (Except.ok.inj hfound)
      exact .place htype hchild
    | false =>
      rw [matchBody_symbol htype] at hfound
      split at hfound
      · rename_i hmatch
        cases hfound
        rcases hmatch with hconstant | rfl
        · obtain ⟨value, hvalue, rfl⟩ := Option.map_eq_some_iff.mp hconstant
          exact .constant htype hvalue visiting
        · exact .symbol htype visiting
      · cases hfound
  | .call op args, .lit value, visiting, children, hfound => by cases hfound
  | .call op args, .sym name, visiting, children, hfound => by cases hfound
  | .call op args, .call op' others, visiting, children, hfound => by
    rw [matchBody] at hfound
    split at hfound
    · rename_i hsame
      simp only [Bool.and_eq_true, decide_eq_true_iff] at hsame
      obtain ⟨rfl, hlength⟩ := hsame
      exact .call op (argsMatchedBy_of_matchArgs g args others children hlength hfound) visiting
    · cases hfound

/-- The same for as many arguments as expressions. -/
theorem argsMatchedBy_of_matchArgs (g : Grammar) : ∀ (args others : List Expr)
    (children : List Tree), args.length = others.length →
    matchArgs g search args others = .ok (some children) →
    ArgsMatchedBy g search args others children
  | [], [], children, _, hfound => by
    rw [matchArgs] at hfound
    cases hfound
    exact .nil
  | arg :: rest, e :: others, children, hlength, hfound => by
    rw [matchArgs] at hfound
    obtain ⟨first, hfirst, hlater⟩ := bind_eq_ok.mp hfound
    cases first with
    | none => cases hlater
    | some first =>
      obtain ⟨found, hrest, hfound⟩ := bind_eq_ok.mp hlater
      obtain ⟨later, rfl, rfl⟩ := Option.map_eq_some_iff.mp (Except.ok.inj hfound)
      exact .cons (matchedBy_of_matchBody g arg e [] first hfirst)
        (argsMatchedBy_of_matchArgs g rest others later (Nat.succ.inj hlength) hrest)

end

mutual

/-- Matching a body gives the trees that the search finds in its places. -/
theorem MatchedBy.matchBody_eq : ∀ {body e : Expr} {visiting : List String} {children : List Tree},
    MatchedBy g search body e visiting children →
      matchBody g search body e visiting = .ok (some children)
  | _, _, _, _, .lit _ _ => by rw [matchBody, if_pos rfl]
  | _, _, _, _, .place htype h => by
    rw [matchBody_place htype, h]
    rfl
  | _, _, _, _, .symbol htype _ => by rw [matchBody_symbol htype, if_pos (Or.inr rfl)]
  | _, _, _, _, .constant htype hvalue _ => by
    rw [matchBody_symbol htype, if_pos (Or.inl (by rw [hvalue]; rfl))]
  | _, _, _, _, .call op h _ => by
    rw [matchBody, if_pos (by simp [h.length_eq]), h.matchArgs_eq]

/-- The same for arguments. -/
theorem ArgsMatchedBy.matchArgs_eq : ∀ {args others : List Expr} {children : List Tree},
    ArgsMatchedBy g search args others children →
      matchArgs g search args others = .ok (some children)
  | _, _, _, .nil => by rw [matchArgs]
  | _, _, _, .cons harg hrest => by
    rw [matchArgs, harg.matchBody_eq, ok_bind, hrest.matchArgs_eq]
    rfl

end

/-- In a bare place there is one tree, which is found for the expression itself. -/
theorem MatchedBy.exists_child {name : String} {children : List Tree}
    (h : MatchedBy g search (.sym name) e visiting children) (htype : g.hasType name = true) :
    ∃ child, children = [child] ∧ search name e visiting = .ok (some child) := by
  cases h with
  | place _ h => exact ⟨_, rfl, h⟩
  | symbol hother _ => simp [htype] at hother
  | constant hother _ _ => simp [htype] at hother

mutual

/-- The trees in the places of a body come from searches that matching it calls. -/
theorem MatchedBy.exists_call : ∀ {body e : Expr} {visiting : List String} {children : List Tree},
    MatchedBy g search body e visiting children → ∀ child ∈ children,
      ∃ s, BodyCalls g body e visiting s ∧ search s.type s.expr s.visiting = .ok (some child)
  | _, _, _, _, .lit _ _ => List.forall_mem_nil _
  | _, _, _, _, .place htype h => List.forall_mem_singleton.mpr ⟨_, .place htype _ _, h⟩
  | _, _, _, _, .symbol _ _ => List.forall_mem_nil _
  | _, _, _, _, .constant _ _ _ => List.forall_mem_nil _
  | _, _, _, _, .call op h visiting => by
    intro child hchild
    obtain ⟨arg, e, hmem, s, hs, hsearch⟩ := h.exists_call child hchild
    exact ⟨s, .argument h.length_eq hmem hs visiting, hsearch⟩

/-- The same for arguments. -/
theorem ArgsMatchedBy.exists_call : ∀ {args others : List Expr} {children : List Tree},
    ArgsMatchedBy g search args others children → ∀ child ∈ children,
      ∃ arg e, (arg, e) ∈ args.zip others ∧ ∃ s, BodyCalls g arg e [] s ∧
        search s.type s.expr s.visiting = .ok (some child)
  | _, _, _, .nil => List.forall_mem_nil _
  | _, _, _, .cons harg hrest => by
    intro child hchild
    rcases List.mem_append.mp hchild with hchild | hchild
    · exact ⟨_, _, List.mem_cons_self, harg.exists_call child hchild⟩
    · obtain ⟨arg, e, hmem, hs⟩ := hrest.exists_call child hchild
      exact ⟨arg, e, List.mem_cons_of_mem _ hmem, hs⟩

end

/-- A tree that trying ordinary rules gives applies one of them to children that match its body. -/
theorem of_matchOrdinary (hfound : matchOrdinary g search e visiting rules = .ok (some t)) :
    ∃ r ∈ rules, ∃ body children, g.isImmediate r = .ok false ∧ g.body r = .ok body ∧
      MatchedBy g search body e visiting children ∧ t = .apply r children := by
  induction rules with
  | nil => cases hfound
  | cons r rest ih =>
    have hlater : matchOrdinary g search e visiting rest = .ok (some t) →
        ∃ r' ∈ r :: rest, ∃ body children, g.isImmediate r' = .ok false ∧ g.body r' = .ok body ∧
          MatchedBy g search body e visiting children ∧ t = .apply r' children := by
      intro hrest
      obtain ⟨r', hmem, hr'⟩ := ih hrest
      exact ⟨r', List.mem_cons_of_mem _ hmem, hr'⟩
    obtain ⟨immediate, himmediate, hfound⟩ := bind_eq_ok.mp hfound
    cases immediate with
    | true => exact hlater hfound
    | false =>
      obtain ⟨body, hbody, hfound⟩ := bind_eq_ok.mp hfound
      obtain ⟨found, hmatch, hfound⟩ := bind_eq_ok.mp hfound
      cases found with
      | none => exact hlater hfound
      | some children =>
        cases hfound
        exact ⟨r, List.mem_cons_self, body, children, himmediate, hbody,
          matchedBy_of_matchBody g body e visiting children hmatch, rfl⟩

/-- The first immediate rule of a list is an immediate rule of it. -/
theorem of_firstImmediate? {r : RuleId} (hfound : g.firstImmediate? rules = .ok (some r)) :
    r ∈ rules ∧ g.isImmediate r = .ok true := by
  induction rules with
  | nil => cases hfound
  | cons first rest ih =>
    obtain ⟨immediate, himmediate, hfound⟩ := bind_eq_ok.mp hfound
    cases immediate with
    | true =>
      cases hfound
      exact ⟨List.mem_cons_self, himmediate⟩
    | false =>
      obtain ⟨hmem, hr⟩ := ih hfound
      exact ⟨List.mem_cons_of_mem _ hmem, hr⟩

/-- Only a literal is left to an immediate rule. -/
theorem of_matchImmediate (hfound : g.matchImmediate rules e = .ok (some t)) :
    ∃ value r, e = .lit value ∧ g.firstImmediate? rules = .ok (some r) ∧ t = .immediate r value := by
  cases e with
  | lit value =>
    obtain ⟨first, hfirst, hfound⟩ := bind_eq_ok.mp hfound
    obtain ⟨r, rfl, rfl⟩ := Option.map_eq_some_iff.mp (Except.ok.inj hfound)
    exact ⟨value, r, rfl, hfirst, rfl⟩
  | sym name => cases hfound
  | call op args => cases hfound

/-- A search that finds a tree entered its type, and the tree comes from an ordinary rule of the type or
else from the first immediate one. -/
theorem of_searchBy (hfound : searchBy g search type e visiting = .ok (some t)) :
    type ∉ visiting ∧ ∃ entry, g.types.get? type = some entry ∧
      (matchOrdinary g search e (type :: visiting) entry.rules = .ok (some t) ∨
        g.matchImmediate entry.rules e = .ok (some t)) := by
  unfold searchBy at hfound
  split at hfound
  · cases hfound
  · rename_i hfresh
    refine ⟨by simpa using hfresh, ?_⟩
    cases hentry : g.types.get? type with
    | none =>
      rw [hentry] at hfound
      cases hfound
    | some entry =>
      rw [hentry] at hfound
      obtain ⟨found, hordinary, hfound⟩ := bind_eq_ok.mp hfound
      refine ⟨entry, rfl, ?_⟩
      cases found with
      | some t =>
        cases hfound
        exact .inl hordinary
      | none => exact .inr hfound

/-- In a consistent grammar the tree applies an ordinary rule of the type to children that match its
body, or it holds the literal that the expression is for an immediate rule of the type. -/
theorem Consistent.of_searchBy (hg : Consistent g)
    (hfound : searchBy g search type e visiting = .ok (some t)) : type ∉ visiting ∧
      ((∃ r rule children, g.ruleAt? r = some rule ∧ rule.type = type ∧ rule.immediate = false ∧
          MatchedBy g search rule.body e (type :: visiting) children ∧ t = .apply r children) ∨
        ∃ r rule value, g.ruleAt? r = some rule ∧ rule.type = type ∧ rule.immediate = true ∧
          e = .lit value ∧ t = .immediate r value) := by
  obtain ⟨hfresh, entry, hentry, hfound⟩ := Grammar.of_searchBy hfound
  refine ⟨hfresh, ?_⟩
  rcases hfound with hordinary | himmediate
  · obtain ⟨r, hmem, body, children, hr, hbody, hmatch, rfl⟩ := of_matchOrdinary hordinary
    obtain ⟨rule, hrule, htype⟩ := (hg.rules_of_entry hentry r).mp hmem
    rw [isImmediate_of_ruleAt? hrule] at hr
    rw [body_of_ruleAt? hrule] at hbody
    obtain rfl := Except.ok.inj hbody
    exact .inl ⟨r, rule, children, hrule, htype, Except.ok.inj hr, hmatch, rfl⟩
  · obtain ⟨value, r, rfl, hfirst, rfl⟩ := of_matchImmediate himmediate
    obtain ⟨hmem, hr⟩ := of_firstImmediate? hfirst
    obtain ⟨rule, hrule, htype⟩ := (hg.rules_of_entry hentry r).mp hmem
    rw [isImmediate_of_ruleAt? hrule] at hr
    exact .inr ⟨r, rule, value, hrule, htype, Except.ok.inj hr, rfl, rfl⟩

end Answer

/-- Parsing gives the tree that a search from scratch finds. -/
theorem fromExpression_eq_ok_iff :
    g.fromExpression e type = .ok t ↔ g.matchType (g.parseFuel e) type e [] = .ok (some t) := by
  constructor
  · intro ht
    rw [fromExpression] at ht
    split at ht
    · obtain ⟨found, hfound, ht⟩ := bind_eq_ok.mp ht
      cases found with
      | none => cases ht
      | some found =>
        cases ht
        exact hfound
    · cases ht
  · intro hfound
    obtain ⟨-, entry, hentry, -⟩ := of_searchBy hfound
    have htype : g.hasType type = true := Option.isSome_of_eq_some hentry
    rw [fromExpression, if_pos htype, hfound]
    rfl

end TypedGrammar.Grammar
