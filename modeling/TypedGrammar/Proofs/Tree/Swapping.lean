import TypedGrammar.Proofs.Tree.PathWalks

/-!
# Swapping a subtree

A swap puts a tree in the place of the node at a path and gives back what stood there. Around the place
everything stays as it was: below the path stands the new tree, above it the nodes keep their rules and
the number of their children, and beside it nothing changes. So swapping back undoes a swap, and swaps
at two places that lie beside each other can be done in either order.

Beside an open place means at a path that parts from the path of the place. A walk along such a path
never comes to the place, and a change at its end is a change of the context.
-/

namespace TypedGrammar

variable {path other : Path} {i j : Nat}

/-! ### Paths that part -/

/-- Neither path leads through the end of the other. -/
def Path.Apart (path other : Path) : Prop := ¬ path <+: other ∧ ¬ other <+: path

/-- Two paths part whichever is taken first. -/
theorem Path.Apart.symm (h : Path.Apart path other) : Path.Apart other path := ⟨h.2, h.1⟩

/-- No path parts from the empty one. -/
theorem Path.not_apart_nil : ¬ Path.Apart path [] := fun h => h.2 List.nil_prefix

/-- The first indices decide, unless they agree. -/
theorem Path.apart_cons_iff :
    Path.Apart (i :: path) (j :: other) ↔ i ≠ j ∨ Path.Apart path other := by
  by_cases h : i = j
  · simp [Path.Apart, h]
  · simp [Path.Apart, h, Ne.symm h]

/-- A path that parts from another is no path to the root. -/
theorem Path.Apart.ne_nil (h : Path.Apart path other) : path ≠ [] := by
  rintro rfl
  exact Path.not_apart_nil h.symm

/-! ### Beside an open place -/

namespace Frame

variable {f : Frame} {t t' child : Tree}

/-- A frame has as many children whatever is plugged in. -/
theorem length_children_plug (f : Frame) (t t' : Tree) :
    (f.plug t).children.length = (f.plug t').children.length := by simp [plug, Tree.children]

/-- A change of another child is a change of the frame. -/
theorem exists_setChild (hi : i ≠ f.index) (hchild : (f.plug t).child? i = some child)
    (child' : Tree) : ∃ f' : Frame, f'.index = f.index ∧
      ∀ t', (f.plug t').setChild i child' = f'.plug t' := by
  cases i with
  | zero => cases hchild
  | succ i =>
    have hne : i ≠ f.left.length := fun h => hi (congrArg (· + 1) h)
    by_cases hlt : i < f.left.length
    · refine ⟨⟨f.rule, f.left.set i child', f.right⟩, by simp [index], fun t' => ?_⟩
      simp [plug, Tree.setChild, List.set_append_left _ _ hlt]
    · refine ⟨⟨f.rule, f.left, f.right.set (i - f.left.length - 1) child'⟩, rfl, fun t' => ?_⟩
      have hrest : i - f.left.length = i - f.left.length - 1 + 1 := by omega
      rw [plug, Tree.setChild, Nat.add_sub_cancel, List.set_append_right _ _ (Nat.not_lt.mp hlt),
        hrest]
      rfl

end Frame

namespace Context

variable {ctx : Context} {t : Tree}

/-- A walk beside the open place does not depend on what was filled in. -/
theorem walk_plug_of_apart (h : Path.Apart other ctx.path) (whole : Path) (t t' : Tree) :
    (ctx.plug t).walk whole other = (ctx.plug t').walk whole other := by
  induction ctx generalizing other with
  | nil => exact absurd h Path.not_apart_nil
  | cons f rest ih =>
    cases other with
    | nil => exact absurd rfl h.ne_nil
    | cons i other =>
      rw [plug, plug, Tree.walk, Tree.walk, f.length_children_plug _ (plug rest t')]
      by_cases hi : i = f.index
      · subst hi
        rw [Frame.child?_plug, Frame.child?_plug]
        exact ih ((Path.apart_cons_iff.mp h).resolve_left (absurd rfl))
      · rw [Frame.child?_plug_of_ne hi]
        rfl

/-- What is wrong with a path beside the open place does not depend on what was filled in. -/
theorem pathFault?_plug_of_apart (h : Path.Apart other ctx.path) (t t' : Tree) :
    (ctx.plug t).pathFault? other = (ctx.plug t').pathFault? other := by
  induction ctx generalizing other with
  | nil => exact absurd h Path.not_apart_nil
  | cons f rest ih =>
    cases other with
    | nil => exact absurd rfl h.ne_nil
    | cons i other =>
      rw [plug, plug, Tree.pathFault?, Tree.pathFault?]
      by_cases hi : i = f.index
      · subst hi
        rw [Frame.child?_plug, Frame.child?_plug]
        exact ih ((Path.apart_cons_iff.mp h).resolve_left (absurd rfl))
      · rw [Frame.child?_plug_of_ne hi]
        rfl

/-- A change beside the open place is a change of the context: what was filled in stays, and it has no
part in the answer. -/
theorem exists_editWalk_plug_of_apart {α : Type} (h : Path.Apart other ctx.path)
    (hvalid : (ctx.plug t).pathFault? other = none) (whole : Path) (f : Tree → α × Tree) :
    ∃ (answer : α) (ctx' : Context), ctx'.path = ctx.path ∧
      ∀ t', (ctx.plug t').editWalk whole f other = .ok (some (answer, ctx'.plug t')) := by
  induction ctx generalizing other with
  | nil => exact absurd h Path.not_apart_nil
  | cons frame rest ih =>
    cases other with
    | nil => exact absurd rfl h.ne_nil
    | cons i other =>
      rw [plug, Tree.pathFault?] at hvalid
      by_cases hi : i = frame.index
      · subst hi
        rw [Frame.child?_plug] at hvalid
        obtain ⟨answer, rest', hpath, hedit⟩ :=
          ih ((Path.apart_cons_iff.mp h).resolve_left (absurd rfl)) hvalid
        refine ⟨answer, frame :: rest', by rw [path_cons, path_cons, hpath], fun t' => ?_⟩
        rw [plug, Tree.editWalk, Frame.child?_plug]
        simp only [hedit, Frame.setChild_plug]
        rfl
      · cases hchild : (frame.plug (plug rest t)).child? i with
        | none =>
          rw [hchild] at hvalid
          cases hvalid
        | some child =>
          rw [hchild] at hvalid
          obtain ⟨inner, node, rfl, rfl⟩ := Tree.exists_context hvalid
          obtain ⟨frame', hindex, hset⟩ :=
            Frame.exists_setChild hi hchild (inner.plug (f node).2)
          refine ⟨(f node).1, frame' :: rest, by rw [path_cons, path_cons, hindex], fun t' => ?_⟩
          have hsame : (frame.plug (plug rest t')).child? i = some _ :=
            (Frame.child?_plug_of_ne hi).trans hchild
          rw [plug, Tree.editWalk, hsame]
          simp only [editWalk_plug, hset]
          rfl

/-- A swap beside the open place leaves what was filled in alone, and goes the same way whatever that
is. -/
theorem exists_swap_plug_of_apart (h : Path.Apart other ctx.path) (subtree : Tree) :
    ∃ (result : Except Failure Tree) (ctx' : Context), ctx'.path = ctx.path ∧
      ∀ t, (ctx.plug t).swap other subtree = ⟨ctx'.plug t, result, []⟩ := by
  have hroot : other.isEmpty = false := by simpa using h.ne_nil
  cases hfault : (ctx.plug default).pathFault? other with
  | some fault =>
    refine ⟨report (.invalidPath other fault), ctx, rfl, fun t => ?_⟩
    rw [Tree.swap, hroot, Tree.checkPath, pathFault?_plug_of_apart h t default, hfault]
    rfl
  | none =>
    obtain ⟨old, ctx', hpath, hedit⟩ :=
      exists_editWalk_plug_of_apart h hfault other fun old => (old, subtree)
    refine ⟨.ok old, ctx', hpath, fun t => ?_⟩
    rw [Tree.swap, hroot, Tree.checkPath, pathFault?_plug_of_apart h t default, hfault, Tree.editAt,
      hedit]
    rfl

end Context

namespace Tree

variable {t old subtree subtree' : Tree} {whole : Path} {found : Option Tree}

/-! ### The outcome of a swap -/

/-- A swap at a path below the root puts the subtree in the open place of a context, or fails for what
is wrong with the path. -/
theorem swap_cases (t subtree : Tree) (hroot : path ≠ []) :
    (∃ (ctx : Context) (node : Tree), t = ctx.plug node ∧ path = ctx.path ∧
      t.checkPath path = .ok () ∧ t.swap path subtree = .done (ctx.plug subtree) node) ∨
    ∃ failure, t.checkPath path = .error failure ∧ t.swap path subtree = .failed t failure := by
  cases hcheck : t.checkPath path with
  | error failure => exact .inr ⟨failure, rfl, by rw [swap, if_neg (by simpa using hroot), hcheck]⟩
  | ok _ =>
    obtain ⟨ctx, node, rfl, rfl⟩ := exists_context_of_checkPath hcheck
    exact .inl ⟨ctx, node, rfl, rfl, rfl, ctx.swap_plug node subtree hroot⟩

/-- The root is not swapped. -/
theorem swap_nil (t subtree : Tree) : t.swap [] subtree = .refused t .emptyPath := rfl

/-- A swap that succeeds puts the subtree in the open place of a context. -/
theorem exists_context_of_swap (h : (t.swap path subtree).result = .ok old) :
    ∃ ctx : Context, t = ctx.plug old ∧ path = ctx.path ∧ path ≠ [] ∧
      (t.swap path subtree).state = ctx.plug subtree := by
  by_cases hroot : path = []
  · rw [hroot, swap_nil] at h
    cases h
  · rcases swap_cases t subtree hroot with ⟨ctx, node, rfl, rfl, -, hdone⟩ | ⟨failure, -, hfailed⟩
    · rw [hdone] at h ⊢
      obtain rfl : node = old := Except.ok.inj h
      exact ⟨ctx, rfl, rfl, hroot, rfl⟩
    · rw [hfailed] at h
      cases h

/-- A swap that fails changes nothing. -/
theorem state_swap_of_error {failure : Failure} (h : (t.swap path subtree).result = .error failure) :
    (t.swap path subtree).state = t := by
  by_cases hroot : path = []
  · rw [hroot, swap_nil]
    rfl
  · rcases swap_cases t subtree hroot with ⟨ctx, node, -, -, -, hdone⟩ | ⟨fault, -, hfailed⟩
    · rw [hdone] at h
      cases h
    · rw [hfailed]
      rfl

/-- Only the root is refused for being the root. -/
theorem result_swap_eq_emptyPath_iff :
    (t.swap path subtree).result = report .emptyPath ↔ path = [] := by
  constructor
  · intro h
    by_contra hroot
    rcases swap_cases t subtree hroot with ⟨ctx, node, -, -, -, hdone⟩ | ⟨failure, hcheck, hfailed⟩
    · rw [hdone] at h
      cases h
    · rw [hfailed] at h
      obtain rfl : failure = .reported .emptyPath := Except.error.inj h
      rw [checkPath] at hcheck
      split at hcheck <;> cases hcheck
  · rintro rfl
    rfl

/-- Below the root a swap fails exactly when the check of the path does, and for the same reason. -/
theorem result_swap_eq_error_iff (hroot : path ≠ []) (failure : Failure) :
    (t.swap path subtree).result = .error failure ↔ t.checkPath path = .error failure := by
  rcases swap_cases t subtree hroot with ⟨ctx, node, -, -, hcheck, hdone⟩ | ⟨fault, hcheck, hfailed⟩
  · rw [hcheck, hdone]
    exact iff_of_false nofun nofun
  · rw [hcheck, hfailed]
    simp [Edit.failed]

/-! ### The tree after a swap -/

/-- What a walk finds does not depend on the path that it reports when it stops. -/
theorem walk_eq_ok_iff : t.walk whole path = .ok found ↔ t.nodeAt path = .ok found := by
  cases t.pathEnd path with
  | node ctx node => rw [Context.walk_plug, Context.nodeAt_plug]
  | hole ctx h i rest =>
    rw [Context.walk_plug_append, nodeAt_below_hole]
    rfl
  | lacking ctx node i rest hfilled hlacks =>
    rw [Context.walk_plug_append, walk, hfilled, hlacks, nodeAt_lacking ctx rest hfilled hlacks]
    constructor
    · intro h
      cases h
    · intro h
      cases h

/-- The second tree has the subtree in the place where the node stood in the first. -/
structure Swapped (t : Tree) (path : Path) (subtree old t' : Tree) : Prop where
  /-- The node stood at the path. -/
  answer : t.nodeAt path = .ok (some old)
  /-- Below the path stands what stands in the subtree. -/
  below : ∀ rest found, t'.nodeAt (path ++ rest) = .ok found ↔ subtree.nodeAt rest = .ok found
  /-- Beside the path stands what stood there before. -/
  beside : ∀ other, Path.Apart path other → t'.nodeAt other = t.nodeAt other
  /-- Above the path each node applies the rule that it applied before, to as many children. -/
  above : ∀ above, above <+: path → above ≠ path → ∃ r children children',
    t.nodeAt above = .ok (some (.apply r children)) ∧
      t'.nodeAt above = .ok (some (.apply r children')) ∧ children'.length = children.length
  /-- Swapping the node back makes the tree what it was. -/
  restores : t'.swap path old = .done t subtree

/-- Above the open place stands a node with a rule and a number of children that do not depend on what
is filled in. -/
theorem exists_apply_above {ctx : Context} {above : Path} (habove : above <+: ctx.path)
    (hne : above ≠ ctx.path) : ∃ (r : RuleId) (count : Nat), ∀ t, ∃ children,
      (ctx.plug t).nodeAt above = .ok (some (.apply r children)) ∧ children.length = count := by
  obtain ⟨below, hbelow⟩ := habove
  obtain ⟨outer, inner, rfl, rfl, rfl⟩ := List.map_eq_append_iff.mp hbelow.symm
  cases inner with
  | nil => simp [Context.path] at hne
  | cons f rest =>
    refine ⟨f.rule, f.left.length + 1 + f.right.length, fun t =>
      ⟨f.left ++ Context.plug rest t :: f.right, ?_, ?_⟩⟩
    · rw [Context.plug_append]
      exact Context.nodeAt_plug outer (f.plug (Context.plug rest t))
    · simp only [List.length_append, List.length_cons]
      omega

/-- Swapping what stands in the open place of a context leaves the rest as it is. -/
theorem swapped_plug (ctx : Context) (old subtree : Tree) (hroot : ctx.path ≠ []) :
    Swapped (ctx.plug old) ctx.path subtree old (ctx.plug subtree) where
  answer := ctx.nodeAt_plug old
  below rest found := by
    rw [nodeAt, Context.walk_plug_append]
    exact walk_eq_ok_iff
  beside other h := Context.walk_plug_of_apart h.symm other _ _
  above above habove hne := by
    obtain ⟨r, count, hnode⟩ := exists_apply_above habove hne
    obtain ⟨children, hbefore, hcount⟩ := hnode old
    obtain ⟨children', hafter, hcount'⟩ := hnode subtree
    exact ⟨r, children, children', hbefore, hafter, hcount'.trans hcount.symm⟩
  restores := ctx.swap_plug subtree old hroot

/-! ### Two swaps -/

/-- The two swaps can be done in either order: each gives the answer that it gives alone, and the same
tree comes out. -/
structure SwapsCommute (t : Tree) (path : Path) (subtree : Tree) (other : Path) (subtree' : Tree) :
    Prop where
  state_eq : ((t.swap path subtree).state.swap other subtree').state =
    ((t.swap other subtree').state.swap path subtree).state
  first_eq : ((t.swap other subtree').state.swap path subtree).result = (t.swap path subtree).result
  second_eq : ((t.swap path subtree).state.swap other subtree').result =
    (t.swap other subtree').result

/-- Swaps that can be done in either order are named in either order. -/
theorem SwapsCommute.symm (h : SwapsCommute t path subtree other subtree') :
    SwapsCommute t other subtree' path subtree := ⟨h.state_eq.symm, h.second_eq, h.first_eq⟩

/-- A swap at a place commutes with one beside it, whether that one succeeds or not. -/
theorem swapsCommute_plug {ctx : Context} (h : Path.Apart ctx.path other) (old subtree subtree' : Tree) :
    SwapsCommute (ctx.plug old) ctx.path subtree other subtree' := by
  obtain ⟨result, ctx', hpath, hbeside⟩ := ctx.exists_swap_plug_of_apart h.symm subtree'
  have hbefore := ctx.swap_plug old subtree h.ne_nil
  have hafter : (ctx'.plug old).swap ctx.path subtree = .done (ctx'.plug subtree) old := by
    rw [← hpath] at h ⊢
    exact ctx'.swap_plug old subtree h.ne_nil
  constructor <;> simp only [hbefore, hbeside, hafter, Edit.done]

/-- Swaps at paths that part commute. Where both paths are bad neither swap does anything. -/
theorem swapsCommute_of_apart (t : Tree) (h : Path.Apart path other) (subtree subtree' : Tree) :
    SwapsCommute t path subtree other subtree' := by
  rcases swap_cases t subtree h.ne_nil with ⟨ctx, old, rfl, rfl, -⟩ | ⟨failure, -, hfailed⟩
  · exact swapsCommute_plug h old subtree subtree'
  · rcases swap_cases t subtree' h.symm.ne_nil with ⟨ctx, old, rfl, rfl, -⟩ | ⟨failure', -, hfailed'⟩
    · exact (swapsCommute_plug h.symm old subtree' subtree).symm
    · constructor <;> simp only [hfailed, hfailed', Edit.failed]

/-- What a swap does, when it fails, and how it goes together with others. -/
structure LawfulSwap (t : Tree) (path : Path) (subtree : Tree) : Prop where
  /-- The root alone is refused for having no place. -/
  emptyPath_iff : (t.swap path subtree).result = report .emptyPath ↔ path = []
  /-- Any other path is refused for what the check finds wrong with it. -/
  fails_iff : path ≠ [] → ∀ failure,
    (t.swap path subtree).result = .error failure ↔ t.checkPath path = .error failure
  /-- A swap that fails changes nothing. -/
  keeps : ∀ failure, (t.swap path subtree).result = .error failure → (t.swap path subtree).state = t
  /-- A swap that succeeds changes what stands at the path and nothing around it. -/
  swapped : ∀ old, (t.swap path subtree).result = .ok old →
    Swapped t path subtree old (t.swap path subtree).state
  /-- It commutes with a swap at any path that parts from its own. -/
  commutes : ∀ other subtree', Path.Apart path other → SwapsCommute t path subtree other subtree'

/-- For every tree, path and subtree, a swap fails for the empty path and for what is wrong with a path,
and then changes nothing. Otherwise it gives the node at the path back and puts the subtree in its place,
with everything around it as it was, so that swapping back restores the tree. Swaps at paths that part
commute. -/
theorem swap_lawful (t : Tree) (path : Path) (subtree : Tree) : LawfulSwap t path subtree where
  emptyPath_iff := result_swap_eq_emptyPath_iff
  fails_iff hroot := result_swap_eq_error_iff hroot
  keeps _ := state_swap_of_error
  swapped old h := by
    obtain ⟨ctx, rfl, rfl, hroot, hstate⟩ := exists_context_of_swap h
    rw [hstate]
    exact swapped_plug ctx old subtree hroot
  commutes _ subtree' hapart := swapsCommute_of_apart t hapart subtree subtree'

end Tree

end TypedGrammar
