import TypedGrammar.Proofs.Derivation.Committing
import TypedGrammar.Proofs.Derivation.Filling
import TypedGrammar.Proofs.Grammar.Embedding
import TypedGrammar.Proofs.Grammar.Outline

/-!
# Kinds of rules after a merge

A merge knows a rule by its type and its body, and by these alone. So a rule of the other grammar that
the first one has as well becomes the rule that is there, which keeps its own kind: an immediate rule
can become an ordinary one, and the other way round. All other rules come along as they are, if the
symbols of their bodies still stand for the same. Exactly the derivations that apply such rules only
are derivations of the merged grammar.
-/

namespace TypedGrammar.Grammar

variable {f : RuleId → RuleId} {g g' other grown : Grammar} {r known : RuleId} {rule rule' : Rule}
  {type : String} {t : Tree} {path : Path} {hole : Hole} {mapping : List (Option RuleId)}

/-- The first grammar has the rule of the other one as well, but as the other kind. -/
def HasOtherKind (g other : Grammar) (r : RuleId) : Prop :=
  ∃ known rule rule', other.ruleAt? r = some rule ∧ g.ruleAt? known = some rule' ∧
    rule'.type = rule.type ∧ rule'.body = rule.body ∧ rule'.immediate ≠ rule.immediate

/-! ### What a rule becomes -/

section Parts

variable (h : MergeParts g other mapping grown) (hother : Distinct other)
  (hmerged : Distinct (g.merge other).state)

include h hother hmerged

/-- A rule that the first grammar has as well becomes the rule that is there. -/
theorem MergeParts.ruleAt?_known (hr : other.ruleAt? r = some rule)
    (hknown : g.ruleAt? known = some rule') (htype : rule'.type = rule.type)
    (hbody : rule'.body = rule.body) :
    renamed mapping r = known ∧ ∃ x : Grammar,
      (g.merge other).state.ruleAt? known = some (x.resolve rule') := by
  obtain ⟨x, hresolve⟩ := h.exists_resolve
  have hformer : (g.merge other).state.ruleAt? known = some (x.resolve rule') := by
    rw [hresolve, h.ruleAt?_former hother (index_lt_of_ruleAt? hknown), hknown]
    rfl
  obtain ⟨found, image, hfound, himage, himageType, himageBody⟩ :=
    h.of_image (h.getElem?_mapping (isLive_iff.mpr ⟨rule, hr⟩))
  obtain rfl := Option.some.inj (hr.symm.trans hfound)
  exact ⟨hmerged _ _ _ _ himage hformer (himageType.trans htype.symm) (himageBody.trans hbody.symm),
    x, hformer⟩

/-- A rule that the first grammar does not have comes along. -/
theorem MergeParts.ruleAt?_unknown (hr : other.ruleAt? r = some rule)
    (hnew : ¬ Knows g rule.type rule.body) : ∃ x : Grammar,
      (g.merge other).state.ruleAt? (renamed mapping r) = some (x.resolve rule) := by
  have hmem : r ∈ g.newRules other := by
    rw [newRules, List.mem_filter, isNew_of_ruleAt? hr]
    exact ⟨mem_ruleIds_iff.mpr (isLive_iff.mpr ⟨rule, hr⟩), by simpa using hnew⟩
  obtain ⟨k, hk⟩ := List.mem_iff_getElem?.mp hmem
  obtain ⟨found, x, hfound, himage⟩ := h.ruleAt?_merge_new hother hk
  obtain rfl := Option.some.inj (hr.symm.trans hfound)
  have hrenamed : renamed mapping r = ⟨g.size + k⟩ := by
    rw [renamed, h.image_new hother hmerged hk]
    rfl
  exact ⟨x, by rw [hrenamed, himage]; rfl⟩

/-- A rule becomes one with its type and body, and with its kind unless the first grammar has it as the
other kind. -/
theorem MergeParts.exists_became (hg : Distinct g) (hr : other.ruleAt? r = some rule) :
    ∃ rule', (g.merge other).state.ruleAt? (renamed mapping r) = some rule' ∧
      rule'.type = rule.type ∧ rule'.body = rule.body ∧
      (rule'.immediate = rule.immediate ↔ ¬ HasOtherKind g other r) := by
  by_cases hknows : Knows g rule.type rule.body
  · obtain ⟨known, former, hknown, htype, hbody⟩ := hknows
    obtain ⟨hrenamed, x, himage⟩ := h.ruleAt?_known hother hmerged hr hknown htype hbody
    refine ⟨x.resolve former, hrenamed ▸ himage, htype, hbody, ?_⟩
    have hkind : former.immediate = rule.immediate ↔ ¬ HasOtherKind g other r := by
      constructor
      · intro hsame hdiffers
        obtain ⟨known', found, former', hfound, hknown', htype', hbody', hne⟩ := hdiffers
        obtain rfl := Option.some.inj (hr.symm.trans hfound)
        obtain rfl := hg known known' former former' hknown hknown' (htype.trans htype'.symm)
          (hbody.trans hbody'.symm)
        obtain rfl := Option.some.inj (hknown.symm.trans hknown')
        exact hne hsame
      · intro hkeeps
        by_contra hne
        exact hkeeps ⟨known, rule, former, hr, hknown, htype, hbody, hne⟩
    exact hkind
  · obtain ⟨x, himage⟩ := h.ruleAt?_unknown hother hmerged hr hknows
    refine ⟨x.resolve rule, himage, rfl, rfl, iff_of_true rfl ?_⟩
    intro hdiffers
    obtain ⟨known, found, former, hfound, hknown, htype, hbody, -⟩ := hdiffers
    obtain rfl := Option.some.inj (hr.symm.trans hfound)
    exact hknows ⟨known, former, hknown, htype, hbody⟩

end Parts

/-- A list that one of two kinds has and the other has not is the same for both if the kinds are, or if
the list is empty. -/
theorem listed_by_kind_iff {α : Type} (values : List α) (immediate immediate' : Bool) :
    (if immediate' then [] else values) = (if immediate then [] else values) ↔
      immediate' = immediate ∨ values = [] := by
  cases immediate with
  | false => cases immediate' <;> simp [@eq_comm _ []]
  | true => cases immediate' <;> simp

section Resolved

variable (hg : Consistent g) (hg' : Consistent g') (hr : g.ruleAt? r = some rule)
  (hr' : g'.ruleAt? known = some rule') (hbody : rule'.body = rule.body)
  (hnames : ∀ name ∈ rule.body.symbols, g'.classify name = g.classify name)

include hg hg' hr hr' hbody hnames

/-- In two grammars in which its symbols stand for the same a body is resolved alike for rules of one
kind. -/
theorem kinds_eq_iff :
    rule'.kinds = rule.kinds ↔ rule'.immediate = rule.immediate ∨ rule.body.symbols = [] := by
  rw [hg.kinds_eq r rule hr, hg'.kinds_eq known rule' hr', hbody, List.map_congr_left hnames,
    listed_by_kind_iff, List.map_eq_nil_iff]

/-- Rules of one kind with this body ask for the same children. -/
theorem childTypes_eq_iff : rule'.childTypes = rule.childTypes ↔
    rule'.immediate = rule.immediate ∨ rule.body.symbols.filter g.hasType = [] := by
  have hplaces : ∀ immediate : Bool,
      (if immediate then [] else rule.body.symbols.map g.classify).filterMap SymbolKind.childType? =
        if immediate then [] else rule.body.symbols.filter g.hasType := by
    intro immediate
    cases immediate with
    | false => exact filterMap_childType g rule.body.symbols
    | true => rfl
  rw [Rule.childTypes, Rule.childTypes, hg.kinds_eq r rule hr, hg'.kinds_eq known rule' hr', hbody,
    List.map_congr_left hnames, hplaces, hplaces, listed_by_kind_iff]

/-- A rule of one kind with this body and the same type is the same rule. -/
theorem rule_eq_of_kind (htype : rule'.type = rule.type) (hkind : rule'.immediate = rule.immediate) :
    rule' = rule := by
  have hkinds := (kinds_eq_iff hg hg' hr hr' hbody hnames).mpr (.inl hkind)
  cases rule
  cases rule'
  simp_all

end Resolved

/-! ### Derivations -/

/-- A derivation goes over to another grammar under new names for its rules, if these are the same rules
there, and it stands for the same expression. -/
theorem Complete.mapRules (h : Complete g type t)
    (hsame : ∀ r ∈ t.preorderRules, ∀ rule, g.ruleAt? r = some rule → g'.ruleAt? (f r) = some rule) :
    Complete g' type (t.mapRules f) ∧ g'.toExpression (t.mapRules f) = g.toExpression t := by
  refine h.induct (motive := fun type t =>
      (∀ r ∈ t.preorderRules, ∀ rule, g.ruleAt? r = some rule → g'.ruleAt? (f r) = some rule) →
      Complete g' type (t.mapRules f) ∧ g'.toExpression (t.mapRules f) = g.toExpression t)
    (fun r rule children hr hordinary _ ih hsame => ?_)
    (fun r rule value hr himmediate hsame => ?_) hsame
  · have hr' : g'.ruleAt? (f r) = some rule := hsame r List.mem_cons_self rule hr
    have hchildren := Pairing.imp_of_mem ih fun _ child hchild hcarries =>
      hcarries fun s hs => hsame s (Tree.mem_preorderRules_of_child hchild hs)
    have hcomplete : List.Forall₂ (Complete g') rule.childTypes (children.map (Tree.mapRules f)) :=
      List.forall₂_map_right_iff.mpr (hchildren.imp fun _ _ => And.left)
    have hexpressions : g'.expressionsOf (children.map (Tree.mapRules f)) = g.expressionsOf children := by
      rw [expressionsOf_eq_map, expressionsOf_eq_map, List.map_map]
      refine List.map_congr_left fun child hchild => ?_
      obtain ⟨-, -, -, hstands⟩ := Pairing.exists_left_of_mem hchildren hchild
      exact hstands
    rw [Tree.mapRules, Tree.mapRulesOfAll_eq]
    refine ⟨.of_children hr' hordinary hcomplete, ?_⟩
    rw [toExpression, toExpression, symbolKinds_of_ruleAt? hr, symbolKinds_of_ruleAt? hr',
      body_of_ruleAt? hr, body_of_ruleAt? hr', hexpressions]
  · have hr' : g'.ruleAt? (f r) = some rule := hsame r List.mem_cons_self rule hr
    exact ⟨.immediate hr' himmediate value, rfl⟩

/-- If the renamed tree is a derivation as well, the rules have kept their kinds. -/
theorem Complete.isImmediate_of_mapRules (h : Complete g type t) {type' : String}
    (h' : Complete g' type' (t.mapRules f)) : ∀ r ∈ t.preorderRules,
      g.isLive r = true ∧ g'.isImmediate (f r) = g.isImmediate r := by
  refine h.induct (motive := fun _ t => ∀ type', Complete g' type' (t.mapRules f) →
      ∀ r ∈ t.preorderRules, g.isLive r = true ∧ g'.isImmediate (f r) = g.isImmediate r)
    (fun r rule children hr hordinary _ ih type' h' => ?_)
    (fun r rule value hr himmediate type' h' => ?_) type' h'
  · rw [Tree.mapRules, Tree.mapRulesOfAll_eq] at h'
    obtain ⟨image, himage, -, hordinary', hchildren⟩ := complete_apply_iff.mp h'
    refine List.forall_mem_cons.mpr ⟨⟨isLive_iff.mpr ⟨rule, hr⟩, ?_⟩, fun s hs => ?_⟩
    · rw [isImmediate_of_ruleAt? hr, isImmediate_of_ruleAt? himage, hordinary, hordinary']
    · obtain ⟨child, hchild, hat⟩ := (Tree.mem_preorderRulesOfAll children).mp hs
      obtain ⟨-, -, hkept⟩ := Pairing.exists_left_of_mem ih hchild
      obtain ⟨_, -, hcomplete⟩ :=
        Pairing.exists_left_of_mem hchildren (List.mem_map_of_mem hchild)
      exact hkept _ hcomplete s ((Tree.mem_preorderRules child).mpr hat)
  · refine List.forall_mem_singleton.mpr ⟨isLive_iff.mpr ⟨rule, hr⟩, ?_⟩
    cases h' with
    | immediate himage himmediate' =>
      rw [isImmediate_of_ruleAt? hr, isImmediate_of_ruleAt? himage, himmediate, himmediate']

/-! ### After a merge -/

section Merged

variable (h : MergeParts g other mapping grown) (hg : Reachable g) (hother : Reachable other)

include h hg hother

/-- What a rule of the other grammar becomes has its kind exactly if the first grammar does not have it
as the other kind. -/
theorem MergeParts.isImmediate_iff (hlive : other.isLive r = true) :
    (g.merge other).state.isImmediate (renamed mapping r) = other.isImmediate r ↔
      ¬ HasOtherKind g other r := by
  obtain ⟨rule, hr⟩ := isLive_iff.mp hlive
  obtain ⟨rule', hr', -, -, hkind⟩ :=
    h.exists_became hother.distinct (hg.merge hother).distinct hg.distinct hr
  rw [isImmediate_of_ruleAt? hr, isImmediate_of_ruleAt? hr', Except.ok.injEq, hkind]

variable (hnames : ∀ r body, other.body r = .ok body → ∀ name ∈ body.symbols,
  (g.merge other).state.classify name = other.classify name)

include hnames

/-- Its symbols stand for the same exactly if it keeps its kind or has no symbols. -/
theorem MergeParts.symbolKinds_iff (hr : other.ruleAt? r = some rule) :
    (g.merge other).state.symbolKinds (renamed mapping r) = other.symbolKinds r ↔
      ¬ HasOtherKind g other r ∨ rule.body.symbols = [] := by
  obtain ⟨rule', hr', -, hbody, hkind⟩ :=
    h.exists_became hother.distinct (hg.merge hother).distinct hg.distinct hr
  rw [symbolKinds_of_ruleAt? hr, symbolKinds_of_ruleAt? hr', Except.ok.injEq, ← hkind]
  exact kinds_eq_iff hother.consistent (hg.merge hother).consistent hr hr' hbody
    (hnames r rule.body (body_of_ruleAt? hr))

/-- It asks for the same children exactly if it keeps its kind or has no places. -/
theorem MergeParts.childTypes_iff (hr : other.ruleAt? r = some rule) :
    (g.merge other).state.childTypes (renamed mapping r) = other.childTypes r ↔
      ¬ HasOtherKind g other r ∨ rule.body.symbols.filter other.hasType = [] := by
  obtain ⟨rule', hr', -, hbody, hkind⟩ :=
    h.exists_became hother.distinct (hg.merge hother).distinct hg.distinct hr
  rw [childTypes_of_ruleAt? hr, childTypes_of_ruleAt? hr', Except.ok.injEq, ← hkind]
  exact childTypes_eq_iff hother.consistent (hg.merge hother).consistent hr hr' hbody
    (hnames r rule.body (body_of_ruleAt? hr))

/-- A rule that keeps its kind is the same rule as before. -/
theorem MergeParts.ruleAt?_kept (hkeeps : ¬ HasOtherKind g other r)
    (hr : other.ruleAt? r = some rule) :
    (g.merge other).state.ruleAt? (renamed mapping r) = some rule := by
  obtain ⟨rule', hr', htype, hbody, hkind⟩ :=
    h.exists_became hother.distinct (hg.merge hother).distinct hg.distinct hr
  rw [hr', rule_eq_of_kind hother.consistent (hg.merge hother).consistent hr hr' hbody
    (hnames r rule.body (body_of_ruleAt? hr)) htype (hkind.mpr hkeeps)]

/-- A derivation whose rules all keep their kinds goes over, and stands for the same expression. -/
theorem MergeParts.complete_kept (ht : Complete other type t)
    (hkeeps : ∀ r ∈ t.preorderRules, ¬ HasOtherKind g other r) :
    Complete (g.merge other).state type (t.mapRules (renamed mapping)) ∧
      (g.merge other).state.toExpression (t.mapRules (renamed mapping)) = other.toExpression t :=
  ht.mapRules fun r hr _ hrule => h.ruleAt?_kept hg hother hnames (hkeeps r hr) hrule

end Merged

/-- Of the rules of the other grammar, those that the first one has as the other kind change theirs in a
merge, and the others do not. -/
structure KeepsKinds (g other merged : Grammar) (mapping : List (Option RuleId)) : Prop where
  /-- The mapping names what a rule becomes. -/
  image : ∀ r : RuleId, other.isLive r = true → mapping[r.index]? = some (some (renamed mapping r))
  /-- A rule becomes one of its type with its body. -/
  means : ∀ r, other.isLive r = true → merged.returnType (renamed mapping r) = other.returnType r ∧
    merged.body (renamed mapping r) = other.body r
  /-- A rule that the first grammar has as well becomes the rule that is there and takes its kind. -/
  known : ∀ r known type body, other.returnType r = .ok type → other.body r = .ok body →
    g.returnType known = .ok type → g.body known = .ok body →
      renamed mapping r = known ∧ merged.isImmediate known = g.isImmediate known
  /-- A rule keeps its kind exactly if the first grammar does not have it as the other kind. -/
  isImmediate_iff : ∀ r, other.isLive r = true →
    (merged.isImmediate (renamed mapping r) = other.isImmediate r ↔ ¬ HasOtherKind g other r)
  /-- Its symbols stand for the same exactly if it keeps its kind or has no symbols. -/
  symbolKinds_iff : ∀ r body, other.body r = .ok body →
    (merged.symbolKinds (renamed mapping r) = other.symbolKinds r ↔
      ¬ HasOtherKind g other r ∨ body.symbols = [])
  /-- It asks for the same children exactly if it keeps its kind or has no places. -/
  childTypes_iff : ∀ r body, other.body r = .ok body →
    (merged.childTypes (renamed mapping r) = other.childTypes r ↔
      ¬ HasOtherKind g other r ∨ body.symbols.filter other.hasType = [])
  /-- A derivation goes over exactly if all its rules keep their kinds. -/
  complete_iff : ∀ type t, Complete other type t →
    (Complete merged type (t.mapRules (renamed mapping)) ↔
      ∀ r ∈ t.preorderRules, ¬ HasOtherKind g other r)
  /-- It stands for the same expression then. -/
  toExpression_eq : ∀ type t, Complete other type t →
    (∀ r ∈ t.preorderRules, ¬ HasOtherKind g other r) →
      merged.toExpression (t.mapRules (renamed mapping)) = other.toExpression t
  /-- A literal fills a hole with what an immediate rule becomes, if it keeps its kind. -/
  fillImmediate : ∀ r, other.isImmediate r = .ok true → ¬ HasOtherKind g other r →
    ∀ t path hole, holeAt t path = .ok hole → hole.domain.containsRule (renamed mapping r) = true →
      ∀ value, (merged.fillImmediate t path (renamed mapping r) value).result = .ok ()
  /-- What an ordinary rule becomes expands a hole, if it keeps its kind. -/
  expand : ∀ r, other.isLive r = true → other.isImmediate r = .ok false → ¬ HasOtherKind g other r →
    ∀ t path hole, holeAt t path = .ok hole → hole.domain.containsRule (renamed mapping r) = true →
      (merged.expand t path (renamed mapping r)).result = .ok ()

/-- After a merge that leaves the meaning of the other grammar's symbols alone, its rules have their
kinds, apart from those that the first grammar has as the other kind. -/
theorem Reachable.merge_keepsKinds (h : Reachable g) (hother : Reachable other)
    (hmerge : (g.merge other).result = .ok mapping)
    (hnames : ∀ r body, other.body r = .ok body → ∀ name ∈ body.symbols,
      (g.merge other).state.classify name = other.classify name) :
    KeepsKinds g other (g.merge other).state mapping := by
  have hmerged := h.merge hother
  obtain ⟨grown, hparts⟩ := h.consistent.mergeParts hmerge
  exact {
    image := fun r hlive => hparts.getElem?_mapping hlive
    means := fun r hlive => by
      obtain ⟨rule, hr⟩ := isLive_iff.mp hlive
      obtain ⟨rule', hr', htype, hbody, -⟩ :=
        hparts.exists_became hother.distinct hmerged.distinct h.distinct hr
      rw [body_of_ruleAt? hr, body_of_ruleAt? hr', hbody]
      exact ⟨(returnType_eq_ok_iff.mpr ⟨rule', hr', htype⟩).trans
        (returnType_eq_ok_iff.mpr ⟨rule, hr, rfl⟩).symm, rfl⟩
    known := fun r known type body htype hbody hknownType hknownBody => by
      obtain ⟨rule, hr, rfl⟩ := returnType_eq_ok_iff.mp htype
      obtain rfl := Except.ok.inj ((body_of_ruleAt? hr).symm.trans hbody)
      obtain ⟨rule', hr', htype'⟩ := returnType_eq_ok_iff.mp hknownType
      have hbody' := Except.ok.inj ((body_of_ruleAt? hr').symm.trans hknownBody)
      obtain ⟨hrenamed, x, himage⟩ :=
        hparts.ruleAt?_known hother.distinct hmerged.distinct hr hr' htype' hbody'
      exact ⟨hrenamed, by rw [isImmediate_of_ruleAt? himage, isImmediate_of_ruleAt? hr']; rfl⟩
    isImmediate_iff := fun r hlive => hparts.isImmediate_iff h hother hlive
    symbolKinds_iff := fun r body hbody => by
      obtain ⟨rule, hr, rfl⟩ := body_eq_ok_iff.mp hbody
      exact hparts.symbolKinds_iff h hother hnames hr
    childTypes_iff := fun r body hbody => by
      obtain ⟨rule, hr, rfl⟩ := body_eq_ok_iff.mp hbody
      exact hparts.childTypes_iff h hother hnames hr
    complete_iff := fun type t ht => by
      constructor
      · intro hmapped r hr
        obtain ⟨hlive, hkept⟩ := ht.isImmediate_of_mapRules hmapped r hr
        exact (hparts.isImmediate_iff h hother hlive).mp hkept
      · exact fun hkeeps => (hparts.complete_kept h hother hnames ht hkeeps).1
    toExpression_eq := fun type t ht hkeeps => (hparts.complete_kept h hother hnames ht hkeeps).2
    fillImmediate := fun r himmediate hkeeps t path hole hhole hcandidate value => by
      obtain ⟨rule, hr, hrule⟩ := isImmediate_eq_ok_true_iff.mp himmediate
      have himage := hparts.ruleAt?_kept h hother hnames hkeeps hr
      rw [result_fillImmediate hhole himage hcandidate, if_pos hrule]
    expand := fun r hlive hordinary hkeeps t path hole hhole hcandidate => by
      obtain ⟨rule, hr⟩ := isLive_iff.mp hlive
      have himage := hparts.ruleAt?_kept h hother hnames hkeeps hr
      rw [isImmediate_of_ruleAt? hr] at hordinary
      rw [hmerged.consistent.result_expand hhole himage hcandidate, Except.ok.inj hordinary]
      rfl }

/-- Reals that are drawn by the host, and sums of them. -/
def drawnSums : Grammar :=
  ((empty.addImmediateRule "Real" (.call "rand" [])).state.addRule "Real"
    (.call "+" [.sym "Real", .sym "Real"])).state

/-- The only symbol in a body of this grammar is the name of its type. -/
theorem symbol_drawnSums {body : Expr} {name : String} (hbody : drawnSums.body r = .ok body)
    (hname : name ∈ body.symbols) : name = "Real" := by
  obtain ⟨rule, hr, rfl⟩ := body_eq_ok_iff.mp hbody
  have hsize : drawnSums.size = 2 := by cbv
  have hlt : r.index < 2 := hsize ▸ index_lt_of_ruleAt? hr
  obtain ⟨i⟩ := r
  obtain rfl | rfl : i = 0 ∨ i = 1 := Nat.le_one_iff_eq_zero_or_eq_one.mp (Nat.le_of_lt_succ hlt)
  · have hdrawn : drawnSums.body ⟨0⟩ = .ok (.call "rand" []) := by cbv
    rw [Except.ok.inj (hbody.symm.trans hdrawn)] at hname
    cases hname
  · have hsum : drawnSums.body ⟨1⟩ = .ok (.call "+" [.sym "Real", .sym "Real"]) := by cbv
    rw [Except.ok.inj (hbody.symm.trans hsum)] at hname
    simpa [Expr.symbols, Expr.symbolsOfArgs] using hname

/-- The real number zero. -/
def zeroReal : Grammar := (empty.addRule "Real" (.lit (.int 0))).state

/-- Behind the zero, reals are still drawn by the host. -/
theorem zeroReal_merge_keepsKinds :
    Reachable zeroReal ∧ Reachable drawnSums ∧
    (zeroReal.merge drawnSums).result = .ok [some ⟨1⟩, some ⟨2⟩] ∧
    (∀ r body, drawnSums.body r = .ok body → ∀ name ∈ body.symbols,
      (zeroReal.merge drawnSums).state.classify name = drawnSums.classify name) ∧
    KeepsKinds zeroReal drawnSums (zeroReal.merge drawnSums).state [some ⟨1⟩, some ⟨2⟩] := by
  have hzero : Reachable zeroReal := Reachable.empty.addRule _ _
  have hsums : Reachable drawnSums := (Reachable.empty.addImmediateRule _ _).addRule _ _
  have hmerge : (zeroReal.merge drawnSums).result = .ok [some ⟨1⟩, some ⟨2⟩] := by cbv
  have hnames : ∀ r body, drawnSums.body r = .ok body → ∀ name ∈ body.symbols,
      (zeroReal.merge drawnSums).state.classify name = drawnSums.classify name := by
    intro r body hbody name hname
    rw [symbol_drawnSums hbody hname]
    cbv
  exact ⟨hzero, hsums, hmerge, hnames, hzero.merge_keepsKinds hsums hmerge hnames⟩

/-- Reals that are drawn when the expression is evaluated. -/
def lateReal : Grammar := (empty.addRule "Real" (.call "rand" [])).state

/-- The drawn real becomes the rule that is there, and ceases to be immediate. -/
theorem lateReal_merge_changes_kind :
    Reachable lateReal ∧ Reachable drawnSums ∧
    (lateReal.merge drawnSums).result = .ok [some ⟨0⟩, some ⟨1⟩] ∧
    (∀ r body, drawnSums.body r = .ok body → ∀ name ∈ body.symbols,
      (lateReal.merge drawnSums).state.classify name = drawnSums.classify name) ∧
    drawnSums.isImmediate ⟨0⟩ = .ok true ∧
    (lateReal.merge drawnSums).state.isImmediate ⟨0⟩ = .ok false := by
  have hnames : ∀ r body, drawnSums.body r = .ok body → ∀ name ∈ body.symbols,
      (lateReal.merge drawnSums).state.classify name = drawnSums.classify name := by
    intro r body hbody name hname
    rw [symbol_drawnSums hbody hname]
    cbv
  exact ⟨Reachable.empty.addRule _ _, (Reachable.empty.addImmediateRule _ _).addRule _ _, by cbv,
    hnames, by cbv, by cbv⟩

end TypedGrammar.Grammar
