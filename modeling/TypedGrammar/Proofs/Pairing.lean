import Mathlib.Data.List.Forall2

/-!
# Lists related element by element

Facts about `List.Forall₂` for relations between the types, the children and the expressions at the
places of a rule: a member has a partner, a list of elements that each have one is related to a list
of partners, and relations compose.
-/

namespace TypedGrammar.Pairing

variable {α β : Type} {R : α → β → Prop} {as : List α} {bs : List β}

/-- A member of the second list has a partner in the first. -/
theorem exists_left_of_mem (h : List.Forall₂ R as bs) {b : β} (hb : b ∈ bs) : ∃ a ∈ as, R a b := by
  induction h with
  | nil => exact absurd hb List.not_mem_nil
  | cons hab _ ih =>
    rcases List.mem_cons.mp hb with rfl | hb
    · exact ⟨_, List.mem_cons_self, hab⟩
    · obtain ⟨a, ha, hab⟩ := ih hb
      exact ⟨a, List.mem_cons_of_mem _ ha, hab⟩

/-- A member of the first list has a partner in the second. -/
theorem exists_right_of_mem (h : List.Forall₂ R as bs) {a : α} (ha : a ∈ as) : ∃ b ∈ bs, R a b :=
  exists_left_of_mem h.flip ha

/-- What stands at a place of the second list has its partner at the same place of the first. -/
theorem split_right {bs' : List β} {b : β} (h : List.Forall₂ R as (bs ++ b :: bs')) :
    ∃ as₁ a as₂, as = as₁ ++ a :: as₂ ∧ as₁.length = bs.length ∧ List.Forall₂ R as₁ bs ∧ R a b ∧
      List.Forall₂ R as₂ bs' := by
  induction bs generalizing as with
  | nil =>
    obtain ⟨a, as₂, hab, hrest, rfl⟩ := List.forall₂_cons_right_iff.mp h
    exact ⟨[], a, as₂, rfl, rfl, .nil, hab, hrest⟩
  | cons first rest ih =>
    obtain ⟨x, others, hx, hothers, rfl⟩ := List.forall₂_cons_right_iff.mp h
    obtain ⟨as₁, a, as₂, rfl, hlength, hleft, hab, hright⟩ := ih hothers
    exact ⟨x :: as₁, a, as₂, rfl, congrArg (· + 1) hlength, .cons hx hleft, hab, hright⟩

/-- Lists that are related before a place, at it and behind it are related. -/
theorem append_cons {as₂ : List α} {bs₂ : List β} {a : α} {b : β} (hleft : List.Forall₂ R as bs)
    (hab : R a b) (hright : List.Forall₂ R as₂ bs₂) :
    List.Forall₂ R (as ++ a :: as₂) (bs ++ b :: bs₂) :=
  List.rel_append hleft (.cons hab hright)

/-- Related elements may be related otherwise, given what holds of the members of the second list. -/
theorem imp_of_mem {S : α → β → Prop} (h : List.Forall₂ R as bs)
    (himp : ∀ a, ∀ b ∈ bs, R a b → S a b) : List.Forall₂ S as bs := by
  induction h with
  | nil => exact .nil
  | cons hab _ ih =>
    exact .cons (himp _ _ List.mem_cons_self hab)
      (ih fun a b hb => himp a b (List.mem_cons_of_mem _ hb))

/-- If every element has a partner, the list has a list of partners. -/
theorem exists_right (h : ∀ a ∈ as, ∃ b, R a b) : ∃ bs, List.Forall₂ R as bs := by
  induction as with
  | nil => exact ⟨[], .nil⟩
  | cons a rest ih =>
    obtain ⟨b, hb⟩ := h a List.mem_cons_self
    obtain ⟨bs, hbs⟩ := ih fun x hx => h x (List.mem_cons_of_mem _ hx)
    exact ⟨b :: bs, .cons hb hbs⟩

/-- Relations that compose for elements compose for lists. -/
theorem trans {γ : Type} {S : β → γ → Prop} {T : α → γ → Prop} {cs : List γ}
    (h : List.Forall₂ R as bs) (h' : List.Forall₂ S bs cs) (hcomp : ∀ a b c, R a b → S b c → T a c) :
    List.Forall₂ T as cs := by
  induction h generalizing cs with
  | nil =>
    obtain rfl := List.forall₂_nil_left_iff.mp h'
    exact .nil
  | cons hab _ ih =>
    obtain ⟨c, cs', hbc, htail, rfl⟩ := List.forall₂_cons_left_iff.mp h'
    exact .cons (hcomp _ _ _ hab hbc) (ih htail)

end TypedGrammar.Pairing
