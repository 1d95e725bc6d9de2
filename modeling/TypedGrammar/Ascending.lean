/-!
# Ascending lists

A finite set over an ordered type is written as the ascending list of its members, each member once.
`Ascending.ofList` brings any list into this form by inserting its elements one at a time.
-/

namespace TypedGrammar.Ascending

variable {α : Type} [LT α] [DecidableLT α]

/-- Insert an element at its place in an ascending list that lacks it; a list that has it is unchanged. -/
def insert (a : α) : List α → List α
  | [] => [a]
  | b :: rest => if a < b then a :: b :: rest else if b < a then b :: insert a rest else b :: rest

/-- The ascending list of the elements of a list. -/
def ofList (elements : List α) : List α := elements.foldr insert []

/-- Inserting adds the one element, provided elements that are not ordered either way are equal. -/
theorem mem_insert (total : ∀ a b : α, ¬ a < b → ¬ b < a → a = b) (a x : α) (list : List α) :
    x ∈ insert a list ↔ x = a ∨ x ∈ list := by
  induction list with
  | nil => simp [insert]
  | cons b rest ih =>
    unfold insert
    split
    · simp
    · split
      · simp only [List.mem_cons, ih]
        exact or_left_comm
      · rename_i hab hba
        simp [total a b hab hba]

/-- Bringing a list into ascending form keeps its elements. -/
theorem mem_ofList (total : ∀ a b : α, ¬ a < b → ¬ b < a → a = b) (x : α) (list : List α) :
    x ∈ ofList list ↔ x ∈ list := by
  induction list with
  | nil => simp [ofList]
  | cons a rest ih =>
    have step : ofList (a :: rest) = insert a (ofList rest) := rfl
    simp [step, mem_insert total, ih]

/-- Inserting keeps an ascending list ascending. -/
theorem pairwise_insert (trans : ∀ a b c : α, a < b → b < c → a < c)
    (total : ∀ a b : α, ¬ a < b → ¬ b < a → a = b) (a : α) {list : List α}
    (ascending : list.Pairwise (· < ·)) : (insert a list).Pairwise (· < ·) := by
  induction list with
  | nil => simp [insert]
  | cons b rest ih =>
    obtain ⟨below, ascendingRest⟩ := List.pairwise_cons.1 ascending
    unfold insert
    split
    · rename_i hab
      refine List.pairwise_cons.2 ⟨fun x hx => ?_, ascending⟩
      rcases List.mem_cons.1 hx with rfl | hx
      · exact hab
      · exact trans _ _ _ hab (below x hx)
    · split
      · rename_i hba
        refine List.pairwise_cons.2 ⟨fun x hx => ?_, ih ascendingRest⟩
        rcases (mem_insert total a x rest).1 hx with rfl | hx
        · exact hba
        · exact below x hx
      · exact ascending

/-- The ascending form of a list is ascending. -/
theorem pairwise_ofList (trans : ∀ a b c : α, a < b → b < c → a < c)
    (total : ∀ a b : α, ¬ a < b → ¬ b < a → a = b) (list : List α) :
    (ofList list).Pairwise (· < ·) := by
  induction list with
  | nil => simp [ofList]
  | cons a rest ih => exact pairwise_insert trans total a ih

end TypedGrammar.Ascending
