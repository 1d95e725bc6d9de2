/-!
# Maps from names

A finite map whose keys are strings, kept as the list of its entries in ascending order of the keys.
The order is that of the code points, which is also the order of the UTF-8 bytes. Two maps with the
same entries are equal, so a map has one form only.
-/

namespace TypedGrammar

/-- A finite map from names to values, listed in ascending order of the names. -/
structure NameMap (β : Type) where
  /-- The names with their values. -/
  entries : List (String × β)
  /-- Each name stands before all greater ones, and stands once. -/
  ascending : (entries.map Prod.fst).Pairwise (· < ·)

namespace NameMap

variable {β γ : Type}

/-- The map without entries. -/
def empty : NameMap β := ⟨[], List.Pairwise.nil⟩

/-- The names that have a value, ascending. -/
def keys (m : NameMap β) : List String := m.entries.map Prod.fst

/-- The number of names that have a value. -/
def size (m : NameMap β) : Nat := m.entries.length

/-- The value of a name in a list of entries. -/
def lookup (name : String) : List (String × β) → Option β
  | [] => none
  | entry :: rest => if name = entry.1 then some entry.2 else lookup name rest

/-- The value of a name. -/
def get? (m : NameMap β) (name : String) : Option β := lookup name m.entries

/-- Does the name have a value? -/
def contains (m : NameMap β) (name : String) : Bool := (m.get? name).isSome

/-- Give a name its value in a list of entries, at its place in the order. -/
def insertEntry (name : String) (value : β) : List (String × β) → List (String × β)
  | [] => [(name, value)]
  | entry :: rest =>
    if name < entry.1 then (name, value) :: entry :: rest
    else if entry.1 < name then entry :: insertEntry name value rest
    else (name, value) :: rest

/-- A name that got a value is the one new key. -/
theorem mem_map_insertEntry (name : String) (value : β) (x : String) (entries : List (String × β)) :
    x ∈ (insertEntry name value entries).map Prod.fst ↔ x = name ∨ x ∈ entries.map Prod.fst := by
  induction entries with
  | nil => simp [insertEntry]
  | cons entry rest ih =>
    unfold insertEntry
    split
    · simp
    · split
      · rw [List.map_cons, List.mem_cons, ih, List.map_cons, List.mem_cons]
        exact or_left_comm
      · rename_i h1 h2
        have h : entry.1 = name := String.le_antisymm (String.not_lt.1 h1) (String.not_lt.1 h2)
        simp [h]

/-- Inserting an entry keeps the names of a list ascending. -/
theorem pairwise_insertEntry (name : String) (value : β) {entries : List (String × β)}
    (ascending : (entries.map Prod.fst).Pairwise (· < ·)) :
    ((insertEntry name value entries).map Prod.fst).Pairwise (· < ·) := by
  induction entries with
  | nil => simp [insertEntry]
  | cons entry rest ih =>
    rw [List.map_cons] at ascending
    obtain ⟨below, ascendingRest⟩ := List.pairwise_cons.1 ascending
    unfold insertEntry
    split
    · rename_i hlt
      rw [List.map_cons, List.map_cons]
      refine List.pairwise_cons.2 ⟨fun x hx => ?_, ascending⟩
      rcases List.mem_cons.1 hx with rfl | hx
      · exact hlt
      · exact String.lt_trans hlt (below x hx)
    · split
      · rename_i hlt
        rw [List.map_cons]
        refine List.pairwise_cons.2 ⟨fun x hx => ?_, ih ascendingRest⟩
        rcases (mem_map_insertEntry name value x rest).1 hx with rfl | hx
        · exact hlt
        · exact below x hx
      · rename_i h1 h2
        have h : entry.1 = name := String.le_antisymm (String.not_lt.1 h1) (String.not_lt.1 h2)
        rw [List.map_cons, ← h]
        exact List.pairwise_cons.2 ⟨below, ascendingRest⟩

/-- Give a name a value, in place of the one it had. -/
def insert (m : NameMap β) (name : String) (value : β) : NameMap β :=
  ⟨insertEntry name value m.entries, pairwise_insertEntry name value m.ascending⟩

/-- Take a name and its value out. -/
def erase (m : NameMap β) (name : String) : NameMap β :=
  ⟨m.entries.filter (fun entry => entry.1 ≠ name),
    m.ascending.sublist (List.filter_sublist.map Prod.fst)⟩

/-- Change every value. -/
def mapValues (f : β → γ) (m : NameMap β) : NameMap γ :=
  ⟨m.entries.map (fun entry => (entry.1, f entry.2)), by
    have h : (m.entries.map (fun entry => (entry.1, f entry.2))).map Prod.fst = m.keys := by
      simp [keys]
    exact h ▸ m.ascending⟩

/-- The map of a list of pairs; a later pair overrides an earlier one of the same name. -/
def ofList (pairs : List (String × β)) : NameMap β :=
  pairs.foldl (fun m pair => m.insert pair.1 pair.2) empty

/-- Two maps with the same entries are equal. -/
theorem ext_entries {m n : NameMap β} (h : m.entries = n.entries) : m = n := by
  cases m
  cases n
  cases h
  rfl

/-- After inserting an entry its name is there, beside the former ones. -/
theorem mem_keys_insert {m : NameMap β} {name x : String} {value : β} :
    x ∈ (m.insert name value).keys ↔ x = name ∨ x ∈ m.keys :=
  mem_map_insertEntry name value x m.entries

/-- The empty map has no entry. -/
theorem get?_empty (name : String) : (empty : NameMap β).get? name = none := rfl

/-- An entry that was inserted is found under its name, and the others under theirs. -/
theorem lookup_insertEntry (name x : String) (value : β) (entries : List (String × β)) :
    lookup x (insertEntry name value entries) = if x = name then some value else lookup x entries := by
  induction entries with
  | nil => rfl
  | cons entry rest ih =>
    unfold insertEntry
    split
    · rfl
    · split
      · rename_i hlt
        rw [lookup, ih, lookup]
        by_cases h : x = entry.1
        · have : ¬ x = name := by
            rintro rfl
            exact String.lt_irrefl x (h ▸ hlt)
          rw [if_pos h, if_pos h, if_neg this]
        · rw [if_neg h, if_neg h]
      · rename_i h1 h2
        have same : entry.1 = name := String.le_antisymm (String.not_lt.1 h1) (String.not_lt.1 h2)
        rw [lookup, lookup, same]
        by_cases h : x = name
        · rw [if_pos h, if_pos h]
        · rw [if_neg h, if_neg h, if_neg h]

/-- After a name got a value, it has this value, and other names have the ones they had. -/
theorem get?_insert (m : NameMap β) (name x : String) (value : β) :
    (m.insert name value).get? x = if x = name then some value else m.get? x :=
  lookup_insertEntry name x value m.entries

/-- A name is found exactly when some entry has it. -/
theorem lookup_isSome_iff (name : String) (entries : List (String × β)) :
    (lookup name entries).isSome = true ↔ name ∈ entries.map Prod.fst := by
  induction entries with
  | nil => simp [lookup]
  | cons entry rest ih =>
    rw [lookup, List.map_cons, List.mem_cons]
    by_cases h : name = entry.1
    · simp [h]
    · rw [if_neg h, ih]
      simp [h]

/-- The keys are the names that have a value. -/
theorem mem_keys_iff {m : NameMap β} {name : String} : name ∈ m.keys ↔ m.contains name = true :=
  (lookup_isSome_iff name m.entries).symm

/-- In ascending entries a name has the value of the entry that it stands in. -/
theorem lookup_eq_some_iff {entries : List (String × β)}
    (ascending : (entries.map Prod.fst).Pairwise (· < ·)) {name : String} {value : β} :
    lookup name entries = some value ↔ (name, value) ∈ entries := by
  induction entries with
  | nil => simp [lookup]
  | cons entry rest ih =>
    obtain ⟨below, ascendingRest⟩ := List.pairwise_cons.1 ascending
    rw [lookup, List.mem_cons]
    by_cases h : name = entry.1
    · subst h
      have absent : (entry.1, value) ∉ rest := fun hmem =>
        String.lt_irrefl _ (below entry.1 (List.mem_map.2 ⟨_, hmem, rfl⟩))
      simp [absent, Prod.ext_iff, eq_comm]
    · have other : (name, value) ≠ entry := fun heq => h (heq ▸ rfl)
      simp [h, other, ih ascendingRest]

/-- A name has the value of the entry that it stands in. -/
theorem get?_eq_some_iff {m : NameMap β} {name : String} {value : β} :
    m.get? name = some value ↔ (name, value) ∈ m.entries := lookup_eq_some_iff m.ascending

/-- When the entries of a name are taken out, the name is not found and the others still are. -/
theorem lookup_filter (name x : String) (entries : List (String × β)) :
    lookup x (entries.filter fun entry => entry.1 ≠ name) =
      if x = name then none else lookup x entries := by
  induction entries with
  | nil => simp [lookup]
  | cons entry rest ih =>
    by_cases he : entry.1 = name
    · rw [List.filter_cons_of_neg (by simp [he]), ih, lookup, he]
      by_cases h : x = name
      · rw [if_pos h, if_pos h]
      · rw [if_neg h, if_neg h, if_neg h]
    · rw [List.filter_cons_of_pos (by simp [he]), lookup, ih, lookup]
      by_cases h : x = entry.1
      · have : ¬ x = name := h ▸ he
        rw [if_pos h, if_pos h, if_neg this]
      · rw [if_neg h, if_neg h]

/-- After a name was taken out, it has no value, and other names have the ones they had. -/
theorem get?_erase (m : NameMap β) (name x : String) :
    (m.erase name).get? x = if x = name then none else m.get? x :=
  lookup_filter name x m.entries

/-- Changing the values of all entries changes the value that is found. -/
theorem lookup_map (f : β → γ) (name : String) (entries : List (String × β)) :
    lookup name (entries.map fun entry => (entry.1, f entry.2)) = (lookup name entries).map f := by
  induction entries with
  | nil => rfl
  | cons entry rest ih =>
    rw [List.map_cons, lookup, lookup, ih]
    by_cases h : name = entry.1
    · rw [if_pos h, if_pos h, Option.map_some]
    · rw [if_neg h, if_neg h]

/-- Changing all values of a map changes the value under each name. -/
theorem get?_mapValues (f : β → γ) (m : NameMap β) (name : String) :
    (m.mapValues f).get? name = (m.get? name).map f :=
  lookup_map f name m.entries

end NameMap

end TypedGrammar
