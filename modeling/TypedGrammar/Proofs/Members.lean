import TypedGrammar.Proofs.MemberWalk

/-!
# Listing the members of a bit set

The members are read off word by word. The list has exactly the numbers that the set contains, in
ascending order, and the same is true of the rules that they number.
-/

namespace TypedGrammar

/-- A rule is in a list exactly when its number is among theirs. -/
theorem RuleId.number_mem_map {rules : List RuleId} {r : RuleId} :
    r.number ∈ rules.map RuleId.number ↔ r ∈ rules := by
  rw [List.mem_map]
  constructor
  · intro hexists
    obtain ⟨r', hr', hnumber⟩ := hexists
    have hsame := RuleId.ofNumber?_number r'
    rw [hnumber, RuleId.ofNumber?_number] at hsame
    exact Option.some.inj hsame ▸ hr'
  · exact fun hr => ⟨r, hr, rfl⟩

/-- Different rules have different numbers. -/
theorem RuleId.number_inj {r r' : RuleId} : r.number = r'.number ↔ r = r' := by
  constructor
  · intro hnumber
    have hrule := congrArg RuleId.ofNumber? hnumber
    simpa [RuleId.ofNumber?_number] using hrule
  · exact congrArg RuleId.number

/-- No two rules stand before each other, so an ascending list of rules is known from its members. -/
instance RuleId.instAsymmLt : Std.Asymm ((· < ·) : RuleId → RuleId → Prop) :=
  ⟨fun _ _ hlt => Nat.lt_asymm hlt⟩

namespace BitSet

/-- A number is listed from some word on exactly when its bit is set in one of the words. -/
theorem mem_membersFrom {k i : Nat} {words : List (BitVec 64)} :
    i ∈ membersFrom k words ↔
      k ≤ i / 64 ∧ (words.getD (i / 64 - k) 0#64).getLsbD (i % 64) = true := by
  induction words generalizing k with
  | nil => simp [membersFrom]
  | cons w rest ih =>
    rw [membersFrom, List.mem_append, ih, List.mem_map]
    rcases Nat.lt_trichotomy (i / 64) k with hbelow | rfl | habove
    · constructor
      · intro heither
        rcases heither with ⟨b, hb, rfl⟩ | ⟨hk, -⟩
        · have hlt := (mem_wordBits.mp hb).1
          omega
        · omega
      · intro hexists
        obtain ⟨hk, -⟩ := hexists
        omega
    · rw [Nat.sub_self, List.getD_cons_zero]
      constructor
      · intro heither
        rcases heither with ⟨b, hb, hi⟩ | ⟨hk, -⟩
        · obtain ⟨hlt, hset⟩ := mem_wordBits.mp hb
          have hmod : i % 64 = b := by omega
          exact ⟨Nat.le_refl _, hmod ▸ hset⟩
        · omega
      · intro hexists
        obtain ⟨-, hset⟩ := hexists
        exact .inl ⟨i % 64, mem_wordBits.mpr ⟨Nat.mod_lt _ (by omega), hset⟩, by omega⟩
    · obtain ⟨d, hd⟩ := Nat.exists_eq_add_of_lt habove
      have hrest : i / 64 - k = d + 1 := by omega
      have hnext : i / 64 - (k + 1) = d := by omega
      rw [hrest, hnext, List.getD_cons_succ]
      constructor
      · intro heither
        rcases heither with ⟨b, hb, rfl⟩ | ⟨-, hset⟩
        · have hlt := (mem_wordBits.mp hb).1
          omega
        · exact ⟨Nat.le_of_lt habove, hset⟩
      · intro hexists
        obtain ⟨-, hset⟩ := hexists
        exact .inr ⟨habove, hset⟩

/-- The numbers that words stand for ascend. -/
theorem membersFrom_pairwise (k : Nat) (words : List (BitVec 64)) :
    (membersFrom k words).Pairwise (· < ·) := by
  induction words generalizing k with
  | nil => exact .nil
  | cons w rest ih =>
    rw [membersFrom]
    refine List.pairwise_append.mpr ⟨?_, ih (k + 1), fun i hi j hj => ?_⟩
    · refine List.pairwise_map.mpr ((wordBits_pairwise w).imp fun hlt => ?_)
      omega
    · obtain ⟨b, hb, rfl⟩ := List.mem_map.mp hi
      have hlt := (mem_wordBits.mp hb).1
      have hword := (mem_membersFrom.mp hj).1
      omega

/-- The listed members are those that the set contains. -/
theorem mem_members {s : BitSet} {i : Nat} : i ∈ s.members ↔ s.contains i = true := by
  rw [members_eq, mem_membersFrom, contains, word, wordAt, Nat.sub_zero, Array.getD_eq_getD_getElem?,
    List.getD_eq_getElem?_getD, Array.getElem?_toList]
  exact ⟨fun h => h.2, fun h => ⟨Nat.zero_le _, h⟩⟩

/-- The members are listed in ascending order. -/
theorem members_pairwise (s : BitSet) : s.members.Pairwise (· < ·) :=
  s.members_eq ▸ membersFrom_pairwise 0 _

/-- Counting goes over the positions and finds those with a one. -/
theorem countBits_eq (w : BitVec 64) (n : Nat) :
    countBits w n = ((List.range n).filter w.getLsbD).length := by
  induction n with
  | zero => rfl
  | succ n ih =>
    rw [countBits, ih, List.range_succ, List.filter_append, List.length_append]
    cases hbit : w.getLsbD n <;> simp [hbit]

/-- The size of a list of words is the number of its members. -/
theorem sizeOfWords_eq (k : Nat) (words : List (BitVec 64)) :
    sizeOfWords words = (membersFrom k words).length := by
  induction words generalizing k with
  | nil => rfl
  | cons w rest ih =>
    rw [sizeOfWords, membersFrom, List.length_append, List.length_map, wordSize_eq, countBits_eq,
      wordBits_eq, ih (k + 1)]

/-- The size is the number of listed members. -/
theorem size_eq_length_members (s : BitSet) : s.size = s.members.length := by
  rw [members_eq, ← sizeOfWords_eq]
  exact s.counted

/-- A set is empty when it has no member. -/
theorem isEmpty_iff {s : BitSet} : s.isEmpty = true ↔ ∀ i, s.contains i = false := by
  simp only [isEmpty, size_eq_length_members, decide_eq_true_eq, List.length_eq_zero_iff,
    List.eq_nil_iff_forall_not_mem, mem_members, Bool.not_eq_true]

/-- The listed rules are those that the set contains. -/
theorem mem_rules {s : BitSet} {r : RuleId} : r ∈ s.rules ↔ s.containsRule r = true := by
  rw [rules, List.mem_filterMap, containsRule]
  constructor
  · intro hexists
    obtain ⟨i, hi, hr⟩ := hexists
    rw [← RuleId.ofNumber?_eq_some.mp hr]
    exact mem_members.mp hi
  · intro h
    exact ⟨r.number, mem_members.mpr h, RuleId.ofNumber?_number r⟩

/-- The first rule is a member. -/
theorem containsRule_of_firstRule? {s : BitSet} {r : RuleId} (h : s.firstRule? = some r) :
    s.containsRule r = true := mem_rules.mp (List.mem_of_head? h)

/-- The rules are listed in ascending order. -/
theorem rules_pairwise (s : BitSet) : s.rules.Pairwise (· < ·) := by
  refine List.Pairwise.filterMap _ (fun i j hlt r hr r' hr' => ?_) s.members_pairwise
  rw [RuleId.ofNumber?_eq_some.mp hr, RuleId.ofNumber?_eq_some.mp hr'] at hlt
  exact Nat.lt_of_succ_lt_succ hlt

/-- Each rule is listed once. -/
theorem rules_nodup (s : BitSet) : s.rules.Nodup := by
  refine List.Pairwise.imp (fun {r r'} hlt heq => ?_) s.rules_pairwise
  subst heq
  exact Nat.lt_irrefl r.index hlt

/-- A set without a rule has the other rules. -/
theorem containsRule_eraseRule {s : BitSet} {r r' : RuleId} :
    (s.eraseRule r').containsRule r = true ↔ s.containsRule r = true ∧ r ≠ r' := by
  simp [containsRule, eraseRule, contains_erase, RuleId.number_inj]

/-- A set without several rules has the other rules. -/
theorem containsRule_foldl_eraseRule {s : BitSet} {r : RuleId} {rules : List RuleId} :
    (rules.foldl eraseRule s).containsRule r = true ↔ s.containsRule r = true ∧ r ∉ rules := by
  induction rules generalizing s with
  | nil => simp
  | cons first rest ih => simp [ih, containsRule_eraseRule, and_assoc]

/-- A set with some of the rules of another lists these in the same order. -/
theorem rules_eq_filter {s s' : BitSet} {p : RuleId → Bool}
    (h : ∀ r, s'.containsRule r = true ↔ s.containsRule r = true ∧ p r = true) :
    s'.rules = s.rules.filter p := by
  refine s'.rules_pairwise.eq_of_mem_iff (s.rules_pairwise.filter p) fun r => ?_
  rw [List.mem_filter, mem_rules, mem_rules, h]

end BitSet

end TypedGrammar
