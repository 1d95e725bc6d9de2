import Mathlib.Data.List.Basic
import TypedGrammar.Derivation.Dot

/-!
# Reading a drawing

The statements of a drawing can be read again. A label ends at the first quote that has no backslash
before it, and a backslash stands for the character behind it. A statement that starts with the name of
a node and goes on with its attributes is about the node, and one that goes on with a dash is about the
edge to a second node. Nothing is asked about the styles, which may be any texts: no statement of an
edge contains one, and in the statement of a node they come behind the bracket that tells it apart.
-/

namespace TypedGrammar.Dot

/-! ### Labels -/

/-- How a character is written in a label. -/
def escaped (c : Char) : List Char :=
  if c = '\\' then ['\\', '\\'] else if c = '\"' then ['\\', '\"'] else [c]

/-- Both replacements together write each character on its own. The second one leaves the backslashes of
the first alone. -/
theorem toList_escape (label : String) : (escape label).toList = label.toList.flatMap escaped := by
  rw [escape, String.toList_ofList, replaceChar, replaceChar, List.flatMap_assoc]
  refine List.flatMap_congr fun c _ => ?_
  by_cases hslash : c = '\\'
  · subst hslash
    rfl
  · rw [escaped, if_neg hslash, if_neg hslash, List.flatMap_singleton]

/-- Read a text up to the quote that ends it. The answer is the text that was meant and what follows. -/
def readQuoted : List Char → Option (List Char × List Char)
  | [] => none
  | '\"' :: rest => some ([], rest)
  | ['\\'] => none
  | '\\' :: meant :: text => (readQuoted text).map (Prod.map (meant :: ·) id)
  | c :: text => (readQuoted text).map (Prod.map (c :: ·) id)

/-- At the closing quote nothing is read. -/
theorem readQuoted_quote (rest : List Char) : readQuoted ('\"' :: rest) = some ([], rest) := by
  rw [readQuoted]

/-- A character that was escaped is read back. -/
theorem readQuoted_escaped (c : Char) (text : List Char) :
    readQuoted (escaped c ++ text) = (readQuoted text).map (Prod.map (c :: ·) id) := by
  by_cases hslash : c = '\\'
  · subst hslash
    exact readQuoted.eq_4 _ _
  by_cases hquote : c = '\"'
  · subst hquote
    exact readQuoted.eq_4 _ _
  · rw [escaped, if_neg hslash, if_neg hquote, List.singleton_append, readQuoted]
    all_goals simp [hslash, hquote]

/-- Reading undoes the escaping, and no quote of the label ends it. -/
theorem readQuoted_flatMap_escaped (label rest : List Char) :
    readQuoted (label.flatMap escaped ++ '\"' :: rest) = some (label, rest) := by
  induction label with
  | nil => exact readQuoted_quote rest
  | cons c label ih =>
    rw [List.flatMap_cons, List.append_assoc, readQuoted_escaped, ih]
    rfl

/-- Read attributes that are a label and nothing else, up to the end of the statement. -/
def readLabel? (text : List Char) : Option String := do
  let (label, rest) ← readQuoted (← text.dropPrefix? "label=\"".toList)
  if rest = "];".toList then some (String.ofList label) else none

/-- What a text begins with can be dropped from it. -/
theorem dropPrefix?_append (start text : List Char) : (start ++ text).dropPrefix? start = some text :=
  List.dropPrefix?_append_of_beq text (beq_self_eq_true start)

/-- The label that is read is the text that was written with escapes. -/
theorem readLabel?_labelled {text label : String} (h : text.toList = label.toList.flatMap escaped) :
    readLabel? ((labelled text).toList ++ "];".toList) = some label := by
  have htext : (labelled text).toList ++ "];".toList =
      "label=\"".toList ++ (label.toList.flatMap escaped ++ '\"' :: "];".toList) := by
    simp only [labelled, String.toList_append, h, List.append_assoc]
    rfl
  simp only [readLabel?, htext, dropPrefix?_append, readQuoted_flatMap_escaped, Option.bind_eq_bind,
    Option.bind_some, if_true, String.ofList_toList]

/-! ### Statements -/

/-- Read the name of a node at the start of a text. -/
def readName? : List Char → Option (Nat × List Char)
  | 'n' :: text =>
    some (Nat.ofDigitChars 10 (text.takeWhile Char.isDigit) 0, text.dropWhile Char.isDigit)
  | _ => none

/-- Read the statement of a node: its number, and its label, if it has no other attributes. -/
def readNode? (line : String) : Option (Nat × Option String) := do
  let (number, text) ← readName? line.toList
  let attributes ← text.dropPrefix? " [".toList
  return (number, readLabel? attributes)

/-- An edge from a parent to a child, with its label if it has one. -/
structure Edge where
  parent : Nat
  child : Nat
  label : Option String
deriving DecidableEq

/-- Read the statement of an edge. -/
def readEdge? (line : String) : Option Edge := do
  let (parent, text) ← readName? line.toList
  let (child, text) ← readName? (← text.dropPrefix? " -- ".toList)
  if text = ";".toList then return ⟨parent, child, none⟩
  let label ← readLabel? (← text.dropPrefix? " [".toList)
  return ⟨parent, child, some label⟩

/-- The statement of a node with its attributes. -/
def nodeLine (number : Nat) (attributes : String) : String :=
  nodeName number ++ " [" ++ attributes ++ "];"

variable {style : DotStyle} {number parent index id : Nat} {attributes : String}

/-- A number is written in digits. -/
theorem isDigit_of_mem_toString {c : Char} (h : c ∈ (toString number).toList) :
    c.isDigit = true := by
  rw [Nat.toString_eq_repr, Nat.toList_repr] at h
  exact Nat.isDigit_of_mem_toDigits (by decide) (by decide) h

/-- A number has nothing to escape. -/
theorem flatMap_escaped_toString :
    (toString number).toList = (toString number).toList.flatMap escaped := by
  have hplain : ∀ c ∈ (toString number).toList, escaped c = [c] := by
    intro c hc
    have hdigit := isDigit_of_mem_toString hc
    rw [escaped, if_neg, if_neg] <;> rintro rfl <;> exact absurd hdigit (by decide)
  rw [List.flatMap_congr hplain, List.flatMap_singleton']

/-- The name of a node is read if no digit follows it. -/
theorem readName?_nodeName {rest : List Char} (h : rest.head?.any Char.isDigit = false) :
    readName? ((nodeName number).toList ++ rest) = some (number, rest) := by
  have hdigits : ∀ c ∈ (toString number).toList, c.isDigit = true := fun _ => isDigit_of_mem_toString
  have htake : rest.takeWhile Char.isDigit = [] ∧ rest.dropWhile Char.isDigit = rest := by
    cases rest with
    | nil => exact ⟨rfl, rfl⟩
    | cons c rest => exact ⟨List.takeWhile_cons_of_neg (by simpa using h),
        List.dropWhile_cons_of_neg (by simpa using h)⟩
  have htext : (nodeName number).toList ++ rest = 'n' :: ((toString number).toList ++ rest) := by
    rw [nodeName, String.toList_append, List.append_assoc]
    rfl
  rw [htext, readName?, List.takeWhile_append_of_pos hdigits, List.dropWhile_append_of_pos hdigits,
    htake.1, htake.2, List.append_nil, Nat.toString_eq_repr, Nat.toList_repr,
    Nat.ofDigitChars_toDigits (by decide) (by decide)]

/-- The line of a node has its name and its attributes in brackets. -/
theorem toList_nodeLine : (nodeLine number attributes).toList =
    (nodeName number).toList ++ (" [".toList ++ (attributes.toList ++ "];".toList)) := by
  simp only [nodeLine, String.toList_append, List.append_assoc]

/-- From the line of a node its number and its label are read. -/
theorem readNode?_nodeLine : readNode? (nodeLine number attributes) =
    some (number, readLabel? (attributes.toList ++ "];".toList)) := by
  rw [readNode?, toList_nodeLine, readName?_nodeName rfl]
  simp only [dropPrefix?_append, Option.bind_eq_bind, Option.bind_some, Option.pure_def]

/-- From the line of a node no edge is read. -/
theorem readEdge?_nodeLine : readEdge? (nodeLine number attributes) = none := by
  rw [readEdge?, toList_nodeLine, readName?_nodeName rfl]
  rfl

/-- The end of the statement of an edge. -/
theorem toList_edgeLine : (edgeLine style parent index id).toList =
    (nodeName parent).toList ++ (" -- ".toList ++ ((nodeName id).toList ++
      if style.edgeLabels then " [".toList ++ ((labelled (toString index)).toList ++ "];".toList)
      else ";".toList)) := by
  cases hlabels : style.edgeLabels <;>
    simp only [edgeLine, hlabels, if_true, String.toList_append, List.append_assoc] <;> rfl

/-- From the line of an edge no node is read. -/
theorem readNode?_edgeLine : readNode? (edgeLine style parent index id) = none := by
  rw [readNode?, toList_edgeLine, readName?_nodeName rfl]
  rfl

/-- From the line of an edge its ends are read, and its number if edges are labelled. -/
theorem readEdge?_edgeLine : readEdge? (edgeLine style parent index id) =
    some ⟨parent, id, if style.edgeLabels then some (toString index) else none⟩ := by
  rw [readEdge?, toList_edgeLine, readName?_nodeName rfl]
  simp only [dropPrefix?_append, Option.bind_eq_bind, Option.bind_some, Option.pure_def]
  cases hlabels : style.edgeLabels with
  | false =>
    simp only [Bool.false_eq_true, if_false]
    rw [readName?_nodeName rfl]
    rfl
  | true =>
    simp only [if_true]
    rw [readName?_nodeName rfl]
    simp only [dropPrefix?_append, Option.bind_some, readLabel?_labelled flatMap_escaped_toString]
    rfl

end TypedGrammar.Dot
