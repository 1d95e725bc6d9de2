/-!
# Blank texts

A text is blank when each of its characters is white space: the control characters from tab to
carriage return, the space, the next-line control, the no-break space, the spaces of fixed width,
the line and paragraph separators and the ideographic space.
-/

namespace TypedGrammar.Text

/-- Is the character white space? -/
def isSpace (c : Char) : Bool :=
  let n := c.toNat
  (0x9 ≤ n && n ≤ 0xd) || n = 0x20 || n = 0x85 || n = 0xa0 || n = 0x1680 ||
    (0x2000 ≤ n && n ≤ 0x200a) || n = 0x2028 || n = 0x2029 || n = 0x202f || n = 0x205f || n = 0x3000

/-- Has the text no character but white space? The empty text is blank. -/
def isBlank (s : String) : Bool := s.toList.all isSpace

end TypedGrammar.Text
