/-!
# Blank text

* `isBlankChar` : the 25 white-space characters;
* `isBlank` : a text that holds nothing else.
-/

namespace Prereq.Text

/-- White space: the tab and the line breaks, the space, and the spaces and separators beyond
ASCII. -/
def isBlankChar (c : Char) : Bool :=
  let n := c.toNat
  (9 ≤ n && n ≤ 13) || n == 0x20 || n == 0x85 || n == 0xA0 || n == 0x1680
    || (0x2000 ≤ n && n ≤ 0x200A) || n == 0x2028 || n == 0x2029 || n == 0x202F || n == 0x205F
    || n == 0x3000

/-- A text without any character but white space. -/
def isBlank (s : List Char) : Bool := s.all isBlankChar

end Prereq.Text
