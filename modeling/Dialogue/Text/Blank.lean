/-!
# Blank characters

The characters with the Unicode property White_Space, and the trimming of a text at both ends.
A zero-width space and a byte order mark are not blank.
-/

namespace Dialogue.Text

/-- The code points of White_Space as inclusive ranges, in increasing order. -/
def blankRanges : List (Nat × Nat) :=
  [(0x9, 0xD), (0x20, 0x20), (0x85, 0x85), (0xA0, 0xA0), (0x1680, 0x1680), (0x2000, 0x200A),
   (0x2028, 0x2029), (0x202F, 0x202F), (0x205F, 0x205F), (0x3000, 0x3000)]

def isBlank (c : Char) : Bool :=
  blankRanges.any fun r => r.1 ≤ c.toNat && c.toNat ≤ r.2

def trimBlanks (cs : List Char) : List Char :=
  ((cs.dropWhile isBlank).reverse.dropWhile isBlank).reverse

def trim (s : String) : String :=
  String.ofList (trimBlanks s.toList)

def isAllBlank (s : String) : Bool :=
  s.toList.all isBlank

end Dialogue.Text
