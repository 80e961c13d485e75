/-!
# Lines

Bytes as lines of text. A line ends at a line feed, which is dropped together with one carriage
return before it; the last line may lack its line feed. A line that is not UTF-8 is no text.
-/

namespace Dialogue.Text

def lineFeed : UInt8 := 10

def carriageReturn : UInt8 := 13

/-- A line that ended at a line feed, its bytes given from the last to the first. -/
def endedLine : List UInt8 → List UInt8
  | b :: line => if b = carriageReturn then line.reverse else (b :: line).reverse
  | [] => []

def linesFrom (line : List UInt8) : List UInt8 → List (List UInt8)
  | [] => if line.isEmpty then [] else [line.reverse]
  | b :: bytes =>
    if b = lineFeed then endedLine line :: linesFrom [] bytes else linesFrom (b :: line) bytes

def splitLines (bytes : List UInt8) : List (List UInt8) :=
  linesFrom [] bytes

def decode? (line : List UInt8) : Option String :=
  String.fromUTF8? ⟨line.toArray⟩

end Dialogue.Text
