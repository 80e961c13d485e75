/-!
# Decimal numerals

Two readings of a text as a number, both over ASCII digits only and both of the whole text. A
natural number is an optional plus and digits. A real number is an optional sign and either a word
(`inf`, `infinity`, `nan`, in any case) or digits with an optional point and exponent; its value is
the double nearest to the written one.
-/

namespace Dialogue.Number

def isDigit (c : Char) : Bool :=
  '0' ≤ c && c ≤ '9'

def digitsValue (cs : List Char) : Nat :=
  cs.foldl (fun n c => 10 * n + (c.toNat - '0'.toNat)) 0

def readDigits? (cs : List Char) : Option Nat :=
  if !cs.isEmpty && cs.all isDigit then some (digitsValue cs) else none

def dropPlus : List Char → List Char
  | '+' :: cs => cs
  | cs => cs

def readNat? (s : String) : Option Nat :=
  readDigits? (dropPlus s.toList)

/-! ## Real numbers -/

inductive Magnitude
  | finite (coefficient : Nat) (exponent : Int)
  | infinite
  | undefined
  deriving Repr, DecidableEq

structure Numeral where
  negative : Bool
  magnitude : Magnitude
  deriving Repr, DecidableEq

def splitSign : List Char → Bool × List Char
  | '-' :: cs => (true, cs)
  | '+' :: cs => (false, cs)
  | cs => (false, cs)

def readExponent? : List Char → Option Int
  | [] => some 0
  | c :: cs =>
    if c = 'e' || c = 'E' then
      let (negative, digits) := splitSign cs
      (readDigits? digits).map fun n => if negative then -(n : Int) else n
    else none

def splitFraction : List Char → List Char × List Char
  | '.' :: cs => (cs.takeWhile isDigit, cs.dropWhile isDigit)
  | cs => ([], cs)

def readFinite? (cs : List Char) : Option Magnitude :=
  let whole := cs.takeWhile isDigit
  let (fraction, rest) := splitFraction (cs.dropWhile isDigit)
  if whole.isEmpty && fraction.isEmpty then none
  else (readExponent? rest).map fun e =>
    .finite (digitsValue (whole ++ fraction)) (e - fraction.length)

def readMagnitude? (cs : List Char) : Option Magnitude :=
  match String.ofList (cs.map Char.toLower) with
  | "inf" | "infinity" => some .infinite
  | "nan" => some .undefined
  | _ => readFinite? cs

def readNumeral? (s : String) : Option Numeral :=
  let (negative, cs) := splitSign s.toList
  (readMagnitude? cs).map (⟨negative, ·⟩)

/-- The double nearest to `coefficient * 10 ^ exponent`. Every positive double lies between
`10 ^ (-324)` and `10 ^ 309`, and a coefficient of `bits + 1` bits between `10 ^ (3 * (bits / 10))`
and `10 ^ (bits / 3 + 1)`, so a product far outside is settled without computing it. -/
def nearestDouble (coefficient : Nat) (exponent : Int) : Float :=
  let bits := coefficient.log2
  if coefficient = 0 || (bits / 3 : Nat) + exponent < -400 then 0.0
  else if 400 < (3 * (bits / 10) : Nat) + exponent then 1.0 / 0.0
  else Float.ofScientific coefficient (exponent < 0) exponent.natAbs

def Magnitude.toFloat : Magnitude → Float
  | .finite coefficient exponent => nearestDouble coefficient exponent
  | .infinite => 1.0 / 0.0
  | .undefined => 0.0 / 0.0

def Numeral.toFloat (n : Numeral) : Float :=
  if n.negative then -n.magnitude.toFloat else n.magnitude.toFloat

def readFloat? (s : String) : Option Float :=
  (readNumeral? s).map Numeral.toFloat

end Dialogue.Number
