/-!
# Rounding

Quotients to the nearest whole number, and the exact value of a double as a quotient.
-/

namespace Dialogue.Number

def wordCount : Nat := 18446744073709551616

/-- The whole number nearest to `num / den`; of two equally near ones the even. -/
def roundHalfEven (num den : Nat) : Nat :=
  let q := num / den
  let r := num % den
  if 2 * r < den then q
  else if den < 2 * r then q + 1
  else if q % 2 = 0 then q else q + 1

def ceilDiv (num den : Nat) : Nat :=
  (num + (den - 1)) / den

/-- The leading bit of a double's significand, which is not stored: the fifty-third. -/
def hiddenBit : Nat := 4503599627370496

def doubleRatio? (x : Float) : Option (Nat × Nat) :=
  let bits := x.toBits.toNat
  let exponent := bits / hiddenBit % 2048
  let fraction := bits % hiddenBit
  if exponent = 2047 then none
  else if exponent = 0 then some (fraction, Nat.pow 2 1074)
  else if exponent < 1075 then some (hiddenBit + fraction, Nat.pow 2 (1075 - exponent))
  else some ((hiddenBit + fraction) * Nat.pow 2 (exponent - 1075), 1)

end Dialogue.Number
