import Dialogue.Number.Rounding

/-!
# Durations

A span of time in whole nanoseconds, shown in the largest unit that it fills. A span has fewer than
`2 ^ 64` seconds; scaling by a factor keeps to that bound.
-/

namespace Dialogue

structure Duration where
  nanos : Nat
  deriving Repr, DecidableEq, Inhabited

namespace Duration

def nanosPerSecond : Nat := 1000000000

def zero : Duration := ⟨0⟩

def longest : Duration := ⟨Number.wordCount * nanosPerSecond - 1⟩

def ofMillis (n : Nat) : Duration := ⟨n * 1000000⟩

def ofParts (secs nanos : Nat) : Duration := ⟨secs * nanosPerSecond + nanos⟩

def secs (d : Duration) : Nat := d.nanos / nanosPerSecond

def subsecNanos (d : Duration) : Nat := d.nanos % nanosPerSecond

def ceilMillis (d : Duration) : Nat := Number.ceilDiv d.nanos 1000000

/-! ## Scaling -/

/-- The span in seconds as a double: the seconds and the rest are rounded apart, then added. -/
def toSeconds (d : Duration) : Float :=
  d.secs.toUInt64.toFloat + d.subsecNanos.toUInt64.toFloat / 1e9

/-- A number of seconds to the nearest nanosecond, ties to even; none when it is negative, not
finite or too long. -/
def ofSeconds? (x : Float) : Option Duration :=
  if x < 0.0 then none
  else match Number.doubleRatio? x with
    | none => none
    | some (num, den) =>
      let n := Number.roundHalfEven (num * nanosPerSecond) den
      if n ≤ longest.nanos then some ⟨n⟩ else none

/-- The span times a factor. A factor that is not finite and positive gives no time at all, and a
product that is no span gives the longest one. -/
def scale (d : Duration) (factor : Float) : Duration :=
  if factor.isFinite && 0.0 < factor then (ofSeconds? (d.toSeconds * factor)).getD longest else zero

/-! ## The text of a span -/

def fractionText (n places : Nat) : String :=
  let digits := Nat.toDigits 10 n
  let padded := List.replicate (places - digits.length) '0' ++ digits
  let kept := (padded.reverse.dropWhile (· = '0')).reverse
  if kept.isEmpty then "" else "." ++ String.ofList kept

def inUnit (n size places : Nat) (unit : String) : String :=
  toString (n / size) ++ fractionText (n % size) places ++ unit

def render (d : Duration) : String :=
  if 1000000000 ≤ d.nanos then inUnit d.nanos 1000000000 9 "s"
  else if 1000000 ≤ d.nanos then inUnit d.nanos 1000000 6 "ms"
  else if 1000 ≤ d.nanos then inUnit d.nanos 1000 3 "µs"
  else inUnit d.nanos 1 0 "ns"

end Duration

end Dialogue
