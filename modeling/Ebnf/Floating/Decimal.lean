import Ebnf.Decimal
import Ebnf.Floating.Basic

/-! Floating point numbers in decimal notation. A number is written with as few digits as it takes
to read it back, and with those of that length that come nearest to it. -/
namespace Ebnf.Floating

/-- The power of ten from which on all numbers are infinite. -/
def infinitePower : Int := 310

/-- The power of ten below which all numbers are zero. -/
def zeroPower : Int := -330

def ofDecimal (d : Decimal) : Floating :=
  if d.digits = 0 then .finite d.negative 0 leastExponent
  else if infinitePower < d.point then .infinite d.negative
  else if d.point < zeroPower then .finite d.negative 0 leastExponent
  else
    ofQuotient d.negative (d.digits * Nat.pow 10 d.exponent.toNat)
      (Nat.pow 10 (-d.exponent).toNat)

/-- The numbers that a floating point number above zero stands for when it is read: those between
`lower / den` and `upper / den`, with the two ends or without them. -/
structure Span where
  lower : Nat
  exact : Nat
  upper : Nat
  den : Nat
  closed : Bool

namespace Span

/-- The span around `significand · 2 ^ exponent`. It ends halfway to the numbers next to it, of
which the lower one is only half as far where the significand is the least with all its digits. -/
def around (significand : Nat) (exponent : Int) : Span :=
  let quarter := exponent - 2
  let narrow := significand = leastFull ∧ leastExponent < exponent
  let scale := Nat.pow 2 quarter.toNat
  ⟨(4 * significand - if narrow then 1 else 2) * scale, 4 * significand * scale,
    (4 * significand + 2) * scale, Nat.pow 2 (-quarter).toNat, significand % 2 = 0⟩

/-- The same span counted in a power of ten. -/
def countedIn (s : Span) (power : Int) : Span :=
  let up := Nat.pow 10 (-power).toNat
  ⟨s.lower * up, s.exact * up, s.upper * up, s.den * Nat.pow 10 power.toNat, s.closed⟩

def contains (s : Span) (n : Nat) : Bool :=
  if s.closed then s.lower ≤ n * s.den && n * s.den ≤ s.upper
  else s.lower < n * s.den && n * s.den < s.upper

/-- The whole number in a span that is nearest to the number the span is around. Of two that are
equally near it is the even one. -/
def nearest? (s : Span) : Option Nat :=
  let below := s.exact / s.den
  let rounded := roundedQuotient s.exact s.den
  if s.contains rounded then some rounded
  else if s.contains below then some below
  else if s.contains (below + 1) then some (below + 1)
  else none

/-- Looks for the greatest power of ten of which a multiple lies in a span, from one power on
downwards. -/
def search (s : Span) : Nat → Int → Nat × Int
  | 0, power => ((s.countedIn power).exact / (s.countedIn power).den, power)
  | left + 1, power =>
    match (s.countedIn power).nearest? with
    | some digits => (digits, power)
    | none => search s left (power - 1)

end Span

/-- How many powers of ten are tried: seventeen digits always suffice, and the first power may be
too great by a few. -/
def powersTried : Nat := 20

/-- The least power of ten that is greater than `2 ^ n`, for the exponents that occur: for these
`30103 / 100000` is near enough to the logarithm of two. -/
def powerAbove (n : Int) : Int := n * 30103 / 100000 + 1

/-- The decimal number with the fewest digits that reads back as `significand · 2 ^ exponent`. -/
def shortest (negative : Bool) (significand : Nat) (exponent : Int) : Decimal :=
  if significand = 0 then ⟨negative, 0, 0⟩
  else
    let found := (Span.around significand exponent).search powersTried
      (powerAbove (significand.log2 + 1 + exponent))
    ⟨negative, found.1, found.2⟩

def text : Floating → String
  | .finite negative significand exponent => (shortest negative significand exponent).text
  | .infinite true => "-inf"
  | .infinite false => "inf"
  | .undefined => "nan"

end Ebnf.Floating
