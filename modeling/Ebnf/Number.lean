import Ebnf.Floating.Basic

/-! Numbers, whole and floating, in one order. They are compared as they are, without rounding. -/
namespace Ebnf

/-- A number. -/
inductive Number where
  | whole (n : Int)
  | floating (x : Floating)
  deriving DecidableEq

namespace Number

/-- A finite number as a multiple of a power of two: the factor, and the exponent. -/
def parts : Number → Int × Int
  | .whole n => (n, 0)
  | .floating (.finite negative significand exponent) =>
    (if negative then -(significand : Int) else significand, exponent)
  | .floating _ => (0, 0)

/-- Whether a number is less than another. The undefined one is neither less nor greater than
any. -/
def isLess : Number → Number → Bool
  | .floating .undefined, _ | _, .floating .undefined => false
  | .floating (.infinite negative), .floating (.infinite negative') => negative && !negative'
  | .floating (.infinite negative), _ => negative
  | _, .floating (.infinite negative) => !negative
  | x, y =>
    let least := min x.parts.2 y.parts.2
    x.parts.1 * Int.pow 2 (x.parts.2 - least).toNat <
      y.parts.1 * Int.pow 2 (y.parts.2 - least).toNat

/-- A number a whole number of times, at least once. -/
def times : Number → Nat → Number
  | .whole n, count => .whole (n * count)
  | .floating x, count => .floating (x.times count)

end Number

end Ebnf
