/-! Floating point numbers: multiples of powers of two with a significand of 53 binary digits.
What does not fit is rounded to the nearest number that does, and a tie to the one with the even
significand. -/
namespace Ebnf

/-- The number `± significand · 2 ^ exponent`, an infinity, or the result of a calculation that
has none. -/
inductive Floating where
  | finite (negative : Bool) (significand : Nat) (exponent : Int)
  | infinite (negative : Bool)
  | undefined
  deriving DecidableEq

namespace Floating

/-- The least significand with all its digits. A lesser one goes with the least exponent only. -/
def leastFull : Nat := Nat.pow 2 52

/-- The least exponent. -/
def leastExponent : Int := -1074

/-- The greatest exponent. Numbers beyond it are infinite. -/
def greatestExponent : Int := 971

/-- A quotient, rounded to the nearest whole number and a tie to the even one. -/
def roundedQuotient (num den : Nat) : Nat :=
  let quotient := num / den
  let twice := 2 * (num % den)
  if den < twice ∨ (twice = den ∧ quotient % 2 = 1) then quotient + 1 else quotient

/-- The two parts of a quotient that is counted in a power of two. -/
def countedIn (exponent : Int) (num den : Nat) : Nat × Nat :=
  (num * Nat.pow 2 (-exponent).toNat, den * Nat.pow 2 exponent.toNat)

/-- The exponent for a quotient above zero: that for which the significand has all its digits, or
the least one. -/
def exponentFor (num den : Nat) : Int :=
  let upper : Int := num.log2 - den.log2 - 52
  let counted := countedIn upper num den
  max leastExponent (if counted.1 / counted.2 < leastFull then upper - 1 else upper)

def ofQuotient (negative : Bool) (num den : Nat) : Floating :=
  if num = 0 then .finite negative 0 leastExponent
  else
    let exponent := exponentFor num den
    let counted := countedIn exponent num den
    let significand := roundedQuotient counted.1 counted.2
    let carries := significand = 2 * leastFull
    if greatestExponent < (if carries then exponent + 1 else exponent) then .infinite negative
    else if carries then .finite negative leastFull (exponent + 1)
    else .finite negative significand exponent

/-- A number a whole number of times, at least once. -/
def times (x : Floating) (count : Nat) : Floating :=
  match x with
  | .finite negative significand exponent =>
    ofQuotient negative (significand * count * Nat.pow 2 exponent.toNat)
      (Nat.pow 2 (-exponent).toNat)
  | other => other

end Floating

end Ebnf
