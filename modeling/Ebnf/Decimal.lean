/-! Decimal numbers as they are written: a sign, digits, and a power of ten. -/
namespace Ebnf

/-- The number `± digits · 10 ^ exponent`. -/
structure Decimal where
  negative : Bool
  digits : Nat
  exponent : Int
  deriving DecidableEq

namespace Decimal

/-- How many digits before the point are written at most without a power of ten. -/
def longestWhole : Int := 16

/-- How many zeros behind the point are written at most without a power of ten. -/
def longestZeros : Int := 3

/-- The digits without zeros at their end. -/
def significant (d : Decimal) : List Char :=
  ((Nat.toDigits 10 d.digits).reverse.dropWhile (· = '0')).reverse

/-- Where the point stands, counted from the first significant digit. -/
def point (d : Decimal) : Int := (Nat.toDigits 10 d.digits).length + d.exponent

/-- Digits with the point in its place, and at least one digit on either side of it. -/
def positional (digits : List Char) (point : Int) : List Char :=
  if point ≤ 0 then '0' :: '.' :: (zeros (-point) ++ digits)
  else
    let whole := digits.take point.toNat
    let behind := digits.drop point.toNat
    whole ++ zeros (point - whole.length) ++ '.' :: (if behind = [] then ['0'] else behind)
where
  /-- The given number of zeros. -/
  zeros (count : Int) : List Char := List.replicate count.toNat '0'

/-- One digit, the point if others follow, and the power of ten with its sign and two digits. -/
def scientific (digits : List Char) (point : Int) : List Char :=
  digits.take 1 ++ (if digits.length ≤ 1 then [] else '.' :: digits.drop 1) ++
    'e' :: (if power < 0 then '-' else '+') ::
      (List.replicate (2 - (Nat.toDigits 10 power.natAbs).length) '0' ++
        Nat.toDigits 10 power.natAbs)
where
  /-- The power of ten that the first digit counts. -/
  power : Int := point - 1

/-- The text of a number, always with a point or a power of ten. -/
def text (d : Decimal) : String :=
  String.ofList ((if d.negative then ['-'] else []) ++
    (if d.digits = 0 then ['0', '.', '0']
    else if -longestZeros ≤ d.point ∧ d.point ≤ longestWhole then
      positional d.significant d.point
    else scientific d.significant d.point))

end Decimal

end Ebnf
