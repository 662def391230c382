import CurveSign.Point.Jacobian
import CurveSign.Recoding.NonAdjacent
import CurveSign.Recoding.Radix16

namespace CurveSign

/-!
# Multiples of points

Two ways to multiply points by scalars, both by Horner's rule over signed digits, from the most
significant digit down.  `multiply` takes digits of base 16 and a table of the first eight
multiples, and starts from the multiple by the top digit; `combine` computes `u · G + v · Q` with
shared doublings, from sparse digits and tables of odd multiples, and starts at the highest place that
has a digit other than zero.
-/

namespace JacobianPoint

/-- The points `start`, `next start`, `next (next start)` and so on, `count` of them. -/
def chain (next : JacobianPoint → JacobianPoint) (start : JacobianPoint) : Nat → List JacobianPoint
  | 0 => []
  | count + 1 => start :: chain next (next start) count

/-- The multiples `p, 2p, …, 8p`. -/
def firstMultiples (p : JacobianPoint) : List JacobianPoint := chain (fun q => p + q) p 8

/-- The multiples `p, 3p, …, 15p`. -/
def oddMultiples (p : JacobianPoint) : List JacobianPoint :=
  let twice := p.double
  chain (fun q => q.addByCases twice) p 8

/-- The point, or its opposite for a negative digit. -/
def withSign (digit : Int) (p : JacobianPoint) : JacobianPoint := if digit < 0 then -p else p

/-- The multiple by a digit in `[-8, 8]`, from the first multiples. -/
def selectMultiple (table : List JacobianPoint) (digit : Int) : JacobianPoint :=
  if digit = 0 then identity else withSign digit (table.getD (digit.natAbs - 1) identity)

/-- The multiple by an odd digit in `[-15, 15]`, from the odd multiples. -/
def selectOdd (table : List JacobianPoint) (digit : Int) : JacobianPoint :=
  withSign digit (table.getD (digit.natAbs / 2) identity)

/-- One step of base 16: sixteen times the sum so far, and the multiple by the next digit. -/
def radix16Step (table : List JacobianPoint) (digit : Int) (sum : JacobianPoint) :
    JacobianPoint :=
  sum.double.double.double.double + selectMultiple table digit

/-- The multiple `k · p`: the multiple by the top digit, and then a step for each of the 64 digits below
it. -/
def multiply (p : JacobianPoint) (k : Scalar) : JacobianPoint :=
  let table := p.firstMultiples
  (k.radix16.take 64).foldr (radix16Step table) (selectMultiple table (k.radix16.getD 64 0))

/-- The multiple `k · G` of the base point. -/
def multiplyBase (k : Scalar) : JacobianPoint := multiply generator k

/-- The sum, with an odd multiple added for a digit other than zero. -/
def addDigit (table : List JacobianPoint) (digit : Int) (sum : JacobianPoint) : JacobianPoint :=
  if digit = 0 then sum else sum.addByCases (selectOdd table digit)

/-- One step of base 2: twice the sum so far, and the multiples by the next two digits. -/
def combineStep (table table' : List JacobianPoint) (digits : Int × Int) (sum : JacobianPoint) :
    JacobianPoint :=
  addDigit table' digits.2 (addDigit table digits.1 sum.double)

/-- The pairs of digits up to the highest place where not both digits are zero, and none if there is no
such place. -/
def significant (digits : List (Int × Int)) : List (Int × Int) :=
  (digits.reverse.dropWhile fun d => d.1 == 0 && d.2 == 0).reverse

/-- The combination `u · G + v · q`, from the highest place with a digit other than zero. -/
def combine (u v : Scalar) (q : JacobianPoint) : JacobianPoint :=
  (significant (u.sparseDigits.zip v.sparseDigits)).foldr
    (combineStep generator.oddMultiples q.oddMultiples) identity

end JacobianPoint

end CurveSign
