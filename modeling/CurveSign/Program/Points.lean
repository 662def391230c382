import CurveSign.Point.Encoding
import CurveSign.Point.Multiple
import CurveSign.Point.Record
import CurveSign.Program.Basic

namespace CurveSign

/-!
# Programs over points

Steps over points held without inversions.  The steps on affine points convert their registers to
records, work on those, and convert the record back.
-/

/-- A step over points; the numbers name registers. -/
inductive PointStep
  | generator
  | identity
  | sec1 (bytes : List UInt8)
  | decompress (x : List UInt8) (yOdd : Bool)
  | double (i : Nat)
  | add (i j : Nat)
  | addByCases (i j : Nat)
  | sub (i j : Nat)
  | neg (i : Nat)
  | multiply (i : Nat) (k : Scalar)
  | multiplyBase (k : Scalar)
  | combine (u v : Scalar) (i : Nat)
  | throughAffine (i : Nat)
  | negAffine (i : Nat)
  | selectAffine (i j : Nat) (second : Bool)
  | clearAffine (i : Nat)
  | select (i j : Nat) (second : Bool)
  | clear (i : Nat)
  | isEqual (i j : Nat)
  | isIdentity (i : Nat)
  | hasX (i : Nat) (x : Option FieldElement)

/-- The answer of a step, given the registers. -/
def PointStep.answer (get : Nat → JacobianPoint) : PointStep → Answer JacobianPoint
  | generator => .element .generator
  | identity => .element .identity
  | sec1 bytes =>
    match AffinePoint.ofSec1 bytes with
    | .ok point => .element (.ofAffine point)
    | .error e => .refused e
  | decompress x yOdd => .ofOption ((AffinePoint.decompressBytes x yOdd).map .ofAffine)
  | double i => .element (get i).double
  | add i j => .element (get i + get j)
  | addByCases i j => .element ((get i).addByCases (get j))
  | sub i j => .element (get i - get j)
  | neg i => .element (-get i)
  | multiply i k => .element ((get i).multiply k)
  | multiplyBase k => .element (.multiplyBase k)
  | combine u v i => .element (.combine u v (get i))
  | throughAffine i => .element (.ofAffine (get i).toAffine)
  | negAffine i => .element (-(get i).toRecord).toJacobian
  | selectAffine i j second =>
    .element (AffineRecord.select (get i).toRecord (get j).toRecord second).toJacobian
  | clearAffine _ => .element AffineRecord.identity.toJacobian
  | select i j second => .element (if second then get j else get i)
  | clear _ => .element .identity
  | isEqual i j => .truth ((get i).beq (get j))
  | isIdentity i => .truth (get i).isIdentity
  | hasX i (some x) => .truth ((get i).hasX x)
  | hasX _ none => .absent

/-- The answers of a program over points. -/
def runPoints (steps : List PointStep) : List (Answer JacobianPoint) :=
  runProgram .identity PointStep.answer steps []

end CurveSign
