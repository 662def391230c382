import CurveSign.Program.Basic
import CurveSign.Scalar.Euclid

namespace CurveSign

/-!
# Programs over residues

The steps that field elements and scalars share, and those that only one of them has.
-/

/-- A step over residues of any modulus; the numbers name registers. -/
inductive RingStep
  | add (i j : Nat)
  | sub (i j : Nat)
  | mul (i j : Nat)
  | neg (i : Nat)
  | double (i : Nat)
  | square (i : Nat)
  | select (i j : Nat) (second : Bool)
  | clear (i : Nat)
  | isZero (i : Nat)
  | isEqual (i j : Nat)

/-- The answer of a step, given the registers. -/
def RingStep.answer {m : Modulus} (get : Nat → Residue m) : RingStep → Answer (Residue m)
  | add i j => .element (get i + get j)
  | sub i j => .element (get i - get j)
  | mul i j => .element (get i * get j)
  | neg i => .element (-get i)
  | double i => .element (get i).double
  | square i => .element (get i).square
  | select i j second => .element (if second then get j else get i)
  | clear _ => .element 0
  | isZero i => .truth (get i).isZero
  | isEqual i j => .truth (get i == get j)

/-- A step over field elements. -/
inductive FieldStep
  | ring (step : RingStep)
  | invert (i : Nat)
  | sqrt (i : Nat)
  | isOdd (i : Nat)
  | compare (i j : Nat)
  | describe (i : Nat)

/-- The answer of a step, given the registers. -/
def FieldStep.answer (get : Nat → FieldElement) : FieldStep → Answer FieldElement
  | ring step => step.answer get
  | invert i => .ofOption (get i).invert?
  | sqrt i => .ofOption (get i).sqrt?
  | isOdd i => .truth (get i).isOdd
  | compare i j => .order ((get i).compare (get j))
  | describe i => .text (get i).describe

/-- A step over scalars. -/
inductive ScalarStep
  | ring (step : RingStep)
  | pow (i : Nat) (exponent : Word256)
  | invert (i : Nat)
  | invertByEuclid (i : Nat)
  | ofWord (value : UInt64)
  | isHigh (i : Nat)
  | describe (i : Nat)

/-- The answer of a step, given the registers. -/
def ScalarStep.answer (get : Nat → Scalar) : ScalarStep → Answer Scalar
  | ring step => step.answer get
  | pow i exponent => .element ((get i).pow exponent)
  | invert i => .ofOption (get i).invert?
  | invertByEuclid i => .ofOption (get i).invertByEuclid?
  | ofWord value => .element (Residue.ofWord value)
  | isHigh i => .truth (get i).isHigh
  | describe i => .text (get i).describe

/-- The answers of a program over field elements that starts from the given ones. -/
def runField (values : List FieldElement) (steps : List FieldStep) : List (Answer FieldElement) :=
  runProgram 0 FieldStep.answer steps values

/-- The answers of a program over scalars that starts from the given ones. -/
def runScalar (values : List Scalar) (steps : List ScalarStep) : List (Answer Scalar) :=
  runProgram 0 ScalarStep.answer steps values

end CurveSign
