import CurveSign.Point.Affine

namespace CurveSign

/-!
# Points without inversions

A triple `(x, y, z)` with `z` not zero stands for the affine point `(x / z², y / z³)`, and one with
`z` zero for the identity.  Doubling and adding need no inversion in this form; only `toAffine`
does.  Two additions are given, which differ in how they treat the exceptional cases: `add`
evaluates the formula always and then selects, `addByCases` looks first.
-/

/-- A triple that stands for a point. -/
structure JacobianPoint where
  x : FieldElement
  y : FieldElement
  z : FieldElement

namespace JacobianPoint

/-- The identity, as `(0, 1, 0)`. -/
def identity : JacobianPoint := ⟨0, 1, 0⟩

/-- The base point. -/
def generator : JacobianPoint := ⟨AffinePoint.generatorX, AffinePoint.generatorY, 1⟩

instance : Inhabited JacobianPoint := ⟨identity⟩

/-- The triple stands for the identity. -/
def isIdentity (p : JacobianPoint) : Bool := p.z.isZero

/-- A triple for an affine point. -/
def ofAffine : AffinePoint → JacobianPoint
  | .identity => identity
  | .finite x y => ⟨x, y, 1⟩

/-- The point that the triple stands for. -/
def toAffine (p : JacobianPoint) : AffinePoint :=
  match p.z.invert? with
  | none => .identity
  | some i => .finite (p.x * i.square) (p.y * i.square * i)

/-- The x-coordinate of the point is `x`: compared as `x · z²` with the first of the triple.  The
identity has no x-coordinate. -/
def hasX (p : JacobianPoint) (x : FieldElement) : Bool :=
  if p.isIdentity then false else x * p.z.square == p.x

/-- Two triples stand for the same point: compared after multiplying across. -/
protected def beq (p q : JacobianPoint) : Bool :=
  let sameX := p.x * q.z.square == q.x * p.z.square
  let sameY := p.y * q.z.square * q.z == q.y * p.z.square * p.z
  (p.isIdentity && q.isIdentity) || (!p.isIdentity && !q.isIdentity && sameX && sameY)

/-- The opposite point. -/
protected def neg (p : JacobianPoint) : JacobianPoint := ⟨p.x, -p.y, p.z⟩

/-- Twice the point. -/
def double (p : JacobianPoint) : JacobianPoint :=
  let a := p.x.square
  let b := p.y.square
  let c := b.square
  let d := ((p.x + b).square - a - c).double
  let e := a.double + a
  let f := e.square
  let x := f - d.double
  { x := x, y := e * (d - x) - c.double.double.double, z := (p.y * p.z).double }

/-- What the addition formula gives: its triple, and the differences of the scaled x- and
y-coordinates that tell equal and opposite points. -/
structure RawSum where
  sum : JacobianPoint
  xDifference : FieldElement
  yDifference : FieldElement

/-- The addition formula, right for two points that are neither the identity nor equal. -/
def addRaw (p q : JacobianPoint) : RawSum :=
  let z1z1 := p.z.square
  let z2z2 := q.z.square
  let u1 := p.x * z2z2
  let u2 := q.x * z1z1
  let s1 := p.y * q.z * z2z2
  let s2 := q.y * p.z * z1z1
  let h := u2 - u1
  let i := h.double.square
  let j := h * i
  let r := (s2 - s1).double
  let v := u1 * i
  let x := r.square - j - v.double
  let y := r * (v - x) - (s1 * j).double
  let z := ((p.z + q.z).square - z1z1 - z2z2) * h
  { sum := ⟨x, y, z⟩, xDifference := h, yDifference := r }

/-- The sum, by selection among the formula's triple, the double and the two points. -/
protected def add (p q : JacobianPoint) : JacobianPoint :=
  let raw := addRaw p q
  let sum := if raw.xDifference.isZero && raw.yDifference.isZero then p.double else raw.sum
  let sum := if p.isIdentity then q else sum
  if q.isIdentity then p else sum

/-- The sum, looking at the exceptional cases first. -/
def addByCases (p q : JacobianPoint) : JacobianPoint :=
  if p.isIdentity then q
  else if q.isIdentity then p
  else
    let raw := addRaw p q
    if raw.xDifference.isZero then
      if raw.yDifference.isZero then p.double else identity
    else raw.sum

instance : Neg JacobianPoint := ⟨JacobianPoint.neg⟩
instance : Add JacobianPoint := ⟨JacobianPoint.add⟩
instance : Sub JacobianPoint := ⟨fun p q => p + -q⟩

end JacobianPoint

end CurveSign
