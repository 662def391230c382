import CurveSign.Proofs.Curve.Basic
import Mathlib.Tactic.LinearCombination

namespace CurveSign

/-!
# Triples of coordinates

A triple `(X, Y, Z)` stands for the point `(X / Z², Y / Z³)`, or for the identity where `Z` is zero.
`Triple.Stands` says so without division.  The doubling formula gives a triple for the double
(`Triple.Stands.double`), and the addition formula one for the sum of two points with different
x-coordinates (`Triple.Stands.add_of_xDifference_ne`).  The two cases that it leaves out are told
apart by the y-coordinates, which makes `Triple.sum` complete (`Triple.Stands.sum`).
-/

open WeierstrassCurve.Affine

/-- Coordinates without a division. -/
@[ext]
structure Triple where
  x : Coordinate
  y : Coordinate
  z : Coordinate

namespace Triple

/-- The triple stands for the point. -/
def Stands (t : Triple) : CurvePoint → Prop
  | .zero => t.z = 0
  | .some x y _ => t.z ≠ 0 ∧ t.x = x * t.z ^ 2 ∧ t.y = y * t.z ^ 3

/-- The doubling formula. -/
def double (t : Triple) : Triple where
  x := 9 * t.x ^ 4 - 8 * t.x * t.y ^ 2
  y := 3 * t.x ^ 2 * (12 * t.x * t.y ^ 2 - 9 * t.x ^ 4) - 8 * t.y ^ 4
  z := 2 * t.y * t.z

/-- The difference of the x-coordinates, both over the common denominator. -/
def xDifference (t u : Triple) : Coordinate := u.x * t.z ^ 2 - t.x * u.z ^ 2

/-- Twice the difference of the y-coordinates, both over the common denominator. -/
def yDifference (t u : Triple) : Coordinate := 2 * (u.y * t.z ^ 3 - t.y * u.z ^ 3)

/-- The addition formula. -/
def add (t u : Triple) : Triple :=
  let h := xDifference t u
  let r := yDifference t u
  let v := t.x * u.z ^ 2 * (2 * h) ^ 2
  let x := r ^ 2 - h * (2 * h) ^ 2 - 2 * v
  { x := x
    y := r * (v - x) - 2 * (t.y * u.z ^ 3 * (h * (2 * h) ^ 2))
    z := 2 * t.z * u.z * h }

/-- The sum: the formula where it applies, and otherwise the case that it leaves out. -/
def sum (t u : Triple) : Triple :=
  if t.z = 0 then u
  else if u.z = 0 then t
  else if xDifference t u = 0 then
    if yDifference t u = 0 then t.double else ⟨0, 1, 0⟩
  else t.add u

/-- The opposite triple. -/
def neg (t : Triple) : Triple := { t with y := -t.y }

/-! ### Slopes -/

/-- The slope of a tangent, without a quotient. -/
theorem slope_tangent {x y : Coordinate} (h : y ^ 2 = x ^ 3 + 7) :
    curve.slope x x y y * (2 * y) = 3 * x ^ 2 := by
  have hy := y_ne_zero h
  have hne : y ≠ curve.negY x y := by
    rw [negY_eq]
    exact neg_ne_self hy
  have htwo := Residue.two_ne_zero Modulus.coordinate
  rw [slope_of_Y_ne rfl hne, negY_eq]
  simp only [curve, mul_zero, zero_mul, add_zero, sub_zero, sub_neg_eq_add, ← two_mul]
  exact div_mul_cancel₀ _ (mul_ne_zero htwo hy)

/-- The slope of a chord, without a quotient. -/
theorem slope_chord {x x' y y' : Coordinate} (hx : x ≠ x') :
    curve.slope x x' y y' * (x' - x) = y' - y := by
  rw [slope_of_X_ne hx, div_mul_eq_mul_div, div_eq_iff (sub_ne_zero.2 hx)]
  ring

theorem addX_eq (x x' l : Coordinate) : curve.addX x x' l = l ^ 2 - x - x' := by
  simp [WeierstrassCurve.Affine.addX, curve]

/-- The second coordinate of a sum, in terms of the slope. -/
theorem addY_eq (x x' y l : Coordinate) :
    curve.addY x x' y l = l * (x - (l ^ 2 - x - x')) - y := by
  rw [WeierstrassCurve.Affine.addY, negY_eq, WeierstrassCurve.Affine.negAddY, addX_eq]
  ring

/-! ### The formulas -/

namespace Stands

variable {t u : Triple} {g g' : CurvePoint}

/-- The last coordinate is zero for the identity and for no other point. -/
theorem z_eq_zero_iff (h : t.Stands g) : t.z = 0 ↔ g = 0 := by
  rcases g with _ | ⟨x, y, hxy⟩
  · exact ⟨fun _ => rfl, fun _ => h⟩
  · exact ⟨fun hz => absurd hz h.1, fun hg => absurd hg (Point.some_ne_zero hxy)⟩

/-- Negating the second coordinate negates the point. -/
theorem neg (h : t.Stands g) : t.neg.Stands (-g) := by
  rcases g with _ | ⟨x, y, hxy⟩
  · exact h
  · obtain ⟨hz, hx, hy⟩ := h
    rw [neg_some_eq]
    refine ⟨hz, hx, ?_⟩
    show -t.y = -y * t.z ^ 3
    rw [hy, neg_mul]

/-- **The doubling formula doubles**, the identity included. -/
theorem double (h : t.Stands g) : t.double.Stands (g + g) := by
  rcases g with _ | ⟨x, y, hxy⟩
  · show 2 * t.y * t.z = 0
    rw [show t.z = 0 from h, mul_zero]
  · obtain ⟨hz, hx, hy⟩ := h
    have heq := nonsingular_iff_sq_eq.1 hxy
    have hne : y ≠ curve.negY x y := by
      rw [negY_eq]
      exact neg_ne_self (y_ne_zero heq)
    -- Of the slope only its equation is used, which has no division.
    obtain ⟨l, hl, hslope⟩ : ∃ l, curve.slope x x y y = l ∧ l * (2 * y) = 3 * x ^ 2 :=
      ⟨_, rfl, slope_tangent heq⟩
    rw [Point.add_self_of_Y_ne hne]
    refine ⟨?_, ?_, ?_⟩
    · show 2 * t.y * t.z ≠ 0
      rw [hy]
      exact mul_ne_zero (mul_ne_zero (Residue.two_ne_zero _)
        (mul_ne_zero (y_ne_zero heq) (pow_ne_zero 3 hz))) hz
    · simp only [Triple.double, hl, addX_eq, hx, hy]
      linear_combination (-t.z ^ 8 * (3 * x ^ 2 + l * (2 * y))) * hslope
    · simp only [Triple.double, hl, addY_eq, hx, hy]
      linear_combination (t.z ^ 12 * ((l * (2 * y)) ^ 2 + l * (2 * y) * (3 * x ^ 2)
        + (3 * x ^ 2) ^ 2 - 12 * x * y ^ 2)) * hslope

/-- The formula's differences tell whether the points have one x-coordinate, and one y-coordinate. -/
theorem xDifference_eq_zero_iff {x x' y y' : Coordinate} {hxy : curve.Nonsingular x y}
    {hxy' : curve.Nonsingular x' y'} (ht : t.Stands (.some x y hxy))
    (hu : u.Stands (.some x' y' hxy')) : t.xDifference u = 0 ↔ x = x' := by
  obtain ⟨hz, hx, _⟩ := ht
  obtain ⟨hz', hx', _⟩ := hu
  have hfactor : t.xDifference u = (x' - x) * (t.z ^ 2 * u.z ^ 2) := by
    rw [xDifference, hx, hx']
    ring
  rw [hfactor, mul_eq_zero, or_iff_left (mul_ne_zero (pow_ne_zero 2 hz) (pow_ne_zero 2 hz')),
    sub_eq_zero, eq_comm]

/-- The difference of the second coordinates, scaled as it is, tells whether they are equal. -/
theorem yDifference_eq_zero_iff {x x' y y' : Coordinate} {hxy : curve.Nonsingular x y}
    {hxy' : curve.Nonsingular x' y'} (ht : t.Stands (.some x y hxy))
    (hu : u.Stands (.some x' y' hxy')) : t.yDifference u = 0 ↔ y = y' := by
  obtain ⟨hz, _, hy⟩ := ht
  obtain ⟨hz', _, hy'⟩ := hu
  have hfactor : t.yDifference u = (y' - y) * (2 * (t.z ^ 3 * u.z ^ 3)) := by
    rw [yDifference, hy, hy']
    ring
  have hscale : 2 * (t.z ^ 3 * u.z ^ 3) ≠ 0 :=
    mul_ne_zero (Residue.two_ne_zero _) (mul_ne_zero (pow_ne_zero 3 hz) (pow_ne_zero 3 hz'))
  rw [hfactor, mul_eq_zero, or_iff_left hscale, sub_eq_zero, eq_comm]

/-- **The addition formula adds** points with different x-coordinates. -/
theorem add_of_xDifference_ne (ht : t.Stands g) (hu : u.Stands g') (hg : g ≠ 0) (hg' : g' ≠ 0)
    (hne : t.xDifference u ≠ 0) : (t.add u).Stands (g + g') := by
  rcases g with _ | ⟨x, y, hxy⟩
  · exact absurd rfl hg
  rcases g' with _ | ⟨x', y', hxy'⟩
  · exact absurd rfl hg'
  have hxx := mt (xDifference_eq_zero_iff ht hu).2 hne
  obtain ⟨l, hl, hslope⟩ : ∃ l, curve.slope x x' y y' = l ∧ l * (x' - x) = y' - y :=
    ⟨_, rfl, slope_chord hxx⟩
  obtain ⟨hz, hx, hy⟩ := ht
  obtain ⟨hz', hx', hy'⟩ := hu
  rw [Point.add_of_X_ne hxx]
  -- Over the common denominator the slope is the quotient of the two differences.
  have hr : t.yDifference u = l * (t.z * u.z) * (2 * t.xDifference u) := by
    simp only [xDifference, yDifference, hx, hx', hy, hy']
    linear_combination (-2 * t.z ^ 3 * u.z ^ 3) * hslope
  refine ⟨mul_ne_zero (mul_ne_zero (mul_ne_zero (Residue.two_ne_zero _) hz) hz') hne, ?_, ?_⟩
  · simp only [Triple.add, hl, addX_eq, hr]
    simp only [xDifference, hx, hx']
    ring
  · simp only [Triple.add, hl, addY_eq, hr]
    simp only [xDifference, hx, hx', hy]
    ring

/-- Points with one x-coordinate and one y-coordinate are equal. -/
theorem eq_of_differences (ht : t.Stands g) (hu : u.Stands g') (hg : g ≠ 0) (hg' : g' ≠ 0)
    (hx : t.xDifference u = 0) (hy : t.yDifference u = 0) : g = g' := by
  rcases g with _ | ⟨x, y, hxy⟩
  · exact absurd rfl hg
  rcases g' with _ | ⟨x', y', hxy'⟩
  · exact absurd rfl hg'
  obtain rfl := (xDifference_eq_zero_iff ht hu).1 hx
  obtain rfl := (yDifference_eq_zero_iff ht hu).1 hy
  rfl

/-- Points with one x-coordinate but different y-coordinates are opposite. -/
theorem add_eq_zero_of_differences (ht : t.Stands g) (hu : u.Stands g') (hg : g ≠ 0) (hg' : g' ≠ 0)
    (hx : t.xDifference u = 0) (hy : t.yDifference u ≠ 0) : g + g' = 0 := by
  rcases g with _ | ⟨x, y, hxy⟩
  · exact absurd rfl hg
  rcases g' with _ | ⟨x', y', hxy'⟩
  · exact absurd rfl hg'
  obtain rfl := (xDifference_eq_zero_iff ht hu).1 hx
  -- One x-coordinate and two different y-coordinates: the points are opposite.
  have hne := mt (yDifference_eq_zero_iff ht hu).2 hy
  rw [nonsingular_iff_sq_eq] at hxy hxy'
  refine Point.add_of_Y_eq rfl ?_
  rw [negY_eq]
  exact (sq_eq_sq_iff_eq_or_eq_neg.1 (hxy.trans hxy'.symm)).resolve_left hne

/-- **Complete addition**: the sum stands for the sum, whatever the two points are. -/
theorem sum (ht : t.Stands g) (hu : u.Stands g') : (t.sum u).Stands (g + g') := by
  unfold Triple.sum
  split_ifs with hz hz' hx hy
  · rwa [ht.z_eq_zero_iff.1 hz, zero_add]
  · rwa [hu.z_eq_zero_iff.1 hz', add_zero]
  -- Neither point is the identity from here on.
  all_goals
    have hg := mt ht.z_eq_zero_iff.2 hz
    have hg' := mt hu.z_eq_zero_iff.2 hz'
  · rw [← eq_of_differences ht hu hg hg' hx hy]
    exact ht.double
  · rw [add_eq_zero_of_differences ht hu hg hg' hx hy]
    rfl
  · exact add_of_xDifference_ne ht hu hg hg' hx

end Stands

end Triple

end CurveSign
