import CurveSign.Point.Affine
import CurveSign.Proofs.Curve.Triple
import Mathlib.Algebra.Module.ZMod
import Mathlib.GroupTheory.Perm.Cycle.Type

namespace CurveSign

/-!
# The group has exactly `n` elements

The base point has order `n`: its multiple by `n` is computed on triples of numbers, which the
kernel can evaluate, and comes out as the identity (`order_nsmul_basePoint`).  So `n` divides the
number of points.  That number is at most `2p + 1`, hence below `3n`, and it is not `2n` because no
point has order two; so it is `n` (`card_curvePoint`), and every multiple depends on its factor
modulo `n` only.
-/

open WeierstrassCurve.Affine

/-! ### Triples of numbers -/

/-- Coordinates as numbers, taken modulo `p`. -/
structure NatTriple where
  x : ℕ
  y : ℕ
  z : ℕ

namespace NatTriple

/-- The prime `p` in decimal digits. -/
def modulus : ℕ := 115792089237316195423570985008687907853269984665640564039457584007908834671663

/-- The product modulo `p`. -/
def mul (a b : ℕ) : ℕ := a * b % modulus

/-- The difference modulo `p`. -/
def sub (a b : ℕ) : ℕ := (a + (modulus - b % modulus)) % modulus

/-- The triple of coordinates. -/
def toTriple (t : NatTriple) : Triple := ⟨t.x, t.y, t.z⟩

/-- The doubling formula. -/
def double (t : NatTriple) : NatTriple where
  x := sub (9 * mul (mul t.x t.x) (mul t.x t.x)) (8 * mul t.x (mul t.y t.y))
  y := sub (mul (3 * mul t.x t.x)
      (sub (12 * mul t.x (mul t.y t.y)) (9 * mul (mul t.x t.x) (mul t.x t.x))))
    (8 * mul (mul t.y t.y) (mul t.y t.y))
  z := 2 * mul t.y t.z

/-- The difference of the x-coordinates, both over the common denominator. -/
def xDifference (t u : NatTriple) : ℕ := sub (mul u.x (mul t.z t.z)) (mul t.x (mul u.z u.z))

/-- Twice the difference of the y-coordinates, both over the common denominator. -/
def yDifference (t u : NatTriple) : ℕ :=
  2 * sub (mul u.y (mul t.z (mul t.z t.z))) (mul t.y (mul u.z (mul u.z u.z)))

/-- The x-coordinate of the addition formula, from the two differences and the first x-coordinate
    over the common denominator. -/
def addX (h r v : ℕ) : ℕ := sub (sub (mul r r) (4 * mul h (mul h h))) (8 * mul v (mul h h))

/-- The addition formula. -/
def add (t u : NatTriple) : NatTriple where
  x := addX (xDifference t u) (yDifference t u) (mul t.x (mul u.z u.z))
  y := sub
    (mul (yDifference t u)
      (sub (4 * mul (mul t.x (mul u.z u.z)) (mul (xDifference t u) (xDifference t u)))
        (addX (xDifference t u) (yDifference t u) (mul t.x (mul u.z u.z)))))
    (8 * mul (mul t.y (mul u.z (mul u.z u.z)))
      (mul (xDifference t u) (mul (xDifference t u) (xDifference t u))))
  z := 2 * mul (mul t.z u.z) (xDifference t u)

/-- The sum, with every case of its own. -/
def sum (t u : NatTriple) : NatTriple :=
  if t.z % modulus = 0 then u
  else if u.z % modulus = 0 then t
  else if xDifference t u % modulus = 0 then
    if yDifference t u % modulus = 0 then t.double else ⟨0, 1, 0⟩
  else t.add u

/-- The base point. -/
def base : NatTriple where
  x := 55066263022277343669578718895168534326250603453777594175500187360389116729240
  y := 32670510020758816978083085130507043184471273380659243275938904335757337482424
  z := 1

/-- One bit of a multiple of the base point: double, and add where the bit is set. -/
def multipleStep (bit : Bool) (t : NatTriple) : NatTriple :=
  if bit then t.double.sum base else t.double

/-- The multiple of the base point by a number below `2 ^ 256`. -/
def multiple (k : ℕ) : NatTriple :=
  (List.range 256).foldr (fun i t => multipleStep (k.testBit i) t) ⟨0, 1, 0⟩

/-! ### Triples of numbers compute what triples of coordinates do -/

theorem modulus_eq : modulus = Modulus.coordinate.toNat := Modulus.toNat_coordinate.symm

@[simp] theorem cast_mul (a b : ℕ) : ((mul a b : ℕ) : Coordinate) = a * b := by
  rw [mul, modulus_eq, ZMod.natCast_mod, Nat.cast_mul]

/-- Subtracting adds what is missing from the modulus, which is zero modulo it. -/
@[simp] theorem cast_sub (a b : ℕ) : ((sub a b : ℕ) : Coordinate) = a - b := by
  have hle : b % modulus ≤ modulus := (Nat.mod_lt _ (by decide)).le
  rw [sub, modulus_eq] at *
  rw [ZMod.natCast_mod, Nat.cast_add, Nat.cast_sub hle, ZMod.natCast_self, ZMod.natCast_mod,
    zero_sub, ← sub_eq_add_neg]

theorem cast_eq_zero_iff (a : ℕ) : (a : Coordinate) = 0 ↔ a % modulus = 0 := by
  rw [ZMod.natCast_eq_zero_iff, modulus_eq, Nat.dvd_iff_mod_eq_zero]

/-- The doubling formula in natural numbers is the one over the field. -/
theorem toTriple_double (t : NatTriple) : t.double.toTriple = t.toTriple.double := by
  ext <;> simp only [toTriple, double, Triple.double, Nat.cast_mul, Nat.cast_ofNat, cast_mul,
    cast_sub] <;> ring

/-- The difference of the first coordinates, computed in natural numbers. -/
@[simp] theorem cast_xDifference (t u : NatTriple) :
    ((xDifference t u : ℕ) : Coordinate) = t.toTriple.xDifference u.toTriple := by
  simp only [xDifference, Triple.xDifference, toTriple, cast_mul, cast_sub]
  ring

/-- The difference of the second coordinates, computed in natural numbers. -/
@[simp] theorem cast_yDifference (t u : NatTriple) :
    ((yDifference t u : ℕ) : Coordinate) = t.toTriple.yDifference u.toTriple := by
  simp only [yDifference, Triple.yDifference, toTriple, Nat.cast_mul, Nat.cast_ofNat, cast_mul,
    cast_sub]
  ring

/-- The addition formula in natural numbers is the one over the field, coordinate by coordinate. -/
theorem toTriple_add (t u : NatTriple) : (t.add u).toTriple = t.toTriple.add u.toTriple := by
  -- The second coordinate is computed from the first, which is therefore settled once.
  have hx : (t.add u).toTriple.x = (t.toTriple.add u.toTriple).x := by
    simp only [add, addX, Triple.add, toTriple, Nat.cast_mul, Nat.cast_ofNat, cast_mul, cast_sub,
      cast_xDifference, cast_yDifference]
    ring
  ext
  · exact hx
  · simp only [add, addX, Triple.add, toTriple, Nat.cast_mul, Nat.cast_ofNat, cast_mul, cast_sub,
      cast_xDifference, cast_yDifference]
    ring
  · simp only [add, Triple.add, toTriple, Nat.cast_mul, Nat.cast_ofNat, cast_mul, cast_xDifference]
    ring

/-- The cases of a sum are told apart alike, since a number is zero in the field if the modulus
    divides it. -/
theorem toTriple_sum (t u : NatTriple) : (t.sum u).toTriple = t.toTriple.sum u.toTriple := by
  have hz : ∀ t : NatTriple, t.toTriple.z = 0 ↔ t.z % modulus = 0 := fun t => cast_eq_zero_iff t.z
  simp only [sum, Triple.sum, hz, ← cast_xDifference, ← cast_yDifference, cast_eq_zero_iff]
  split_ifs
  · rfl
  · rfl
  · exact toTriple_double t
  · simp [toTriple]
  · exact toTriple_add t u

end NatTriple

/-! ### The base point and its order -/

/-- The coordinates of the generator satisfy the equation. -/
theorem isOnCurve_generator :
    AffinePoint.isOnCurve AffinePoint.generatorX AffinePoint.generatorY = true := by
  decide +kernel

/-- The right-hand side of the equation, in the field. -/
theorem toZMod_cubic (x : FieldElement) : (AffinePoint.cubic x).toZMod = x.toZMod ^ 3 + 7 := by
  have hseven : FieldElement.seven.toZMod = 7 := Residue.toZMod_ofWord 7
  simp only [AffinePoint.cubic, Residue.toZMod_add, Residue.toZMod_mul, Residue.toZMod_square,
    hseven]
  rw [← pow_succ]

/-- The test of the equation is the equation in the field. -/
theorem isOnCurve_iff {x y : FieldElement} :
    AffinePoint.isOnCurve x y = true ↔ y.toZMod ^ 2 = x.toZMod ^ 3 + 7 := by
  rw [AffinePoint.isOnCurve, Residue.beq_iff_toZMod, Residue.toZMod_square, toZMod_cubic]

/-- The base point `G` of the group. -/
def basePoint : CurvePoint :=
  .some AffinePoint.generatorX.toZMod AffinePoint.generatorY.toZMod
    (nonsingular_iff_sq_eq.2 (isOnCurve_iff.1 isOnCurve_generator))

theorem basePoint_ne_zero : basePoint ≠ 0 := Point.some_ne_zero _

/-- The coordinates that the computation starts from are those of the base point. -/
theorem stands_base : NatTriple.base.toTriple.Stands basePoint := by
  have hx : AffinePoint.generatorX.toNat = NatTriple.base.x := by decide
  have hy : AffinePoint.generatorY.toNat = NatTriple.base.y := by decide
  refine ⟨?_, ?_, ?_⟩ <;>
    simp [NatTriple.toTriple, ← hx, ← hy, Residue.toZMod] <;> simp [NatTriple.base]

/-- Multiples of the base point are computed bit by bit. -/
theorem stands_multiple {k : ℕ} (hk : k < 2 ^ 256) :
    (NatTriple.multiple k).toTriple.Stands (k • basePoint) := by
  refine foldr_range_testBit (fun n (t : NatTriple) => t.toTriple.Stands (n • basePoint))
    NatTriple.multipleStep ?_ ?_ hk
  · rw [zero_nsmul]
    simp [NatTriple.toTriple, Triple.Stands]
  · -- One bit doubles the multiple, and adds the base point if it is set.
    intro n bit t ht
    have hdouble := ht.double
    rw [← NatTriple.toTriple_double, ← add_nsmul, ← two_mul] at hdouble
    cases bit
    · exact hdouble
    · have hsum := hdouble.sum stands_base
      rwa [← NatTriple.toTriple_sum, ← succ_nsmul] at hsum

/-- A multiple whose computed triple ends in zero is the identity. -/
theorem nsmul_basePoint_eq_zero {k : ℕ} (hk : k < 2 ^ 256)
    (hz : (NatTriple.multiple k).z % NatTriple.modulus = 0) : k • basePoint = 0 :=
  (stands_multiple hk).z_eq_zero_iff.1 ((NatTriple.cast_eq_zero_iff _).2 hz)

/-- The multiple of the base point by the order vanishes, as computed. -/
theorem order_nsmul_basePoint : Modulus.order.toNat • basePoint = 0 := by
  rw [Modulus.toNat_order]
  exact nsmul_basePoint_eq_zero (by norm_num) (by decide +kernel)

/-! ### The number of points -/

/-- **The group has `n` elements.** -/
theorem card_curvePoint : Nat.card CurvePoint = Modulus.order.toNat := by
  have horder : addOrderOf basePoint = Modulus.order.toNat :=
    addOrderOf_eq_prime order_nsmul_basePoint basePoint_ne_zero
  have hdvd : Modulus.order.toNat ∣ Nat.card CurvePoint := horder ▸ addOrderOf_dvd_natCard basePoint
  have hle := card_curvePoint_le
  have hpos : 0 < Nat.card CurvePoint := Nat.card_pos
  -- An even number of points would mean a point of order two.
  have hodd : ¬ 2 ∣ Nat.card CurvePoint := by
    intro htwo
    obtain ⟨g, hg⟩ := exists_prime_addOrderOf_dvd_card' 2 htwo
    have hne : g ≠ 0 := by
      rintro rfl
      simp at hg
    have hsum : g + g = 0 := by rw [← two_nsmul, ← hg, addOrderOf_nsmul_eq_zero]
    exact neg_ne_self_of_ne_zero hne (neg_eq_of_add_eq_zero_left hsum)
  -- The number of points is a multiple of the order below three times the order.
  obtain ⟨c, hc⟩ := hdvd
  rw [hc] at hle hpos hodd ⊢
  have hbound : 2 * Modulus.coordinate.toNat + 1 < Modulus.order.toNat * 3 := by
    rw [Modulus.toNat_coordinate, Modulus.toNat_order]
    norm_num
  have hc3 : c < 3 := lt_of_mul_lt_mul_left (hle.trans_lt hbound) (Nat.zero_le _)
  obtain rfl | rfl | rfl : c = 0 ∨ c = 1 ∨ c = 2 := by omega
  · exact absurd hpos (by simp)
  · exact mul_one _
  · exact absurd (Dvd.intro_left _ rfl) hodd

/-- Every point is annihilated by the order. -/
theorem order_nsmul (g : CurvePoint) : Modulus.order.toNat • g = 0 := by
  rw [← card_curvePoint]
  exact card_nsmul_eq_zero'

/-- Multiples by numbers modulo the order. -/
instance : Module (ZMod Modulus.order.toNat) CurvePoint := AddCommGroup.zmodModule order_nsmul

theorem natCast_smul (k : ℕ) (g : CurvePoint) : (k : ZMod Modulus.order.toNat) • g = k • g :=
  Nat.cast_smul_eq_nsmul _ k g

theorem val_nsmul (c : ZMod Modulus.order.toNat) (g : CurvePoint) : c.val • g = c • g := by
  rw [← natCast_smul, ZMod.natCast_zmod_val]

/-- A multiple of a point other than the identity vanishes only for the factor zero. -/
theorem smul_eq_zero_iff' {c : ZMod Modulus.order.toNat} {g : CurvePoint} (hg : g ≠ 0) :
    c • g = 0 ↔ c = 0 := by
  rw [smul_eq_zero, or_iff_left hg]

end CurveSign
