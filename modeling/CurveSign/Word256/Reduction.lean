import CurveSign.Word256.Lemmas

namespace CurveSign

/-!
# Reduction by one subtraction

A value below `2m`, given as a number of four words and the carry above it, is brought below `m` by
subtracting `m` at most once (`Word256.subModulus_value`).
-/

namespace Word256

/-- The value `carry · 2^256 + a`, less `m` unless it is already below `m`. -/
def subModulus (a : Word256) (carry : Bool) (m : Word256) : Word256 :=
  let (difference, borrow) := a.subBorrow m
  if borrow && !carry then a else difference

/-- A value below `2m` is reduced modulo `m`. -/
theorem subModulus_value (a : Word256) (carry : Bool) (m : Word256)
    (hm : size < 2 * m.toNat) (hlt : a.toNat + size * carry.toNat < 2 * m.toNat) :
    (a.subModulus carry m).toNat = (a.toNat + size * carry.toNat) % m.toNat := by
  have hd := subBorrow_value a m
  have hb := subBorrow_borrow a m
  have hsize := (a.subBorrow m).1.toNat_lt
  have ha := a.toNat_lt
  have hml := m.toNat_lt
  -- Below the modulus the difference is not kept; otherwise one subtraction is enough.
  by_cases hlow : a.toNat + size * carry.toNat < m.toNat
  · rw [Nat.mod_eq_of_lt hlow]
    cases carry
    · have hborrow : (a.subBorrow m).2 = true := by
        rw [hb, decide_eq_true_eq]
        simpa using hlow
      simp [subModulus, hborrow]
    · simp only [Bool.toNat_true, size] at *
      omega
  · rw [Nat.mod_eq_sub_mod (by omega), Nat.mod_eq_of_lt (by omega)]
    cases carry
    · have hborrow : (a.subBorrow m).2 = false := by
        rw [hb, decide_eq_false_iff_not]
        simpa using hlow
      rw [hborrow] at hd
      simp only [subModulus, hborrow, Bool.false_and, Bool.false_eq_true, if_false,
        Bool.toNat_false] at *
      omega
    · have hborrow : (a.subBorrow m).2 = true := by
        rw [hb, decide_eq_true_eq]
        simp only [Bool.toNat_true, size] at *
        omega
      rw [hborrow] at hd
      simp only [subModulus, Bool.not_true, Bool.and_false, Bool.false_eq_true, if_false,
        Bool.toNat_true] at *
      omega

/-- A value below `2m` ends up below `m`. -/
theorem subModulus_lt (a : Word256) (carry : Bool) (m : Word256)
    (hm : size < 2 * m.toNat) (hlt : a.toNat + size * carry.toNat < 2 * m.toNat) :
    (a.subModulus carry m).toNat < m.toNat := by
  rw [subModulus_value a carry m hm hlt]
  exact Nat.mod_lt _ (by simp only [size] at *; omega)

end Word256

end CurveSign
