import CurveSign.Proofs.Point.Multiple
import CurveSign.Proofs.Recoding.InPlace

namespace CurveSign

/-!
# Odd multiples by selection from a table

A digit is served by the entry at half its size, if the table has one.  Written with a test in front of
each selection, the combination of two multiples is a run that can stop in the middle (`combine?`).  The
sparse digits of scalars, which the loop over the windows always ends with, do not stop it
(`combine?_eq_some`), and they spell the scalar as an integer (`Scalar.sparseDigits_exact`).
-/

namespace JacobianPoint

/-! ### Selections with a test -/

/-- A chain has as many members as asked for. -/
theorem length_chain (next : JacobianPoint → JacobianPoint) (start : JacobianPoint) (count : ℕ) :
    (chain next start count).length = count := by
  induction count generalizing start with
  | zero => rfl
  | succ count ih => rw [chain, List.length_cons, ih]

/-- The multiple by an odd digit, unless the entry for it lies outside the table. -/
def selectOdd? (table : List JacobianPoint) (digit : ℤ) : Option JacobianPoint :=
  table[digit.natAbs / 2]?.map (withSign digit)

/-- The sum with the multiple by a digit other than zero, with the test. -/
def addDigit? (table : List JacobianPoint) (digit : ℤ) (sum : JacobianPoint) : Option JacobianPoint :=
  if digit = 0 then some sum else (selectOdd? table digit).map sum.addByCases

/-- One step of base 2, with the tests. -/
def combineStep? (table table' : List JacobianPoint) (digits : ℤ × ℤ) (sum : JacobianPoint) :
    Option JacobianPoint := do
  let first ← addDigit? table digits.1 sum.double
  addDigit? table' digits.2 first

/-- The combination `u · G + v · q`, unless an entry outside a table is met on the way. -/
def combine? (u v : Scalar) (q : JacobianPoint) : Option JacobianPoint :=
  (significant (u.sparseDigits.zip v.sparseDigits)).foldrM
    (combineStep? generator.oddMultiples q.oddMultiples) identity

variable {table : List JacobianPoint} {digit : ℤ}

/-- Inside the table the checked selection selects. -/
theorem selectOdd?_eq_some (h : digit.natAbs / 2 < table.length) :
    selectOdd? table digit = some (selectOdd table digit) := by
  rw [selectOdd?, selectOdd, List.getElem?_eq_getElem h, List.getD_eq_getElem _ _ h]
  rfl

/-- Half the size of a digit of at most 15 is an index of eight entries. -/
theorem natAbs_half_le_seven (h : |digit| ≤ 15) : digit.natAbs / 2 ≤ 7 := by
  rw [Int.abs_eq_natAbs] at h
  omega

/-- Digits up to fifteen stay inside the table of eight. -/
theorem selectOdd?_oddMultiples (p : JacobianPoint) (h : |digit| ≤ 15) :
    selectOdd? p.oddMultiples digit = some (selectOdd p.oddMultiples digit) := by
  refine selectOdd?_eq_some ?_
  rw [oddMultiples, length_chain]
  exact Nat.lt_succ_of_le (natAbs_half_le_seven h)

/-- Adding a digit with the checked selection adds it. -/
theorem addDigit?_eq_some (p : JacobianPoint) (h : |digit| ≤ 15) (sum : JacobianPoint) :
    addDigit? p.oddMultiples digit sum = some (addDigit p.oddMultiples digit sum) := by
  rw [addDigit?, addDigit, selectOdd?_oddMultiples p h, Option.map_some, apply_ite some]

/-- Digits of at most 15 do not stop a step. -/
theorem combineStep?_eq_some (p q : JacobianPoint) {digits : ℤ × ℤ} (h : |digits.1| ≤ 15)
    (h' : |digits.2| ≤ 15) (sum : JacobianPoint) :
    combineStep? p.oddMultiples q.oddMultiples digits sum
      = some (combineStep p.oddMultiples q.oddMultiples digits sum) := by
  rw [combineStep?, addDigit?_eq_some p h]
  exact addDigit?_eq_some q h' _

end JacobianPoint

/-! ### The sparse digits of a scalar -/

namespace Scalar

/-- A digit has four bits and a sign. -/
theorem IsSparseDigit.abs_le_fifteen {d : ℤ} (h : IsSparseDigit d) : |d| ≤ 15 := by
  rw [abs_le]
  rcases h with rfl | ⟨-, hbounds⟩
  · decide
  · exact hbounds

end Scalar

/-- **The combination never leaves its tables.** -/
theorem JacobianPoint.combine?_eq_some (u v : Scalar) (q : JacobianPoint) :
    combine? u v q = some (combine u v q) := by
  refine foldrM_eq_some ?_ identity
  intro d hd
  obtain ⟨hfst, hsnd⟩ := isSparseDigit_of_mem_significant u v d hd
  exact combineStep?_eq_some generator q hfst.abs_le_fifteen hsnd.abs_le_fifteen

/-- **The sparse digits of a scalar.** The loop over the windows ends, without a fault, in one way: with
    257 digits and no carry.  The digits spell the scalar as an integer, each other than zero is odd and at
    most 15 in size, and any two of those are at least five places apart.  So each is served by one of the
    eight odd multiples of any point, and no combination with the digits of any other scalar stops. -/
theorem Scalar.sparseDigits_exact (s : Scalar) :
    (∀ outcome, SparseState.Ends s.word .start outcome
      ↔ outcome = .ok ⟨s.sparseDigits, 257, 0⟩)
    ∧ s.sparseDigits.length = 257
    ∧ ∑ i ∈ Finset.range 257, s.sparseDigits.getD i 0 * 2 ^ i = (s.toNat : ℤ)
    ∧ (∀ d ∈ s.sparseDigits, d ≠ 0 → Odd d ∧ |d| ≤ 15)
    ∧ (∀ i j, i < j → s.sparseDigits.getD i 0 ≠ 0 → s.sparseDigits.getD j 0 ≠ 0 → i + 5 ≤ j)
    ∧ (∀ p : JacobianPoint, ∀ d ∈ s.sparseDigits, d ≠ 0 → d.natAbs / 2 ≤ 7
      ∧ JacobianPoint.selectOdd? p.oddMultiples d
        = some (JacobianPoint.selectOdd p.oddMultiples d))
    ∧ ∀ (t : Scalar) (q : JacobianPoint),
      JacobianPoint.combine? s t q = some (JacobianPoint.combine s t q) := by
  have hsum := digitSum_eq_sum 2 s.sparseDigits
  rw [s.digitSum_sparseDigits, s.length_sparseDigits] at hsum
  refine ⟨SparseState.ends_start_iff s, s.length_sparseDigits, hsum.symm, fun d hd hne => ?_,
    s.spaced_sparseDigits, fun p d hd hne => ?_, JacobianPoint.combine?_eq_some s⟩
  · have hdigit := s.isSparseDigit_of_mem d hd
    exact ⟨Int.odd_iff.2 (hdigit.resolve_left hne).1, hdigit.abs_le_fifteen⟩
  · -- Half of an odd digit of at most 15 is an index below eight.
    have habs := (s.isSparseDigit_of_mem d hd).abs_le_fifteen
    exact ⟨JacobianPoint.natAbs_half_le_seven habs, JacobianPoint.selectOdd?_oddMultiples p habs⟩

set_option maxRecDepth 20000 in
/-- The largest scalar has a carry into its last digit, and two digits that are no further apart than
    they must be. -/
theorem Scalar.sparseDigits_exact_largest :
    SparseState.Ends (-1 : Scalar).word .start (.ok ⟨(-1 : Scalar).sparseDigits, 257, 0⟩)
    ∧ ∑ i ∈ Finset.range 257, (-1 : Scalar).sparseDigits.getD i 0 * 2 ^ i
      = 0xFFFFFFFFFFFFFFFFFFFFFFFFFFFFFFFEBAAEDCE6AF48A03BBFD25E8CD0364140
    ∧ (-1 : Scalar).sparseDigits.getD 256 0 = 1
    ∧ (-1 : Scalar).sparseDigits.getD 121 0 = -3
    ∧ (-1 : Scalar).sparseDigits.getD 126 0 = -5
    ∧ 121 + 5 ≤ 126 := by
  obtain ⟨hends, -, hsum, -, hspaced, -⟩ := sparseDigits_exact (-1)
  have hlast : (-1 : Scalar).sparseDigits.getD 256 0 = 1 := by cbv
  have hlow : (-1 : Scalar).sparseDigits.getD 121 0 = -3 := by cbv
  have hhigh : (-1 : Scalar).sparseDigits.getD 126 0 = -5 := by cbv
  have hfar := hspaced 121 126 (by decide) (by rw [hlow]; decide) (by rw [hhigh]; decide)
  exact ⟨(hends _).2 rfl, hsum.trans (by decide +kernel), hlast, hlow, hhigh, hfar⟩

end CurveSign
