import CurveSign.Proofs.Curve.Order
import CurveSign.Proofs.Point.Addition
import CurveSign.Proofs.Recoding.NonAdjacent
import CurveSign.Proofs.Recoding.Radix16
import CurveSign.Point.Multiple
import Mathlib.Data.List.TakeWhile
import Mathlib.Tactic.Module

namespace CurveSign

/-!
# Multiplying points

Horner's rule over digits that spell a scalar gives the multiple by it.  The tables hold the
multiples by the digits (`stands_chain`), a step keeps "the sum so far is the multiple by the digits
so far" (`Stands.radix16Step`, `Stands.combineStep`), and so both ways to multiply give the group's
multiples (`Stands.multiply`, `Stands.combine`).
-/

namespace JacobianPoint

variable {p q : JacobianPoint} {g g' : CurvePoint}

/-! ### Tables -/

/-- The points of a chain, if `next` adds one and the same point to each. -/
theorem stands_chain {next : JacobianPoint → JacobianPoint} {step : CurvePoint}
    (hnext : ∀ q g, q.Stands g → (next q).Stands (g + step)) (h : p.Stands g) {count i : ℕ}
    (hi : i < count) : ((chain next p count).getD i identity).Stands (g + i • step) := by
  -- The rest of a chain is a chain from the next point on.
  induction count generalizing p g i with
  | zero => omega
  | succ count ih =>
    cases i with
    | zero => simpa [chain] using h
    | succ i =>
      have hrest := ih (hnext p g h) (Nat.lt_of_succ_lt_succ hi)
      rw [add_assoc, ← succ_nsmul'] at hrest
      simpa [chain] using hrest

/-! ### Digits that count -/

/-- Above the highest place that counts there are only zeros. -/
theorem exists_significant_append (ds : List (ℤ × ℤ)) :
    ∃ count, ds = significant ds ++ List.replicate count (0, 0) := by
  have hzeros : ∀ d ∈ ds.reverse.takeWhile fun d => d.1 == 0 && d.2 == 0, d = (0, 0) := by
    rintro ⟨d, d'⟩ hd
    have hzero := List.mem_takeWhile_imp hd
    rw [Bool.and_eq_true, beq_iff_eq, beq_iff_eq] at hzero
    exact Prod.ext hzero.1 hzero.2
  refine ⟨(ds.reverse.takeWhile fun d => d.1 == 0 && d.2 == 0).length, ?_⟩
  rw [← List.reverse_inj, List.reverse_append, List.reverse_replicate, significant,
    List.reverse_reverse, ← List.eq_replicate_length.2 hzeros, List.takeWhile_append_dropWhile]

/-- The pairs that count are among the pairs. -/
theorem mem_of_mem_significant {ds : List (ℤ × ℤ)} {d : ℤ × ℤ} (h : d ∈ significant ds) : d ∈ ds := by
  obtain ⟨count, hds⟩ := exists_significant_append ds
  rw [hds]
  exact List.mem_append_left _ h

/-- The digits that count spell what all digits spell, in both lists. -/
theorem digitSum_significant (base : ℤ) (ds : List (ℤ × ℤ)) :
    digitSum base ((significant ds).map Prod.fst) = digitSum base (ds.map Prod.fst)
    ∧ digitSum base ((significant ds).map Prod.snd) = digitSum base (ds.map Prod.snd) := by
  obtain ⟨count, hds⟩ := exists_significant_append ds
  have hfst := congrArg (digitSum base ∘ List.map Prod.fst) hds
  have hsnd := congrArg (digitSum base ∘ List.map Prod.snd) hds
  simp only [Function.comp_apply, List.map_append, List.map_replicate,
    digitSum_append_replicate] at hfst hsnd
  exact ⟨hfst.symm, hsnd.symm⟩

namespace Stands

/-- The first multiples are the multiples. -/
theorem firstMultiples (h : p.Stands g) {i : ℕ} (hi : i < 8) :
    (p.firstMultiples.getD i identity).Stands ((i + 1) • g) := by
  rw [succ_nsmul']
  refine stands_chain (fun q g' hq => ?_) h hi
  rw [add_comm]
  exact h.add hq

/-- Place `i` of the table of odd multiples holds the multiple by `2 * i + 1`. -/
theorem oddMultiples (h : p.Stands g) {i : ℕ} (hi : i < 8) :
    (p.oddMultiples.getD i identity).Stands ((2 * i + 1) • g) := by
  rw [succ_nsmul', mul_nsmul, two_nsmul]
  exact stands_chain (fun q g' hq => hq.addByCases h.double) h hi

/-- The opposite is taken for a negative digit. -/
theorem withSign {digit : ℤ} (h : p.Stands (digit.natAbs • g)) :
    (withSign digit p).Stands (digit • g) := by
  rw [← natCast_zsmul] at h
  unfold JacobianPoint.withSign
  split_ifs with hneg
  · have habs : digit = -(digit.natAbs : ℤ) := by omega
    rw [habs, neg_zsmul]
    exact h.neg
  · have habs : (digit.natAbs : ℤ) = digit := by omega
    rwa [habs] at h

/-- The table of first multiples serves the digits up to 8 in size. -/
theorem selectMultiple (h : p.Stands g) {digit : ℤ} (hd : -8 ≤ digit ∧ digit ≤ 8) :
    (selectMultiple p.firstMultiples digit).Stands (digit • g) := by
  unfold JacobianPoint.selectMultiple
  split_ifs with hzero
  · rw [hzero, zero_zsmul]
    exact stands_identity
  · refine withSign ?_
    have hindex : digit.natAbs - 1 + 1 = digit.natAbs := by omega
    rw [← hindex]
    exact h.firstMultiples (by omega)

/-- The table of odd multiples serves the odd digits up to 15 in size. -/
theorem selectOdd (h : p.Stands g) {digit : ℤ}
    (hd : digit % 2 = 1 ∧ -15 ≤ digit ∧ digit ≤ 15) :
    (selectOdd p.oddMultiples digit).Stands (digit • g) := by
  refine withSign ?_
  have hindex : 2 * (digit.natAbs / 2) + 1 = digit.natAbs := by omega
  have hlt : digit.natAbs / 2 < 8 := by omega
  have hmultiple := h.oddMultiples hlt
  rwa [hindex] at hmultiple

/-! ### Base 16 -/

/-- One step shifts the sum by a digit in base 16 and adds the next digit. -/
theorem radix16Step (h : p.Stands g) {digit k : ℤ} (hd : -8 ≤ digit ∧ digit ≤ 8)
    (hq : q.Stands (k • g)) :
    (radix16Step p.firstMultiples digit q).Stands ((digit + 16 * k) • g) := by
  -- Four doublings double the sum so far four times.
  have hsum : (digit + 16 * k) • g
      = (k • g + k • g + (k • g + k • g) + (k • g + k • g + (k • g + k • g))
        + (k • g + k • g + (k • g + k • g) + (k • g + k • g + (k • g + k • g)))) + digit • g := by
    simp only [← add_zsmul]
    congr 1
    ring
  rw [hsum]
  exact hq.double.double.double.double.add (h.selectMultiple hd)

/-- Horner's rule from the multiple by the top digit gives the multiple by all digits. -/
theorem foldr_radix16Step (h : p.Stands g) {ds : List ℤ} {top : ℤ}
    (hds : ∀ d ∈ ds ++ [top], -8 ≤ d ∧ d ≤ 8) :
    (ds.foldr (JacobianPoint.radix16Step p.firstMultiples)
      (JacobianPoint.selectMultiple p.firstMultiples top)).Stands (digitSum 16 (ds ++ [top]) • g) := by
  induction ds with
  | nil =>
    rw [List.nil_append, digitSum_cons, digitSum_nil, mul_zero, add_zero]
    exact h.selectMultiple (hds top (List.mem_singleton_self top))
  | cons d ds ih =>
    rw [List.cons_append, List.forall_mem_cons] at hds
    exact h.radix16Step hds.1 (ih hds.2)

/-- **Multiplication by a scalar** is the multiple in the group. -/
theorem multiply (h : p.Stands g) (k : Scalar) : (multiply p k).Stands (k.toZMod • g) := by
  have hbounds := k.mem_radix16_bounds
  rw [← k.take_radix16_append] at hbounds
  have hmultiple := h.foldr_radix16Step hbounds
  rw [k.take_radix16_append, Scalar.digitSum_radix16, natCast_zsmul, ← natCast_smul] at hmultiple
  exact hmultiple

/-! ### Two scalars at once -/

/-- Adding a digit adds its multiple; a zero is skipped. -/
theorem addDigit (h : p.Stands g) {digit : ℤ} (hd : Scalar.IsSparseDigit digit)
    (hq : q.Stands g') :
    (addDigit p.oddMultiples digit q).Stands (g' + digit • g) := by
  unfold JacobianPoint.addDigit
  split_ifs with hzero
  · rwa [hzero, zero_zsmul, add_zero]
  · exact hq.addByCases (h.selectOdd (hd.resolve_left hzero))

/-- One step doubles the sum of both and adds a digit of each. -/
theorem combineStep (h : p.Stands g) (h' : q.Stands g') {digits : ℤ × ℤ} {k k' : ℤ}
    {sum : JacobianPoint} (hd : Scalar.IsSparseDigit digits.1)
    (hd' : Scalar.IsSparseDigit digits.2) (hsum : sum.Stands (k • g + k' • g')) :
    (combineStep p.oddMultiples q.oddMultiples digits sum).Stands
      ((digits.1 + 2 * k) • g + (digits.2 + 2 * k') • g') := by
  have hvalue : (digits.1 + 2 * k) • g + (digits.2 + 2 * k') • g'
      = k • g + k' • g' + (k • g + k' • g') + digits.1 • g + digits.2 • g' := by
    module
  rw [hvalue]
  exact h'.addDigit hd' (h.addDigit hd hsum.double)

/-- Horner's rule over pairs of digits gives the sum of both multiples. -/
theorem foldr_combineStep (h : p.Stands g) (h' : q.Stands g') {ds : List (ℤ × ℤ)}
    (hds : ∀ d ∈ ds, Scalar.IsSparseDigit d.1 ∧ Scalar.IsSparseDigit d.2) :
    (ds.foldr (JacobianPoint.combineStep p.oddMultiples q.oddMultiples) identity).Stands
      (digitSum 2 (ds.map Prod.fst) • g + digitSum 2 (ds.map Prod.snd) • g') := by
  induction ds with
  | nil =>
    rw [List.map_nil, List.map_nil, digitSum_nil, zero_zsmul, zero_zsmul, add_zero]
    exact stands_identity
  | cons d ds ih =>
    rw [List.forall_mem_cons] at hds
    exact h.combineStep h' hds.1.1 hds.1.2 (ih hds.2)

end Stands

/-! ### The base point -/

theorem onCurve_generator : AffinePoint.generator.OnCurve :=
  .finite (isOnCurve_iff.1 isOnCurve_generator)

theorem toGroup_generator : AffinePoint.generator.toGroup = basePoint :=
  AffinePoint.toGroup_finite onCurve_generator

/-- The first triple of the base point. -/
theorem stands_generator : generator.Stands basePoint := by
  rw [← toGroup_generator]
  exact stands_ofAffine onCurve_generator

theorem stands_multiplyBase (k : Scalar) : (multiplyBase k).Stands (k.toZMod • basePoint) :=
  stands_generator.multiply k

/-- The digits that count are sparse digits of the scalars. -/
theorem isSparseDigit_of_mem_significant (u v : Scalar) :
    ∀ d ∈ significant (u.sparseDigits.zip v.sparseDigits),
      Scalar.IsSparseDigit d.1 ∧ Scalar.IsSparseDigit d.2 := by
  rintro ⟨d, d'⟩ hd
  obtain ⟨hu, hv⟩ := List.of_mem_zip (mem_of_mem_significant hd)
  exact ⟨u.isSparseDigit_of_mem d hu, v.isSparseDigit_of_mem d' hv⟩

/-- **Combination** is the sum of the multiples of the base point and of the given point. -/
theorem Stands.combine (h : q.Stands g) (u v : Scalar) :
    (combine u v q).Stands (u.toZMod • basePoint + v.toZMod • g) := by
  have hlength : u.sparseDigits.length = v.sparseDigits.length := by
    rw [Scalar.length_sparseDigits, Scalar.length_sparseDigits]
  have hsum := stands_generator.foldr_combineStep h (isSparseDigit_of_mem_significant u v)
  -- Both lists have a digit for every place, so pairing them loses none.
  rw [(digitSum_significant 2 _).1, (digitSum_significant 2 _).2, List.map_fst_zip hlength.le,
    List.map_snd_zip hlength.ge, Scalar.digitSum_sparseDigits, Scalar.digitSum_sparseDigits,
    natCast_zsmul, natCast_zsmul, ← natCast_smul, ← natCast_smul] at hsum
  exact hsum

end JacobianPoint

end CurveSign
