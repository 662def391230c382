import CurveSign.Program.Points
import CurveSign.Proofs.Point.GroupLaw
import CurveSign.Proofs.Point.Record

namespace CurveSign

/-!
# No program leaves the curve

Every step of a program over points takes triples on the curve to triples on the curve
(`PointStep.satisfies_answer`), so all points that a program computes lie on it
(`onCurve_of_mem_runPoints`) and are converted to well-formed records: the identity to the coordinates
zero and zero with its flag set, which are written as zero bytes, and any other point to coordinates that
satisfy the equation with the flag not set, which are read back from what they are written as.
-/

open JacobianPoint

/-- **One step stays on the curve.** -/
theorem PointStep.satisfies_answer {get : ℕ → JacobianPoint} (hget : ∀ i, (get i).OnCurve)
    (s : PointStep) : (s.answer get).Satisfies JacobianPoint.OnCurve := by
  have hstands := fun i => (hget i).stands
  cases s with
  | generator => exact stands_generator.onCurve
  | identity => exact stands_identity.onCurve
  | sec1 bytes =>
    -- A refusal leaves no point; what is read has been checked against the equation.
    dsimp only [PointStep.answer]
    cases hread : AffinePoint.ofSec1 bytes with
    | error e => trivial
    | ok q => exact (stands_ofAffine (AffinePoint.ofSec1_eq_ok_iff.1 hread).1).onCurve
  | decompress x yOdd =>
    apply Answer.satisfies_ofOption
    intro p hp
    obtain ⟨q, hq, rfl⟩ := Option.map_eq_some_iff.1 hp
    exact (stands_ofAffine (AffinePoint.decompressBytes_eq_some_iff.1 hq).1).onCurve
  | double i => exact (hstands i).double.onCurve
  | add i j => exact ((hstands i).add (hstands j)).onCurve
  | addByCases i j => exact ((hstands i).addByCases (hstands j)).onCurve
  | sub i j => exact ((hstands i).sub (hstands j)).onCurve
  | neg i => exact (hstands i).neg.onCurve
  | multiply i k => exact ((hstands i).multiply k).onCurve
  | multiplyBase k => exact (stands_multiplyBase k).onCurve
  | combine u v i => exact ((hstands i).combine u v).onCurve
  | throughAffine i => exact (stands_ofAffine (hstands i).onCurve_toAffine).onCurve
  -- The steps on affine points go through well-formed records.
  | negAffine i => exact (hget i).wellFormed_toRecord.neg.onCurve_toJacobian
  | selectAffine i j second =>
    exact ((hget i).wellFormed_toRecord.select (hget j).wellFormed_toRecord second).onCurve_toJacobian
  | clearAffine i => exact AffineRecord.wellFormed_identity.onCurve_toJacobian
  | select i j second =>
    cases second
    · exact hget i
    · exact hget j
  | clear i => exact stands_identity.onCurve
  | isEqual i j => trivial
  | isIdentity i => trivial
  | hasX i x => cases x <;> trivial

/-- Every point that a program computes lies on the curve. -/
theorem onCurve_of_mem_runPoints {steps : List PointStep} {p : JacobianPoint}
    (h : .element p ∈ runPoints steps) : p.OnCurve :=
  satisfies_of_mem_runProgram stands_identity.onCurve
    (fun _ s hget => PointStep.satisfies_answer hget s) (List.forall_mem_nil _) h

/-- **No operation leaves the curve.**  The affine value of a computed point is the identity, with zeros
    for its coordinates, which is written as zeros, or it has reduced coordinates that satisfy the
    equation, and is read back from both of its forms.  So has the record that it is converted to, with
    the flag one for the identity and zero for any other point.  A step on affine points loses nothing of
    its record by putting it into a register as a triple. -/
theorem runPoints_wellFormed (steps : List PointStep) (p : JacobianPoint)
    (h : .element p ∈ runPoints steps) :
    p.OnCurve
    ∧ ((p.toAffine.isIdentity = true ∧ p.toAffine.x.toNat = 0 ∧ p.toAffine.y.toNat = 0
        ∧ p.toAffine.toCompressed = List.replicate 33 0
        ∧ p.toAffine.toUncompressed = List.replicate 65 0)
      ∨ (p.toAffine.isIdentity = false
        ∧ p.toAffine.x.toNat < Modulus.coordinate.toNat
        ∧ p.toAffine.y.toNat < Modulus.coordinate.toNat
        ∧ p.toAffine.y.toNat ^ 2 % Modulus.coordinate.toNat
          = (p.toAffine.x.toNat ^ 3 + 7) % Modulus.coordinate.toNat
        ∧ AffinePoint.ofSec1 p.toAffine.toCompressed = .ok p.toAffine
        ∧ AffinePoint.ofSec1 p.toAffine.toUncompressed = .ok p.toAffine))
    ∧ p.toRecord = p.toAffine.toRecord
    ∧ ((p.toRecord.infinity = 1 ∧ p.toRecord.x.toNat = 0 ∧ p.toRecord.y.toNat = 0
        ∧ p.toRecord.toCompressed = List.replicate 33 0
        ∧ p.toRecord.toUncompressed = List.replicate 65 0)
      ∨ (p.toRecord.infinity = 0
        ∧ p.toRecord.x.toNat < Modulus.coordinate.toNat
        ∧ p.toRecord.y.toNat < Modulus.coordinate.toNat
        ∧ p.toRecord.y.toNat ^ 2 % Modulus.coordinate.toNat
          = (p.toRecord.x.toNat ^ 3 + 7) % Modulus.coordinate.toNat
        ∧ AffineRecord.ofSec1 p.toRecord.toCompressed = .ok p.toRecord
        ∧ AffineRecord.ofSec1 p.toRecord.toUncompressed = .ok p.toRecord))
    ∧ ∀ r : AffineRecord, r.WellFormed → r.toJacobian.toRecord = r := by
  have hcurve := onCurve_of_mem_runPoints h
  have haffine := hcurve.stands.onCurve_toAffine
  exact ⟨hcurve, haffine.cases_identity, p.toRecord_eq, hcurve.wellFormed_toRecord.cases_infinity,
    fun r hr => hr.toRecord_toJacobian⟩

/-- The base point and its opposite cancel, and the combination of the base point with what they leave
    is the base point again. -/
theorem runPoints_wellFormed_cancelling :
    runPoints [.generator, .neg 0, .addByCases 0 1, .combine 1 1 2]
      = [.element generator, .element (-generator), .element (generator.addByCases (-generator)),
        .element (combine 1 1 (generator.addByCases (-generator)))]
    ∧ (generator.addByCases (-generator)).OnCurve
    ∧ (generator.addByCases (-generator)).toAffine.toCompressed = List.replicate 33 0
    ∧ (generator.addByCases (-generator)).toRecord = .identity
    ∧ (generator.addByCases (-generator)).toRecord.toCompressed = List.replicate 33 0
    ∧ (combine 1 1 (generator.addByCases (-generator))).OnCurve
    ∧ AffinePoint.ofSec1
        (combine 1 1 (generator.addByCases (-generator))).toAffine.toUncompressed
      = .ok AffinePoint.generator
    ∧ AffineRecord.ofSec1
        (combine 1 1 (generator.addByCases (-generator))).toRecord.toUncompressed
      = .ok (.ofCoordinates AffinePoint.generatorX AffinePoint.generatorY) := by
  have hrun : runPoints [.generator, .neg 0, .addByCases 0 1, .combine 1 1 2]
      = [.element generator, .element (-generator), .element (generator.addByCases (-generator)),
        .element (combine 1 1 (generator.addByCases (-generator)))] := by
    simp only [runPoints, runProgram, PointStep.answer, Answer.register, List.nil_append,
      List.cons_append, List.getD_cons_zero, List.getD_cons_succ]
  have hsum := stands_generator.addByCases stands_generator.neg
  rw [add_neg_cancel] at hsum
  have hcombine := hsum.combine 1 1
  rw [smul_zero, add_zero, Residue.toZMod_one, one_smul] at hcombine
  generalize generator.addByCases (-generator) = p at *
  generalize combine 1 1 p = q at *
  have hp : p.toAffine = .identity :=
    (AffinePoint.toGroup_eq_zero_iff hsum.onCurve_toAffine).1 hsum.toGroup_toAffine
  have hq : q.toAffine = .generator := by
    rw [← AffinePoint.toGroup_inj hcombine.onCurve_toAffine onCurve_generator,
      hcombine.toGroup_toAffine, toGroup_generator]
  have hpMem : .element p ∈ runPoints [.generator, .neg 0, .addByCases 0 1, .combine 1 1 2] := by
    rw [hrun]
    simp
  have hqMem : .element q ∈ runPoints [.generator, .neg 0, .addByCases 0 1, .combine 1 1 2] := by
    rw [hrun]
    simp
  obtain ⟨hpCurve, hpForm, hpRecord, hpForm', -⟩ := runPoints_wellFormed _ p hpMem
  obtain ⟨hqCurve, hqForm, hqRecord, hqForm', -⟩ := runPoints_wellFormed _ q hqMem
  rw [hp] at hpForm hpRecord ⊢
  rw [hq] at hqForm hqRecord ⊢
  rw [hpRecord] at hpForm' ⊢
  rw [hqRecord] at hqForm' ⊢
  -- Of the two cases, the identity excludes the second and the base point the first.
  have hzeros := hpForm.resolve_right fun h => absurd h.1 (by decide)
  have hzeros' := hpForm'.resolve_right fun h => absurd h.1 (by decide)
  have hfinite := hqForm.resolve_left fun h => absurd h.1 (by decide)
  have hfinite' := hqForm'.resolve_left fun h => absurd h.1 (by decide)
  exact ⟨hrun, hpCurve, hzeros.2.2.2.1, rfl, hzeros'.2.2.2.1, hqCurve, hfinite.2.2.2.2.2,
    hfinite'.2.2.2.2.2⟩

end CurveSign
