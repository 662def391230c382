import CurveSign.Proofs.Curve.Order
import CurveSign.Proofs.Point.Value

namespace CurveSign

/-!
# Decompression

Decompressing an x-coordinate and a parity finds the point of the curve that compresses to them, if
there is one (`AffinePoint.decompress_eq_some_iff`).  Since no point has `y = 0`, the root and its
opposite have different parities, so both points of an x-coordinate are found.
-/

namespace AffinePoint

theorem isOdd_eq_val (y : FieldElement) : y.isOdd = decide (y.toZMod.val % 2 = 1) := by
  rw [Residue.isOdd_eq, Residue.val_toZMod]

/-- A point of the curve compresses to its x-coordinate and the parity of y. -/
theorem compressed_toGroup {x y : FieldElement} (h : (finite x y).OnCurve) :
    compressed (finite x y).toGroup = some (x.toZMod, y.isOdd) := by
  rw [toGroup_finite h, isOdd_eq_val]
  rfl

/-- The opposite has the other parity. -/
theorem isOdd_neg {y : FieldElement} (hy : y.toZMod ≠ 0) : (-y).isOdd = !y.isOdd := by
  have hparity := val_neg_mod_two hy
  rw [isOdd_eq_val, isOdd_eq_val, Residue.toZMod_neg]
  by_cases hodd : y.toZMod.val % 2 = 1
  · have heven : ¬ (-y.toZMod).val % 2 = 1 := by omega
    simp [hodd, heven]
  · have hneg : (-y.toZMod).val % 2 = 1 := by omega
    simp [hodd, hneg]

/-- One of a number and its opposite has the parity asked for. -/
theorem isOdd_select {y : FieldElement} (hy : y.toZMod ≠ 0) (yOdd : Bool) :
    (if y.isOdd == yOdd then y else -y).isOdd = yOdd := by
  split_ifs with h
  · exact eq_of_beq h
  · rw [isOdd_neg hy]
    revert h
    cases y.isOdd <;> cases yOdd <;> decide

/-- Whatever root is selected, it is a root. -/
theorem onCurve_select {x y : FieldElement} (h : (finite x y).OnCurve) (yOdd : Bool) :
    (finite x (if y.isOdd == yOdd then y else -y)).OnCurve := by
  split_ifs
  · exact h
  · exact h.neg

/-- The point found lies on the curve and has the parity asked for. -/
theorem decompress_sound {x : FieldElement} {yOdd : Bool} {q : AffinePoint}
    (h : decompress x yOdd = some q) :
    q.OnCurve ∧ compressed q.toGroup = some (x.toZMod, yOdd) := by
  rw [decompress, Option.map_eq_some_iff] at h
  obtain ⟨root, hroot, rfl⟩ := h
  obtain ⟨rfl, hsquare⟩ := FieldElement.sqrt?_eq_some_iff.1 hroot
  have hcurve : (finite x (cubic x).rootPower).OnCurve := by
    rw [onCurve_finite_iff, FieldElement.rootPower_sq_of_isSquare hsquare, toZMod_cubic]
  have hselect := onCurve_select hcurve yOdd
  refine ⟨hselect, ?_⟩
  rw [compressed_toGroup hselect, isOdd_select (y_ne_zero (onCurve_finite_iff.1 hcurve))]

/-- A point is found for the x-coordinate of any point of the curve. -/
theorem decompress_complete {x y : FieldElement} (h : (finite x y).OnCurve) (yOdd : Bool) :
    ∃ q, decompress x yOdd = some q := by
  have hsquare : IsSquare (cubic x).toZMod := by
    refine ⟨y.toZMod, ?_⟩
    rw [toZMod_cubic, ← sq]
    exact (onCurve_finite_iff.1 h).symm
  rw [decompress, FieldElement.sqrt?_eq_some_iff.2 ⟨rfl, hsquare⟩]
  exact ⟨_, rfl⟩

/-- **Decompression** finds the point that compresses to the x-coordinate and the parity. -/
theorem decompress_eq_some_iff {x : FieldElement} {yOdd : Bool} {q : AffinePoint} :
    decompress x yOdd = some q ↔ q.OnCurve ∧ compressed q.toGroup = some (x.toZMod, yOdd) := by
  refine ⟨decompress_sound, ?_⟩
  rintro ⟨hcurve, hcompressed⟩
  rcases q with _ | ⟨x', y⟩
  · exact absurd hcompressed nofun
  have hx := hcompressed
  rw [compressed_toGroup hcurve, Option.some.injEq, Prod.mk.injEq, Residue.toZMod_inj] at hx
  obtain rfl := hx.1
  obtain ⟨q, hq⟩ := decompress_complete hcurve yOdd
  -- Both points compress alike, and compression loses nothing.
  obtain ⟨hcurve', hcompressed'⟩ := decompress_sound hq
  have hgroup := compressed_injective (hcompressed'.trans hcompressed.symm)
  rw [hq, (toGroup_inj hcurve' hcurve).1 hgroup]

/-- The point found has the x-coordinate and the parity. -/
theorem decompress_eq_some_iff_coordinates {x : FieldElement} {yOdd : Bool} {q : AffinePoint} :
    decompress x yOdd = some q ↔ q.OnCurve ∧ q ≠ identity ∧ q.x = x ∧ q.y.isOdd = yOdd := by
  rw [decompress_eq_some_iff]
  refine and_congr_right fun hcurve => ?_
  rcases q with _ | ⟨x', y⟩
  · exact ⟨nofun, fun h => absurd rfl h.1⟩
  · rw [compressed_toGroup hcurve, Option.some.injEq, Prod.mk.injEq, Residue.toZMod_inj]
    exact (and_iff_right nofun).symm

end AffinePoint

end CurveSign
