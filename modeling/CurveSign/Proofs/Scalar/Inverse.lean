import CurveSign.Proofs.Residue.Power
import CurveSign.Proofs.Scalar.Euclid

namespace CurveSign

/-!
# Inverses of scalars

The loop that halves and subtracts, written with two inner loops and without any test for zero: a
derivation of `Halving` or `EuclidLoop` is a run that ends, so that a zero, which is halved for ever, has
none.

* `exists_halving` — the inner loop ends on every number but zero;
* `exists_euclidLoop` — under `EuclidInvariant` neither inner loop meets a zero, each turn makes the sum
  of the two numbers smaller, and so the loop ends;
* `EuclidLoop.mul_eq_one` — what it ends with is the inverse;
* `inverse_exact` — both ways to the inverse of a scalar give the one scalar that is inverse to it.
-/

namespace Scalar

/-! ### The loop -/

/-- A run of an inner loop: an even number is halved together with its companion until it is odd. -/
inductive Halving : Word256 → Scalar → Word256 → Scalar → Prop
  | stop {u : Word256} {x : Scalar} (hodd : u.isOdd = true) : Halving u x u x
  | turn {u u' : Word256} {x x' : Scalar} (heven : u.isOdd = false)
      (rest : Halving (u.shiftRightOne false) x.halve u' x') : Halving u x u' x'

/-- A run of the loop from `u`, `v`, `x` and `y` on: while neither number is one, both are made odd and
    the smaller is subtracted from the larger.  The result is the companion of the number that is one. -/
inductive EuclidLoop : Word256 → Word256 → Scalar → Scalar → Scalar → Prop
  | left {v : Word256} {x y : Scalar} : EuclidLoop Word256.one v x y x
  | right {u : Word256} {x y : Scalar} (hu : u ≠ Word256.one) : EuclidLoop u Word256.one x y y
  | subLeft {u v u' v' : Word256} {x y x' y' t : Scalar} (hu : u ≠ Word256.one)
      (hv : v ≠ Word256.one) (hx : Halving u x u' x') (hy : Halving v y v' y')
      (hle : u'.compare v' ≠ .lt)
      (rest : EuclidLoop (u'.subBorrow v').1 v' (x' - y') y' t) : EuclidLoop u v x y t
  | subRight {u v u' v' : Word256} {x y x' y' t : Scalar} (hu : u ≠ Word256.one)
      (hv : v ≠ Word256.one) (hx : Halving u x u' x') (hy : Halving v y v' y')
      (hlt : u'.compare v' = .lt)
      (rest : EuclidLoop u' (v'.subBorrow u').1 x' (y' - x') t) : EuclidLoop u v x y t

variable {s x y x' t : Scalar} {u v u' : Word256}

/-- The smaller of two numbers is subtracted without a borrow. -/
theorem borrow_of_compare_ne_lt (h : u.compare v ≠ .lt) : (u.subBorrow v).2 = false := by
  rw [Word256.compare_eq, Ne, Nat.compare_eq_lt] at h
  rw [Word256.subBorrow_borrow, decide_eq_false h]

/-- The smaller one is subtracted without a borrow. -/
theorem borrow_of_compare_eq_lt (h : u.compare v = .lt) : (v.subBorrow u).2 = false := by
  rw [Word256.compare_eq, Nat.compare_eq_lt] at h
  rw [Word256.subBorrow_borrow, decide_eq_false h.not_gt]

/-! ### The inner loops -/

namespace Halving

/-- A number is odd once it has been halved as often as possible, and so it is not zero. -/
theorem ne_zero (h : Halving u x u' x') : u' ≠ Word256.zero := by
  induction h with
  | stop hodd =>
    rintro rfl
    exact absurd hodd (by decide)
  | turn _ _ ih => exact ih

/-- Halving makes no number larger. -/
theorem toNat_le (h : Halving u x u' x') : u'.toNat ≤ u.toNat := by
  induction h with
  | stop _ => exact le_rfl
  | turn _ _ ih =>
    apply ih.trans
    rw [Word256.shiftRightOne_value, Bool.toNat_false]
    omega

/-- Halving keeps the invariant. -/
theorem invariant (h : Halving u x u' x') (hinv : EuclidInvariant s u v x y) :
    EuclidInvariant s u' v x' y := by
  induction h with
  | stop _ => exact hinv
  | turn heven _ ih => exact ih (hinv.halve heven)

end Halving

/-- **The inner loop ends** on every number but zero. -/
theorem exists_halving (hu : u ≠ Word256.zero) (x : Scalar) : ∃ u' x', Halving u x u' x' := by
  induction hn : u.toNat using Nat.strong_induction_on generalizing u x with
  | _ n ih =>
    by_cases hodd : u.isOdd = true
    · exact ⟨u, x, .stop hodd⟩
    · rw [Bool.not_eq_true] at hodd
      -- The half of an even number is not zero unless the number is.
      have hhalf : u.shiftRightOne false ≠ Word256.zero := by
        have hpos := toNat_pos hu
        rw [Word256.isOdd_eq, decide_eq_false_iff_not] at hodd
        rw [← Word256.toNat_inj.ne, Word256.shiftRightOne_value, Word256.toNat_zero]
        simp only [Bool.toNat_false]
        omega
      obtain ⟨u', x', hrest⟩ := ih _ (hn ▸ toNat_shiftRightOne_lt hu) hhalf x.halve rfl
      exact ⟨u', x', .turn hodd hrest⟩

/-! ### The outer loop -/

/-- **What the loop ends with** is the inverse. -/
theorem EuclidLoop.mul_eq_one (h : EuclidLoop u v x y t) (hinv : EuclidInvariant s u v x y) :
    s.toZMod * t.toZMod = 1 := by
  have hone : (Word256.one.toNat : ZMod Modulus.order.toNat) = 1 := Nat.cast_one
  -- On the turns of the loop, each of which halves both sides and subtracts the smaller one.
  induction h with
  | left => exact hinv.left.symm.trans hone
  | right _ => exact hinv.right.symm.trans hone
  | subLeft _ _ hx hy hle _ ih =>
    have hodd := (hy.invariant (hx.invariant hinv).symm).symm
    exact ih (hodd.sub (borrow_of_compare_ne_lt hle))
  | subRight _ _ hx hy hlt _ ih =>
    have hodd := hy.invariant (hx.invariant hinv).symm
    exact ih (hodd.sub (borrow_of_compare_eq_lt hlt)).symm

/-- **The loop ends** from numbers without a common factor. -/
theorem exists_euclidLoop (hinv : EuclidInvariant s u v x y) : ∃ t, EuclidLoop u v x y t := by
  induction hn : u.toNat + v.toNat using Nat.strong_induction_on generalizing u v x y with
  | _ n ih =>
    by_cases hu : u = Word256.one
    · exact ⟨x, hu ▸ .left⟩
    by_cases hv : v = Word256.one
    · exact ⟨y, hv ▸ .right hu⟩
    have hu0 : u ≠ Word256.zero := fun hzero => hv (hzero ▸ hinv).eq_one_of_left_eq_zero
    have hv0 : v ≠ Word256.zero := fun hzero => hu (hzero ▸ hinv.symm).eq_one_of_left_eq_zero
    obtain ⟨u', x', hx⟩ := exists_halving hu0 x
    obtain ⟨v', y', hy⟩ := exists_halving hv0 y
    have hodd := (hy.invariant (hx.invariant hinv).symm).symm
    have hule := hx.toNat_le
    have hvle := hy.toNat_le
    -- Both numbers are odd, so what is subtracted is not zero and the sum of the two gets smaller.
    by_cases hlt : u'.compare v' = .lt
    · have hborrow := borrow_of_compare_eq_lt hlt
      have hless := toNat_subBorrow_lt hx.ne_zero hborrow
      obtain ⟨t, hrest⟩ := ih _ (by omega) (hodd.symm.sub hborrow).symm rfl
      exact ⟨t, .subRight hu hv hx hy hlt hrest⟩
    · have hborrow := borrow_of_compare_ne_lt hlt
      have hless := toNat_subBorrow_lt hy.ne_zero hborrow
      obtain ⟨t, hrest⟩ := ih _ (by omega) (hodd.sub hborrow) rfl
      exact ⟨t, .subLeft hu hv hx hy hlt hrest⟩

/-- From a scalar and the order, the loop ends with the inverse and with nothing else. -/
theorem euclidLoop_iff {a t : Scalar} (ha : a.toZMod ≠ 0) :
    EuclidLoop a.word Modulus.orderWord 1 0 t ↔ a.toZMod * t.toZMod = 1 := by
  have hinv := euclidInvariant_start ha
  refine ⟨fun h => h.mul_eq_one hinv, fun hinverse => ?_⟩
  obtain ⟨t', h⟩ := exists_euclidLoop hinv
  have hsame := mul_left_cancel₀ ha ((h.mul_eq_one hinv).trans hinverse.symm)
  rwa [Residue.toZMod_inj.1 hsame] at h

/-! ### Both inverses -/

/-- Both ways to the inverse agree. -/
theorem invertByEuclid?_eq_invert? (s : Scalar) : s.invertByEuclid? = s.invert? := by
  by_cases hs : s.toZMod = 0
  · have hzero := Residue.isZero_iff_toZMod.2 hs
    rw [invertByEuclid?, invert?, if_pos hzero, if_pos hzero]
  · obtain ⟨t, ht, hvalue⟩ := invertByEuclid?_eq_some hs
    obtain ⟨t', ht', hvalue'⟩ := invert?_eq_some hs
    rw [ht, ht', Residue.toZMod_inj.1 (hvalue.trans hvalue'.symm)]

theorem mul_mod_eq_one_iff {a b : Scalar} :
    a.toNat * b.toNat % Modulus.order.toNat = 1 ↔ a.toZMod * b.toZMod = 1 :=
  Residue.mul_mod_eq_one_iff

/-- **Inverses of scalars.** For every scalar but zero the loop that halves and subtracts ends, with the
    one scalar whose product with it is one modulo `n`, and the power gives the same.  Zero has no
    inverse in either way. -/
theorem inverse_exact :
    (∀ a : Scalar, a ≠ 0 → ∃ b : Scalar,
      (∀ t, EuclidLoop a.word Modulus.orderWord 1 0 t ↔ t = b)
      ∧ a.invertByEuclid? = some b ∧ a.invert? = some b
      ∧ ∀ c : Scalar, a.toNat * c.toNat % Modulus.order.toNat = 1 ↔ c = b)
    ∧ (0 : Scalar).invertByEuclid? = none ∧ (0 : Scalar).invert? = none := by
  refine ⟨?_, rfl, rfl⟩
  intro a ha
  have ha' : a.toZMod ≠ 0 := mt Residue.toZMod_eq_zero_iff.1 ha
  obtain ⟨b, hb, hvalue⟩ := invertByEuclid?_eq_some ha'
  -- Everything said of the result is that it is the one inverse of a.
  have hunique : ∀ c : Scalar, a.toZMod * c.toZMod = 1 ↔ c = b := by
    intro c
    rw [← Residue.toZMod_inj, hvalue, mul_comm, mul_eq_one_iff_eq_inv₀ ha']
  refine ⟨b, ?_, hb, ?_, ?_⟩
  · intro t
    rw [euclidLoop_iff ha', hunique]
  · rw [← invertByEuclid?_eq_invert?, hb]
  · intro c
    rw [mul_mod_eq_one_iff, hunique]

/-- The inverse of two, which is the half of one, and that of `n - 1`, which is its own. -/
theorem inverse_exact_two :
    (Residue.ofWord 2 : Scalar) ≠ 0
    ∧ EuclidLoop ⟨2, 0, 0, 0⟩ Modulus.orderWord 1 0 (Residue.halve 1)
    ∧ invertByEuclid? (Residue.ofWord 2) = some (Residue.halve 1)
    ∧ (-1 : Scalar) ≠ 0 ∧ invertByEuclid? (-1) = some (-1) ∧ invert? (-1) = some (-1) := by
  have htwo : (Residue.ofWord 2 : Scalar) ≠ 0 := by decide
  have hlast : (-1 : Scalar) ≠ 0 := by decide
  obtain ⟨b, hloop, hb, -, hunique⟩ := inverse_exact.1 _ htwo
  obtain rfl := (hunique (Residue.halve 1)).1 (by decide +kernel)
  obtain ⟨b', -, hb', hpower, hunique'⟩ := inverse_exact.1 _ hlast
  obtain rfl := (hunique' (-1)).1 (by decide +kernel)
  exact ⟨htwo, (hloop _).2 rfl, hb, hlast, hb', hpower⟩

end Scalar

end CurveSign
