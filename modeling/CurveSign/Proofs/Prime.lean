import CurveSign.Proofs.Horner
import CurveSign.Residue.Modulus
import Mathlib.NumberTheory.LucasPrimality
import Mathlib.Tactic.NormNum.Prime

namespace CurveSign

/-!
# Both moduli are prime

Lucas's test shows a number `p` prime from a primitive root modulo `p` and the prime factors of
`p - 1`.  Those factors are shown prime in the same way, from smaller ones, down to factors small
enough for trial division.

* `powMod_eq` — modular powers, computed bit by bit so that the kernel can evaluate them;
* `LucasStep.Holds.prime`, `LucasChain.prime` — one application of the test, and a list of them in
  which each may rely on the ones before;
* `coordinate_prime`, `order_prime` — the moduli of the coordinates and of the group order.
-/

/-- One bit of a modular power: square, and multiply where the bit is set. -/
def powModStep (m a : ℕ) (bit : Bool) (r : ℕ) : ℕ :=
  if bit then r * r % m * a % m else r * r % m

/-- The power `a ^ e` modulo `m`, for an exponent below `2 ^ 256`. -/
def powMod (m a e : ℕ) : ℕ :=
  (List.range 256).foldr (fun i r => powModStep m a (e.testBit i) r) (1 % m)

/-- One step squares the power, and multiplies by the base for a bit that is set. -/
theorem powModStep_eq (m a n : ℕ) (bit : Bool) :
    powModStep m a bit (a ^ n % m) = a ^ (2 * n + bit.toNat) % m := by
  have hsquare : a ^ n % m * (a ^ n % m) % m = a ^ (2 * n) % m := by
    rw [← Nat.mul_mod, ← pow_add, two_mul]
  cases bit
  · simpa [powModStep] using hsquare
  · rw [powModStep, if_pos rfl, hsquare, Nat.mod_mul_mod, ← pow_succ, Bool.toNat_true]

/-- Reading the bits of the exponent from the top computes the power. -/
theorem powMod_eq (m a : ℕ) {e : ℕ} (he : e < 2 ^ 256) : powMod m a e = a ^ e % m := by
  refine foldr_range_testBit (fun n r => r = a ^ n % m) (powModStep m a) (by rw [pow_zero]) ?_ he
  rintro n bit r rfl
  exact powModStep_eq m a n bit

/-! ### Lucas's test -/

/-- A number, a primitive root modulo it, and the prime factors of its predecessor, repeated as
    often as they divide it. -/
structure LucasStep where
  prime : ℕ
  root : ℕ
  factors : List ℕ

/-- What the test asks for: the order of the root is the whole of `prime - 1`. -/
structure LucasStep.Holds (s : LucasStep) : Prop where
  one_lt : 1 < s.prime
  prime_lt : s.prime < 2 ^ 256
  prod_factors : s.factors.prod = s.prime - 1
  pow_eq_one : powMod s.prime s.root (s.prime - 1) = 1
  pow_div_ne_one : ∀ q ∈ s.factors, powMod s.prime s.root ((s.prime - 1) / q) ≠ 1

instance (s : LucasStep) : Decidable s.Holds :=
  decidable_of_iff
    (1 < s.prime ∧ s.prime < 2 ^ 256 ∧ s.factors.prod = s.prime - 1 ∧
      powMod s.prime s.root (s.prime - 1) = 1 ∧
      ∀ q ∈ s.factors, powMod s.prime s.root ((s.prime - 1) / q) ≠ 1)
    ⟨fun ⟨h1, h2, h3, h4, h5⟩ => ⟨h1, h2, h3, h4, h5⟩, fun h => ⟨h.1, h.2, h.3, h.4, h.5⟩⟩

/-- A power of a residue is one exactly if the power of the number leaves the remainder one. -/
theorem natCast_pow_eq_one_iff {m : ℕ} (hm : 1 < m) (a e : ℕ) :
    (a : ZMod m) ^ e = 1 ↔ a ^ e % m = 1 := by
  have h := ZMod.natCast_eq_natCast_iff' (a ^ e) 1 m
  rwa [Nat.cast_pow, Nat.cast_one, Nat.mod_eq_of_lt hm] at h

/-- **Lucas's test.**  If the factors are prime and the root passes, the number is prime. -/
theorem LucasStep.Holds.prime {s : LucasStep} (h : s.Holds) (hfactors : ∀ q ∈ s.factors, q.Prime) :
    s.prime.Prime := by
  have hpow : ∀ e, e ≤ s.prime - 1 →
      ((s.root : ZMod s.prime) ^ e = 1 ↔ powMod s.prime s.root e = 1) := by
    intro e he
    have hlt := h.prime_lt
    rw [natCast_pow_eq_one_iff h.one_lt, powMod_eq _ _ (by omega)]
  refine lucas_primality s.prime (s.root : ZMod s.prime) ((hpow _ le_rfl).2 h.pow_eq_one) ?_
  intro q hq hdvd hone
  -- A prime divisor of the product is one of the listed factors.
  rw [← h.prod_factors, hq.prime.dvd_prod_iff] at hdvd
  obtain ⟨r, hr, hqr⟩ := hdvd
  obtain rfl := (Nat.prime_dvd_prime_iff_eq hq (hfactors r hr)).1 hqr
  exact h.pow_div_ne_one q hr ((hpow _ (Nat.div_le_self _ _)).1 hone)

/-- Every step holds, and its factors are known primes or numbers of earlier steps. -/
def LucasChain (known : List ℕ) : List LucasStep → Prop
  | [] => True
  | s :: rest => (∀ q ∈ s.factors, q ∈ known) ∧ s.Holds ∧ LucasChain (s.prime :: known) rest

instance decidableLucasChain :
    (known : List ℕ) → (steps : List LucasStep) → Decidable (LucasChain known steps)
  | _, [] => inferInstanceAs (Decidable True)
  | known, s :: rest =>
    have := decidableLucasChain (s.prime :: known) rest
    inferInstanceAs (Decidable ((∀ q ∈ s.factors, q ∈ known) ∧ s.Holds ∧ _))

/-- The numbers of a chain that starts from primes are prime. -/
theorem LucasChain.prime {known : List ℕ} {steps : List LucasStep}
    (hknown : ∀ q ∈ known, q.Prime) (h : LucasChain known steps) :
    ∀ s ∈ steps, s.prime.Prime := by
  induction steps generalizing known with
  | nil => simp
  | cons s rest ih =>
    obtain ⟨hlisted, hs, hrest⟩ := h
    have hprime := hs.prime fun q hq => hknown q (hlisted q hq)
    rw [List.forall_mem_cons]
    exact ⟨hprime, ih (List.forall_mem_cons.2 ⟨hprime, hknown⟩) hrest⟩

/-! ### The moduli of the curve -/

/-- The primes of trial division that the steps below start from. -/
def smallPrimes : List ℕ :=
  [2, 3, 5, 7, 11, 17, 29, 31, 41, 53, 59, 97, 109, 149, 293, 461, 631, 797, 971, 1373, 1627, 1871,
    2011, 2621, 2657, 2731, 4051, 4423, 5323, 7723, 9349, 13441, 16699, 20113, 24809, 28181, 41201,
    85831, 96557, 120233]

theorem prime_of_mem_smallPrimes : ∀ q ∈ smallPrimes, q.Prime := by
  norm_num [smallPrimes]

/-- The tests for the order `n` and the coordinate prime `p`, which come last. -/
def moduliSteps : List LucasStep :=
  [⟨305873, 3, [2, 2, 2, 2, 7, 2731]⟩,
    ⟨1206781, 10, [2, 2, 3, 5, 20113]⟩,
    ⟨1627771, 3, [2, 3, 5, 29, 1871]⟩,
    ⟨4681609, 23, [2, 2, 2, 3, 97, 2011]⟩,
    ⟨7240687, 3, [2, 3, 1206781]⟩,
    ⟨13331831, 13, [2, 5, 971, 1373]⟩,
    ⟨44706919, 6, [2, 3, 797, 9349]⟩,
    ⟨107590001, 3, [2, 2, 2, 2, 5, 5, 5, 5, 7, 29, 53]⟩,
    ⟨545358713, 5, [2, 2, 2, 41, 59, 28181]⟩,
    ⟨297159362677, 2, [2, 2, 3, 3, 11, 461, 1627771]⟩,
    ⟨107361793816595537, 3, [2, 2, 2, 2, 16699, 85831, 4681609]⟩,
    ⟨173378833005251801, 6, [2, 2, 2, 5, 5, 2621, 24809, 13331831]⟩,
    ⟨174723607534414371449, 3, [2, 2, 2, 17, 59, 4051, 120233, 44706919]⟩,
    ⟨22149492674086928081353, 5, [2, 2, 2, 3, 5323, 173378833005251801]⟩,
    ⟨132896956044521568488119, 6, [2, 3, 22149492674086928081353]⟩,
    ⟨29047611873442575647497758179, 2, [2, 293, 305873, 545358713, 297159362677]⟩,
    ⟨341948486974166000522343609283189, 2, [2, 2, 3, 3, 3, 109, 29047611873442575647497758179]⟩,
    ⟨255515944373312847190720520512484175977, 3,
      [2, 2, 2, 7, 7, 11, 1627, 2657, 4423, 41201, 96557, 7240687, 107590001]⟩,
    ⟨205115282021455665897114700593932402728804164701536103180137503955397371, 10,
      [2, 3, 5, 29, 29, 31, 7723, 132896956044521568488119,
        255515944373312847190720520512484175977]⟩,
    ⟨115792089237316195423570985008687907852837564279074904382605163141518161494337, 7,
      [2, 2, 2, 2, 2, 2, 3, 149, 631, 107361793816595537, 174723607534414371449,
        341948486974166000522343609283189]⟩,
    ⟨115792089237316195423570985008687907853269984665640564039457584007908834671663, 3,
      [2, 3, 7, 13441,
        205115282021455665897114700593932402728804164701536103180137503955397371]⟩]

theorem lucasChain_moduliSteps : LucasChain smallPrimes moduliSteps := by
  decide +kernel

theorem prime_of_mem_moduliSteps : ∀ s ∈ moduliSteps, s.prime.Prime :=
  lucasChain_moduliSteps.prime prime_of_mem_smallPrimes

theorem Modulus.toNat_coordinate : Modulus.coordinate.toNat =
    115792089237316195423570985008687907853269984665640564039457584007908834671663 := by
  decide

theorem Modulus.toNat_order : Modulus.order.toNat =
    115792089237316195423570985008687907852837564279074904382605163141518161494337 := by
  decide

/-- The modulus `p` of the coordinates is prime. -/
theorem coordinate_prime : Modulus.coordinate.toNat.Prime := by
  rw [Modulus.toNat_coordinate]
  exact prime_of_mem_moduliSteps
    ⟨115792089237316195423570985008687907853269984665640564039457584007908834671663, 3, _⟩
    (List.mem_of_getLast? rfl)

/-- The order `n` of the group is prime. -/
theorem order_prime : Modulus.order.toNat.Prime := by
  rw [Modulus.toNat_order]
  exact prime_of_mem_moduliSteps
    ⟨115792089237316195423570985008687907852837564279074904382605163141518161494337, 7, _⟩
    (List.mem_of_getElem? (i := 19) rfl)

instance : Fact Modulus.coordinate.toNat.Prime := ⟨coordinate_prime⟩

instance : Fact Modulus.order.toNat.Prime := ⟨order_prime⟩

end CurveSign
