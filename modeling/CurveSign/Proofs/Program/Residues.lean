import CurveSign.Program.Residues
import CurveSign.Proofs.Residue.Integer
import CurveSign.Proofs.Scalar.Inverse
import CurveSign.Proofs.Signature.Signing

namespace CurveSign

/-!
# Programs compute with integers modulo the modulus

A program over residues has a twin over the integers, in which a sum is the remainder of the sum, a
product that of the product, and so on, and the tests are those of the integers.  Every step answers
like its twin (`RingStep.map_answer`, `FieldStep.map_answer`, `ScalarStep.map_answer`), so every program
does (`map_runField`, `map_runScalar`).  With the reading and writing of bytes this makes field elements
the integers modulo `p` (`runField_exact`) and scalars the integers modulo `n` (`runScalar_exact`).
-/

/-! ### Steps that both share -/

/-- The answer of a step over integers modulo `modulus`. -/
def RingStep.integerAnswer (modulus : ℕ) (get : ℕ → ℤ) : RingStep → Answer ℤ
  | add i j => .element ((get i + get j) % modulus)
  | sub i j => .element ((get i - get j) % modulus)
  | mul i j => .element (get i * get j % modulus)
  | neg i => .element (-get i % modulus)
  | double i => .element (2 * get i % modulus)
  | square i => .element (get i ^ 2 % modulus)
  | select i j second => .element (if second then get j else get i)
  | clear _ => .element 0
  | isZero i => .truth (decide (get i = 0))
  | isEqual i j => .truth (decide (get i = get j))

/-- **One step** of ring arithmetic answers like its twin. -/
theorem RingStep.map_answer {m : Modulus} (get : ℕ → Residue m) (s : RingStep) :
    (s.answer get).map Residue.toInt = s.integerAnswer m.toNat fun i => (get i).toInt := by
  cases s with
  -- The result is in the ring what the integers give, so it is their remainder.
  | add i j | sub i j | mul i j | neg i | double i | square i =>
    exact congrArg Answer.element (Residue.toInt_eq_emod (by simp))
  | select i j second => exact congrArg Answer.element (apply_ite Residue.toInt _ _ _)
  | clear i => rfl
  | isZero i => exact congrArg Answer.truth (Residue.isZero_eq_decide _)
  | isEqual i j => exact congrArg Answer.truth (Residue.beq_eq_decide _ _)

/-! ### Field elements -/

/-- The answer of a step over integers modulo `p`, with inverses and square roots as powers. -/
def FieldStep.integerAnswer (get : ℕ → ℤ) : FieldStep → Answer ℤ
  | ring step => step.integerAnswer Modulus.coordinate.toNat get
  | invert i =>
    .ofOption <| if get i = 0 then none
      else some (get i ^ (Modulus.coordinate.toNat - 2) % Modulus.coordinate.toNat)
  | sqrt i =>
    let root := get i ^ ((Modulus.coordinate.toNat + 1) / 4) % Modulus.coordinate.toNat
    .ofOption <| if root ^ 2 % Modulus.coordinate.toNat = get i then some root else none
  | isOdd i => .truth (decide (get i % 2 = 1))
  | compare i j => .order (Ord.compare (get i) (get j))
  | describe i => .text ("FieldElement(" ++ (Word256.ofNat (get i).toNat).describe ++ ")")

namespace FieldElement

/-- Inversion of a coordinate, on the integers: a power, and nothing for zero. -/
theorem map_invert? (a : FieldElement) :
    a.invert?.map Residue.toInt = if a.toInt = 0 then none
      else some (a.toInt ^ (Modulus.coordinate.toNat - 2) % Modulus.coordinate.toNat) := by
  have hpower : a.inversePower.toInt
      = a.toInt ^ (Modulus.coordinate.toNat - 2) % Modulus.coordinate.toNat := by
    apply Residue.toInt_eq_emod
    rw [toZMod_inversePower, Int.cast_pow, Residue.intCast_toInt, ZMod_pow_sub_two]
  rw [invert?, Residue.isZero_eq_decide, ← hpower]
  by_cases h : a.toInt = 0 <;> simp [h]

/-- The square root, on the integers: a power, if its square is the number. -/
theorem map_sqrt? (a : FieldElement) :
    a.sqrt?.map Residue.toInt =
      let root := a.toInt ^ ((Modulus.coordinate.toNat + 1) / 4) % Modulus.coordinate.toNat
      if root ^ 2 % Modulus.coordinate.toNat = a.toInt then some root else none := by
  have hpower : a.rootPower.toInt
      = a.toInt ^ ((Modulus.coordinate.toNat + 1) / 4) % Modulus.coordinate.toNat := by
    apply Residue.toInt_eq_emod
    rw [toZMod_rootPower, Int.cast_pow, Residue.intCast_toInt]
  have hsquare : a.rootPower.square.toInt
      = a.rootPower.toInt ^ 2 % Modulus.coordinate.toNat :=
    Residue.toInt_eq_emod (by simp)
  -- The root is the power, and squaring it decides whether there is one.
  rw [sqrt?, Residue.beq_eq_decide, hsquare, ← hpower]
  by_cases h : a.rootPower.toInt ^ 2 % Modulus.coordinate.toNat = a.toInt <;> simp [h]

end FieldElement

/-- **One step** over field elements answers like its twin. -/
theorem FieldStep.map_answer (get : ℕ → FieldElement) (s : FieldStep) :
    (s.answer get).map Residue.toInt = s.integerAnswer fun i => (get i).toInt := by
  -- The operations both rings share are a step of their own.
  cases s with
  | ring step => exact step.map_answer get
  | invert i =>
    dsimp only [FieldStep.answer, FieldStep.integerAnswer]
    rw [Answer.map_ofOption, FieldElement.map_invert?]
  | sqrt i =>
    dsimp only [FieldStep.answer, FieldStep.integerAnswer]
    rw [Answer.map_ofOption, FieldElement.map_sqrt?]
  | isOdd i => exact congrArg Answer.truth (Residue.isOdd_eq_decide _)
  | compare i j => exact congrArg Answer.order (Residue.compare_eq_toInt _ _)
  | describe i =>
    dsimp only [FieldStep.answer, FieldStep.integerAnswer, FieldElement.describe]
    rw [Residue.toNat_toInt, Residue.toNat, Word256.ofNat_toNat]
    rfl

/-- A program over field elements answers like its twin. -/
theorem map_runField (values : List FieldElement) (steps : List FieldStep) :
    (runField values steps).map (Answer.map Residue.toInt)
      = runProgram 0 FieldStep.integerAnswer steps (values.map Residue.toInt) :=
  map_runProgram FieldStep.map_answer steps values

/-- **Field elements are the integers modulo `p`.**  They are read from exactly the 32 bytes that spell
    a number below `p`, and written as these bytes.  A program that starts from any of them computes
    with the remainders modulo `p`, and each of its results is again four words below `p`.  In a product
    nothing is left above the low half after three folding steps. -/
theorem runField_exact :
    (∀ bytes : List UInt8, bytes.length = 32 →
      ((∃ a : FieldElement, Residue.ofBytes? bytes = some a)
        ↔ BigEndian.decode bytes < Modulus.coordinate.toNat)
      ∧ ∀ a : FieldElement, Residue.ofBytes? bytes = some a →
        a.toInt = BigEndian.decode bytes ∧ a.toBytes = bytes)
    ∧ (∀ a : FieldElement, a.toBytes.length = 32 ∧ BigEndian.decode a.toBytes = a.toInt
        ∧ Residue.ofBytes? a.toBytes = some a)
    ∧ (∀ (values : List FieldElement) (steps : List FieldStep),
      (runField values steps).map (Answer.map Residue.toInt)
        = runProgram 0 FieldStep.integerAnswer steps (values.map Residue.toInt)
      ∧ ∀ a : FieldElement, .element a ∈ runField values steps →
        a.toInt = a.word.toNat ∧ a.word.toNat < Modulus.coordinate.toNat)
    ∧ ∀ a b : FieldElement,
      ((a.word.mulWide b.word).foldTimes Modulus.coordinate.complement 1).toNat < 2 ^ 290
      ∧ ((a.word.mulWide b.word).foldTimes Modulus.coordinate.complement 2).toNat < 2 ^ 257
      ∧ ((a.word.mulWide b.word).foldTimes Modulus.coordinate.complement 3).hi = Word256.zero
      ∧ (a * b).word = ((a.word.mulWide b.word).foldTimes Modulus.coordinate.complement 3).lo.subModulus
          false Modulus.coordinate.word := by
  refine ⟨?_, ?_, ?_, ?_⟩
  · intro bytes hlength
    exact ⟨Residue.exists_ofBytes?_eq_some_iff hlength, fun a ha => Residue.toInt_of_ofBytes? ha⟩
  · intro a
    exact ⟨a.length_toBytes, congrArg Nat.cast a.decode_toBytes, a.ofBytes?_toBytes⟩
  · intro values steps
    exact ⟨map_runField values steps, fun a _ => ⟨rfl, a.word_lt⟩⟩
  · intro a b
    -- Two folds are bounded; the third leaves nothing above 256 bits.
    obtain ⟨hone, htwo⟩ := Modulus.foldTimes_coordinate_lt (a.word.mulWide b.word)
    exact ⟨hone, htwo, Modulus.coordinate.fold_hi _, Residue.word_mul a b⟩

/-- The largest element is `p - 1`, and is read back from its bytes.  Its square and its negation are
    one, its double is `p - 2`, and one less it is two. -/
theorem runField_exact_largest :
    BigEndian.decode (-1 : FieldElement).toBytes < Modulus.coordinate.toNat
    ∧ (-1 : FieldElement).toInt = BigEndian.decode (-1 : FieldElement).toBytes
    ∧ (-1 : FieldElement).toInt = Modulus.coordinate.toNat - 1
    ∧ (runField [-1] [.ring (.square 0), .ring (.neg 0), .ring (.double 0), .ring (.sub 1 0), .isOdd 0,
        .compare 0 1]).map (Answer.map Residue.toInt)
      = [.element 1, .element 1, .element (Modulus.coordinate.toNat - 2), .element 2, .truth false,
        .order .gt]
    ∧ .element (1 : FieldElement) ∈ runField [-1] [.ring (.square 0)]
    ∧ (1 : FieldElement).word.toNat < Modulus.coordinate.toNat := by
  obtain ⟨hread, hwrite, hrun, _⟩ := runField_exact
  obtain ⟨hlength, _, hback⟩ := hwrite (-1)
  obtain ⟨hbelow, hbytes⟩ := hread _ hlength
  have hvalue : (-1 : FieldElement).toInt = Modulus.coordinate.toNat - 1 := by decide
  have hone : .element (1 : FieldElement) ∈ runField [-1] [.ring (.square 0)] :=
    List.mem_singleton.2 (congrArg Answer.element (by decide +kernel))
  refine ⟨hbelow.1 ⟨-1, hback⟩, (hbytes _ hback).1, hvalue, ?_, hone, ((hrun _ _).2 1 hone).2⟩
  rw [(hrun _ _).1, List.map_singleton, hvalue]
  rfl

/-! ### Scalars -/

/-- The answer of a step over integers modulo `n`, with both inverses as one power. -/
def ScalarStep.integerAnswer (get : ℕ → ℤ) : ScalarStep → Answer ℤ
  | ring step => step.integerAnswer Modulus.order.toNat get
  | pow i exponent => .element (get i ^ exponent.toNat % Modulus.order.toNat)
  | invert i | invertByEuclid i =>
    .ofOption <| if get i = 0 then none
      else some (get i ^ (Modulus.order.toNat - 2) % Modulus.order.toNat)
  | ofWord value => .element value.toNat
  | isHigh i => .truth (decide (((Modulus.order.toNat : ℤ) - 1) / 2 < get i))
  | describe i => .text ("Scalar(" ++ (Word256.ofNat (get i).toNat).describe ++ ")")

namespace Scalar

/-- Powers, on the integers. -/
theorem toInt_pow (s : Scalar) (exponent : Word256) :
    (s.pow exponent).toInt = s.toInt ^ exponent.toNat % Modulus.order.toNat := by
  apply Residue.toInt_eq_emod
  rw [Residue.toZMod_pow, Int.cast_pow, Residue.intCast_toInt]

/-- Inversion of a scalar, on the integers. -/
theorem map_invert? (s : Scalar) :
    s.invert?.map Residue.toInt = if s.toInt = 0 then none
      else some (s.toInt ^ (Modulus.order.toNat - 2) % Modulus.order.toNat) := by
  rw [invert?, Residue.isZero_eq_decide, ← toNat_orderLessTwo, ← toInt_pow]
  by_cases h : s.toInt = 0 <;> simp [h]

/-- High is above half of the order, on the integers. -/
theorem isHigh_eq_decide (s : Scalar) :
    s.isHigh = decide (((Modulus.order.toNat : ℤ) - 1) / 2 < s.toInt) := by
  have hhalf := toNat_halfOrder
  rw [Bool.eq_iff_iff, isHigh_iff, decide_eq_true_eq, Residue.toInt]
  omega

end Scalar

/-- **One step** over scalars answers like its twin. -/
theorem ScalarStep.map_answer (get : ℕ → Scalar) (s : ScalarStep) :
    (s.answer get).map Residue.toInt = s.integerAnswer fun i => (get i).toInt := by
  -- The two inversions have one integer meaning, though not one algorithm.
  cases s with
  | ring step => exact step.map_answer get
  | pow i exponent => exact congrArg Answer.element (Scalar.toInt_pow _ _)
  | invert i =>
    dsimp only [ScalarStep.answer, ScalarStep.integerAnswer]
    rw [Answer.map_ofOption, Scalar.map_invert?]
  | invertByEuclid i =>
    dsimp only [ScalarStep.answer, ScalarStep.integerAnswer]
    rw [Answer.map_ofOption, Scalar.invertByEuclid?_eq_invert?, Scalar.map_invert?]
  | ofWord value => exact congrArg (fun n : ℕ => Answer.element (n : ℤ)) (Residue.toNat_ofWord value)
  | isHigh i => exact congrArg Answer.truth (Scalar.isHigh_eq_decide _)
  | describe i =>
    dsimp only [ScalarStep.answer, ScalarStep.integerAnswer, Scalar.describe]
    rw [Residue.toNat_toInt, Residue.toNat, Word256.ofNat_toNat]
    rfl

/-- A program over scalars answers like its twin. -/
theorem map_runScalar (values : List Scalar) (steps : List ScalarStep) :
    (runScalar values steps).map (Answer.map Residue.toInt)
      = runProgram 0 ScalarStep.integerAnswer steps (values.map Residue.toInt) :=
  map_runProgram ScalarStep.map_answer steps values

/-- **Scalars are the integers modulo `n`.**  Any 32 bytes are read modulo `n`, with a flag for what is
    not below `n`, and strictly if the number is below `n`; a word is read as it stands.  A program that
    starts from any scalars computes with the remainders modulo `n`, and each of its results is again
    four words below `n`.  Of a scalar other than zero and its negation exactly one is high.  In a
    product nothing is left above the low half after four folding steps. -/
theorem runScalar_exact :
    (∀ bytes : List UInt8, bytes.length = 32 →
      (∃ w, Word256.ofBytes? bytes = some w
        ∧ (Residue.reduce w : Scalar).toInt = BigEndian.decode bytes % Modulus.order.toNat
        ∧ (Residue.ofWord256 w : Scalar × Bool).1 = Residue.reduce w
        ∧ (Residue.ofWord256 w : Scalar × Bool).2
          = decide (Modulus.order.toNat ≤ BigEndian.decode bytes))
      ∧ ((∃ a : Scalar, Residue.ofBytes? bytes = some a)
        ↔ BigEndian.decode bytes < Modulus.order.toNat)
      ∧ ∀ a : Scalar, Residue.ofBytes? bytes = some a →
        a.toInt = BigEndian.decode bytes ∧ a.toBytes = bytes)
    ∧ (∀ a : Scalar, a.toBytes.length = 32 ∧ BigEndian.decode a.toBytes = a.toInt
        ∧ Residue.ofBytes? a.toBytes = some a)
    ∧ (∀ value : UInt64, (Residue.ofWord value : Scalar).toInt = value.toNat)
    ∧ (∀ (values : List Scalar) (steps : List ScalarStep),
      (runScalar values steps).map (Answer.map Residue.toInt)
        = runProgram 0 ScalarStep.integerAnswer steps (values.map Residue.toInt)
      ∧ ∀ a : Scalar, .element a ∈ runScalar values steps →
        a.toInt = a.word.toNat ∧ a.word.toNat < Modulus.order.toNat)
    ∧ (∀ s : Scalar, (s.isHigh = true ↔ (Modulus.order.toNat - 1) / 2 < s.toNat)
      ∧ (s ≠ 0 → (-s).isHigh = !s.isHigh))
    ∧ ∀ a b : Scalar,
      ((a.word.mulWide b.word).foldTimes Modulus.order.complement 1).toNat < 2 ^ 386
      ∧ ((a.word.mulWide b.word).foldTimes Modulus.order.complement 2).toNat < 2 ^ 260
      ∧ ((a.word.mulWide b.word).foldTimes Modulus.order.complement 3).toNat < 2 ^ 256 + 2 ^ 133
      ∧ ((a.word.mulWide b.word).foldTimes Modulus.order.complement 4).hi = Word256.zero
      ∧ (a * b).word = ((a.word.mulWide b.word).foldTimes Modulus.order.complement 4).lo.subModulus
          false Modulus.order.word := by
  refine ⟨?_, ?_, ?_, ?_, ?_, ?_⟩
  · intro bytes hlength
    obtain ⟨w, hw, hreduce, hsame, hflag⟩ := Residue.ofWord256_of_bytes (m := Modulus.order) hlength
    exact ⟨⟨w, hw, congrArg Nat.cast hreduce, hsame, hflag⟩,
      Residue.exists_ofBytes?_eq_some_iff hlength, fun a ha => Residue.toInt_of_ofBytes? ha⟩
  · intro a
    exact ⟨a.length_toBytes, congrArg Nat.cast a.decode_toBytes, a.ofBytes?_toBytes⟩
  · intro value
    exact congrArg Nat.cast (Residue.toNat_ofWord value)
  · intro values steps
    exact ⟨map_runScalar values steps, fun a _ => ⟨rfl, a.word_lt⟩⟩
  · intro s
    refine ⟨?_, Scalar.isHigh_neg_eq⟩
    -- High is above the half of the order that is rounded down.
    have hhalf := Scalar.toNat_halfOrder
    rw [Scalar.isHigh_iff]
    omega
  · intro a b
    obtain ⟨hone, htwo, hthree⟩ := Modulus.foldTimes_order_lt (a.word.mulWide b.word)
    exact ⟨hone, htwo, hthree, Modulus.order.fold_hi _, Residue.word_mul a b⟩

/-- The bytes of `n` are read as zero with the flag, and no scalar is read strictly from them, while one
    is read back from its bytes.  The product of the largest scalar with itself is one, a word is read as
    it stands, and of one and its negation the second is high. -/
theorem runScalar_exact_order :
    (BigEndian.encode 32 Modulus.order.toNat).length = 32
    ∧ (∃ w, Word256.ofBytes? (BigEndian.encode 32 Modulus.order.toNat) = some w
        ∧ (Residue.ofWord256 w : Scalar × Bool) = (0, true))
    ∧ (¬ ∃ a : Scalar, Residue.ofBytes? (BigEndian.encode 32 Modulus.order.toNat) = some a)
    ∧ (1 : Scalar).toInt = BigEndian.decode (1 : Scalar).toBytes
    ∧ (runScalar [-1] [.ring (.mul 0 0), .ofWord 2, .ring (.sub 1 2), .isHigh 0, .isHigh 1]).map
        (Answer.map Residue.toInt)
      = [.element 1, .element 2, .element (Modulus.order.toNat - 1), .truth true, .truth false]
    ∧ .element (1 : Scalar) ∈ runScalar [-1] [.ring (.mul 0 0)]
    ∧ (1 : Scalar).word.toNat < Modulus.order.toNat
    ∧ (1 : Scalar) ≠ 0 ∧ (-1 : Scalar).isHigh = !(1 : Scalar).isHigh := by
  obtain ⟨hread, hwrite, _, hrun, hhigh, _⟩ := runScalar_exact
  have hlength := BigEndian.length_encode 32 Modulus.order.toNat
  obtain ⟨⟨w, hw, hvalue, hsame, hflag⟩, hstrict, _⟩ := hread _ hlength
  have hnumber : BigEndian.decode (BigEndian.encode 32 Modulus.order.toNat) = Modulus.order.toNat :=
    BigEndian.decode_encode Modulus.order.word.toNat_lt
  rw [hnumber] at hvalue hflag hstrict
  -- The order itself is the least number that is reduced.
  have hzero : (Residue.reduce w : Scalar) = 0 := by
    rw [← Residue.toInt_inj, hvalue, Int.emod_self]
    rfl
  obtain ⟨hlength', _, hback⟩ := hwrite 1
  have hbytes := ((hread _ hlength').2.2 1 hback).1
  have hone : .element (1 : Scalar) ∈ runScalar [-1] [.ring (.mul 0 0)] :=
    List.mem_singleton.2 (congrArg Answer.element (by decide +kernel))
  have hne : (1 : Scalar) ≠ 0 := by decide
  refine ⟨hlength, ⟨w, hw, Prod.ext (hsame.trans hzero) ?_⟩, ?_, hbytes, ?_, hone,
    ((hrun _ _).2 1 hone).2, hne, (hhigh 1).2 hne⟩
  · rw [hflag]
    exact decide_eq_true (Nat.le_refl _)
  · rw [hstrict]
    exact Nat.lt_irrefl _
  · have hlargest : (-1 : Scalar).toInt = Modulus.order.toNat - 1 := by decide
    rw [(hrun _ _).1, List.map_singleton, hlargest]
    rfl

end CurveSign
