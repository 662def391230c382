import CurveSign.Scalar.Basic

namespace CurveSign

/-!
# Sparse signed digits of base 2

A scalar as 257 digits, least significant first: `Σ dᵢ · 2^i` where every digit other than zero is
odd and at most 15 in size, and any two of them are at least five places apart.  The digits are
read in windows of five bits: a window starts at a bit that differs from the carry, and a window
of 16 or more is lowered by 32 and passes a carry upwards.
-/

/-- Digits with the carry left above them. -/
structure Recoded where
  digits : List Int
  carry : Bool

namespace Scalar

/-- The number of digits: one for each bit and one for the last carry. -/
def sparseLength : Nat := 257

/-- The digits from `place` on, given the carry into it. -/
def sparseFrom (a : Word256) (carry : Bool) (place : Nat) : Recoded :=
  if sparseLength ≤ place then { digits := [], carry := carry }
  else if a.bit place = carry then
    let rest := sparseFrom a carry (place + 1)
    { digits := 0 :: rest.digits, carry := rest.carry }
  else
    let width := min 5 (sparseLength - place)
    let window := a.bits place width + carry.toNat
    let up := decide (window / 16 % 2 = 1)
    let rest := sparseFrom a up (place + width)
    { digits := (Int.ofNat window - 32 * Int.ofNat up.toNat) ::
        (List.replicate (width - 1) 0 ++ rest.digits),
      carry := rest.carry }
termination_by sparseLength - place

/-- The 257 sparse digits. -/
def sparseDigits (s : Scalar) : List Int := (sparseFrom s.word false 0).digits

end Scalar

end CurveSign
