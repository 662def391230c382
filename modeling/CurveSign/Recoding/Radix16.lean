import CurveSign.Scalar.Basic

namespace CurveSign

/-!
# Signed digits of base 16

A scalar as 65 digits, least significant first: `Σ dᵢ · 16^i` with the first 64 digits in `[-8, 8)`
and a last digit 0 or 1.  A digit of eight or more is lowered by 16 and passes a carry upwards.
-/

namespace Scalar

/-- The 64 hexadecimal digits, least significant first. -/
def hexDigits (s : Scalar) : List Int :=
  (List.range 64).map fun i => Int.ofNat (s.word.bits (4 * i) 4)

/-- The digits moved into `[-8, 8)`, from a carry on; the last carry becomes a digit of its own. -/
def recentre (carry : Int) : List Int → List Int
  | [] => [carry]
  | d :: ds =>
    let up := (d + carry + 8) / 16
    (d + carry - 16 * up) :: recentre up ds

/-- The 65 signed digits of base 16. -/
def radix16 (s : Scalar) : List Int := recentre 0 s.hexDigits

end Scalar

end CurveSign
