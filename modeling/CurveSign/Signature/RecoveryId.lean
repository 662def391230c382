import CurveSign.Rejection

namespace CurveSign

/-!
# Recovery ids

A signature fixes the point `R` of its nonce up to four candidates: the parity of its y-coordinate,
and whether its x-coordinate was reduced modulo the order.  A recovery id names one of them.
-/

/-- The parity of the y-coordinate of `R`, and whether its x-coordinate was reduced. -/
structure RecoveryId where
  yOdd : Bool
  xReduced : Bool
deriving DecidableEq, Repr

namespace RecoveryId

instance : Inhabited RecoveryId := ⟨⟨false, false⟩⟩

/-- The id as a number from 0 to 3. -/
def toNat (id : RecoveryId) : Nat := 2 * id.xReduced.toNat + id.yOdd.toNat

/-- The id of a number from 0 to 3. -/
def ofNat (n : Nat) : Except Rejection RecoveryId :=
  if n ≤ 3 then .ok ⟨n % 2 == 1, n / 2 == 1⟩ else .error .recoveryIdOutOfRange

/-- The text `RecoveryId(…)`. -/
def describe (id : RecoveryId) : String := "RecoveryId(" ++ toString id.toNat ++ ")"

end RecoveryId

end CurveSign
