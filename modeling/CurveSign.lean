import CurveSign.Residue.Lemmas
import CurveSign.Session
import CurveSign.Logged
import CurveSign.Program.Residues
import CurveSign.Program.Points
import CurveSign.Proofs.Horner
import CurveSign.Proofs.Prime
import CurveSign.Proofs.Residue.Ring
import CurveSign.Proofs.Residue.Power
import CurveSign.Proofs.Scalar.Euclid
import CurveSign.Proofs.Scalar.Inverse
import CurveSign.Proofs.Scalar.Power
import CurveSign.Proofs.Curve.Basic
import CurveSign.Proofs.Curve.Triple
import CurveSign.Proofs.Curve.Order
import CurveSign.Proofs.Point.Addition
import CurveSign.Proofs.Recoding.NonAdjacent
import CurveSign.Proofs.Recoding.Radix16
import CurveSign.Proofs.Point.Decompress
import CurveSign.Proofs.Point.Multiple
import CurveSign.Proofs.Point.Selection
import CurveSign.Proofs.Point.GroupLaw
import CurveSign.Proofs.Point.Encoding
import CurveSign.Proofs.Point.Comparison
import CurveSign.Proofs.Bytes.RoundTrip
import CurveSign.Proofs.Bytes.Shortest
import CurveSign.Proofs.Bytes.FixedWidth
import CurveSign.Proofs.Residue.Integer
import CurveSign.Proofs.Der.Signature
import CurveSign.Proofs.Der.RoundTrip
import CurveSign.Proofs.Der.Canonical
import CurveSign.Proofs.Der.Safety
import CurveSign.Proofs.Signature.Coordinate
import CurveSign.Proofs.Signature.Equation
import CurveSign.Proofs.Signature.Binding
import CurveSign.Proofs.Signature.Signing
import CurveSign.Proofs.Signature.Outcome
import CurveSign.Proofs.Signature.Opposite
import CurveSign.Proofs.Key.Signing
import CurveSign.Proofs.Key.Secret
import CurveSign.Proofs.Key.Recovery
import CurveSign.Proofs.Key.Uniqueness
import CurveSign.Proofs.Key.LowForm
import CurveSign.Proofs.Log
import CurveSign.Proofs.Key.Encoding
import CurveSign.Proofs.Key.Rejection
import CurveSign.Proofs.Key.Representative
import CurveSign.Proofs.Point.Record
import CurveSign.Proofs.Program.Points
import CurveSign.Proofs.Program.Residues
import CurveSign.Proofs.Der.DefiniteForm
import CurveSign.Proofs.Residue.SquareRoot
import CurveSign.Proofs.Residue.Inverse
import CurveSign.Proofs.Der.IntegerForm
import CurveSign.Proofs.Der.InPlace
import CurveSign.Proofs.Der.Reasons
import CurveSign.Proofs.Der.Log
import CurveSign.Proofs.Der.Silence
import CurveSign.Proofs.Bytes.Words
import CurveSign.Proofs.Words.FourWords
import CurveSign.Proofs.Signature.FixedForm
import CurveSign.Proofs.Point.OddSelection
import CurveSign.Proofs.Point.MaskedSelection
