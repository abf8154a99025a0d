import Mathlib.Data.Rat.Floor
import SynapseGo.Go.Strconv

/-! Typed reads of job payload values. -/
namespace SynapseGo.Job
open SynapseGo.Go

/-- The numeric shapes `jobpayload.Int` accepts; a float without a rational value is NaN or infinite. -/
inductive Value where
  | int (v : ℤ)
  | int64 (v : ℤ)
  | float64 (v : Option ℚ)
  | jsonNumber (text : GoString)
  | other

/-- `jobpayload.Int` with 64-bit `int`. `float64(math.MaxInt)` is 2^63, whose conversion back
yields the least integer. -/
def payloadInt (payload : List (GoString × Value)) (key : GoString) (default : ℤ) : ℤ :=
  match payload.lookup key with
  | some (.int v) => v
  | some (.int64 v) => v
  | some (.float64 (some v)) =>
    if v.den = 1 ∧ -2 ^ 63 ≤ v.num ∧ v.num ≤ 2 ^ 63 then (if v.num = 2 ^ 63 then -2 ^ 63 else v.num)
    else default
  | some (.jsonNumber text) => ((parseInt64 text).map Int64.toInt).getD default
  | _ => default

end SynapseGo.Job
