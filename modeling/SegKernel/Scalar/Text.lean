import SegKernel.Scalar.Basic
import SegKernel.Scalar.Decimal

/-! The text of a value in printed code: a literal whose suffix shows its type. -/

namespace SegKernel

def Value.text : Value → String
  | bool b => if b then "true" else "false"
  | i32 v => toString v.toInt
  | i64 v => toString v.toInt ++ "ll"
  | u32 v => toString v.toNat ++ "u"
  | u64 v => toString v.toNat ++ "ull"
  | f32 bits => FloatFormat.Layout.code.text .single bits.toNat ++ "f"
  | f64 bits => FloatFormat.Layout.code.text .double bits.toNat

end SegKernel
