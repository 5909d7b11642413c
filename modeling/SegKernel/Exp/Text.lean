import SegKernel.Exp.Basic
import SegKernel.Scalar.Text

/-! The text of expressions in printed code. Infix operators are always in parentheses. -/

namespace SegKernel
namespace Exp

def text : Exp → String
  | var name => name
  | const v => v.text
  | binary .min x y => "min(" ++ x.text ++ ", " ++ y.text ++ ")"
  | binary .max x y => "max(" ++ x.text ++ ", " ++ y.text ++ ")"
  | binary op x y => "(" ++ x.text ++ " " ++ op.symbol ++ " " ++ y.text ++ ")"
  | compare op x y => "(" ++ x.text ++ " " ++ op.symbol ++ " " ++ y.text ++ ")"
  | unary .not x => "!" ++ x.text
  | unary .neg x => "-" ++ x.text
  | unary .abs x => "abs(" ++ x.text ++ ")"
  | convert type x => "(" ++ type.name ++ ")" ++ x.text
  | bitcast type x => "bitcast_" ++ type.name ++ "(" ++ x.text ++ ")"
  | select c t e => "(" ++ c.text ++ " ? " ++ t.text ++ " : " ++ e.text ++ ")"

end Exp
end SegKernel
