import SegKernel.Scalar.Operator

/-! What can go wrong when an expression is evaluated or a program is run, and the message that
    describes it. -/

namespace SegKernel

/-- The ways in which a value or an array has the wrong type. -/
inductive Mismatch
  | booleans (op : BinaryOp)
  | integers (op : BinaryOp)
  | floats (op : BinaryOp)
  | operands (op : BinaryOp) (left right : ScalarType)
  | compared (left right : ScalarType)
  | operand (op : UnaryOp) (found : ScalarType)
  | cast (source target : ScalarType)
  | connective (op : BinaryOp) (found : ScalarType)
  | selector (found : ScalarType)
  | index (found : ScalarType)
  | condition (found : ScalarType)
  | assigned (name : Ident) (declared found : ScalarType)
  | stored (array : Ident) (view found : ScalarType)
  | viewed (array : Ident) (held view : ScalarType)
  | comparand (view found : ScalarType)
  | globalDeclaration (array : Ident)
  | uploaded (array found : ScalarType)
  | downloaded (array : Ident) (held wanted : ScalarType)
  | captured (name : Ident) (wanted found : ScalarType)
deriving DecidableEq

def Mismatch.message : Mismatch → String
  | booleans op => op.label ++ " on booleans"
  | integers op => op.label ++ " on integers"
  | floats op => op.label ++ " on floats"
  | operands op left right => op.label ++ " on " ++ left.name ++ " and " ++ right.name
  | compared left right => "comparison of " ++ left.name ++ " and " ++ right.name
  | operand op found => op.label ++ " on " ++ found.name
  | cast source target => "bit cast of " ++ source.name ++ " to " ++ target.name
  | connective op found => op.symbol ++ " applied to " ++ found.name
  | selector found => "select on " ++ found.name
  | index found => "expected an i64 index, found " ++ found.name
  | condition found => "expected a condition, found " ++ found.name
  | assigned name declared found =>
    "assigning " ++ found.name ++ " to `" ++ name ++ "` of type " ++ declared.name
  | stored array view found =>
    "storing " ++ found.name ++ " through a view of " ++ view.name ++ " on `" ++ array ++ "`"
  | viewed array held view => "`" ++ array ++ "` holds " ++ held.name ++ " but is accessed as " ++ view.name
  | comparand view found => "compare-and-swap expecting " ++ found.name ++ " on a view of " ++ view.name
  | globalDeclaration array => "global array `" ++ array ++ "` declared inside a kernel"
  | uploaded array found => "uploading " ++ found.name ++ " into an array of " ++ array.name
  | downloaded array held wanted =>
    "downloading `" ++ array ++ "` of " ++ held.name ++ " as " ++ wanted.name
  | captured name wanted found =>
    "`" ++ name ++ "` is " ++ found.name ++ " but the kernel expects " ++ wanted.name

/-- Why an evaluation or a run stopped. -/
inductive Fault
  | unknownVariable (name : Ident)
  | unknownArray (name : Ident)
  | outOfBounds (array : Ident) (index : Int64) (length : Nat)
  | typeMismatch (cause : Mismatch)
  | divisionByZero
  | unboundUse (name : Ident)
  | invalidLaunch (kernel : String) (numGroups groupSize : Int64)
  | loopLimit
  | dataRace (array : Ident) (index first second : Int64)
deriving DecidableEq

def Fault.message : Fault → String
  | unknownVariable name => "unknown variable `" ++ name ++ "`"
  | unknownArray name => "unknown array `" ++ name ++ "`"
  | outOfBounds array index length =>
    "index " ++ toString index.toInt ++ " out of bounds for `" ++ array ++ "` of length " ++ toString length
  | typeMismatch cause => "type mismatch: " ++ cause.message
  | divisionByZero => "division by zero"
  | unboundUse name => "kernel uses `" ++ name ++ "`, which the host did not provide"
  | invalidLaunch kernel numGroups groupSize =>
    "kernel `" ++ kernel ++ "` launched with " ++ toString numGroups.toInt ++ " groups of " ++
      toString groupSize.toInt ++ " threads"
  | loopLimit => "loop did not terminate"
  | dataRace array index first second =>
    "waves " ++ toString first.toInt ++ " and " ++ toString second.toInt ++ " access `" ++ array ++ "[" ++
      toString index.toInt ++ "]` between the same barriers"

end SegKernel
