import SegKernel.Seg.Basic

/-! Why a module cannot be lowered: because of a combination that has no code, or because a descriptor
    contradicts itself. -/

namespace SegKernel

/-- A combination for which there is no code. Kinds of operations are given by their names. -/
inductive Limitation
  | scanByThreads
  | tileByThreads
  | writeByGroups
  | concatByGroups
  /-- The length of a shared array depends on a variable of the kernel. -/
  | lateLength (array : Ident) (kernel : String) (dependence : Ident)
  | reductionRank (rank : Nat)
  | reductionShape
  | nestedResult (kind : String)
  | chunkedShape (kind : String)
deriving DecidableEq

def Limitation.what : Limitation → String
  | scanByThreads => "segscan at thread level; scans are only lowered inside group bodies"
  | tileByThreads => "TileReturns at thread level"
  | writeByGroups => "WriteReturns at group level"
  | concatByGroups => "ConcatReturns at group level"
  | lateLength array kernel dependence =>
    "local array `" ++ array ++ "` of kernel " ++ kernel ++ " has a size depending on `" ++ dependence ++
      "`, which is only known inside the kernel"
  | reductionRank rank => toString rank ++ "-dimensional segred at thread level"
  | reductionShape => "non-scalar reduction operator at thread level"
  | nestedResult kind => "intra-group " ++ kind ++ " results other than plain values"
  | chunkedShape kind => "virtualised intra-group " ++ kind ++ " with a non-scalar operator"

/-- A contradiction in a descriptor. Kinds of operations are given by their names. -/
inductive Defect
  | groupLevelOutside (kind : String)
  | groupLevelNested (kind : String)
  | nestedInThread (kind : String)
  | undeclaredScalar (name : Ident) (kernel : String)
  | undeclaredMemory (name : Ident) (kernel : String)
  | unknownArray (name : Ident) (place : String)
  | unknownInitial (name : Ident)
  | indexRank (array : Ident) (rank indices : Nat)
  | indexType (array : Ident) (holds readAs : ScalarType)
  | copyTypes (source : Ident) (sourceType : ScalarType) (dest : Ident) (destType : ScalarType)
  | copyLengths (source dest : Int64)
  /-- The destination has too few dimensions for a result that was made at a level. -/
  | resultRank (dest : Ident) (rank : Nat) (madeBy : Level)
  | scatterRank (dest : Ident) (indices rank : Nat)
  | tileRank (tile space : Nat)
  | reductionCounts (results dests components : Nat)
  | reductionValue
  | histogramCounts (results dests histograms components : Nat)
  | histogramValue
  | histogramRank (histogram space : Nat)
  | histogramDests (dests arity : Nat)
  | nestedCounts (results dests components : Nat) (kind : String)
  | nestedValue (kind : String)
  | nestedDest (name : Ident) (kind : String)
  | nestedNeutral (neutral arity : Nat) (kind : String)
  | scalarContribution (kind : String)
  | updateArity (arity dests : Nat)
  | updateSwap
  | updateLocks
deriving DecidableEq

namespace Defect

def what : Defect → String
  | groupLevelOutside kind => "group-level " ++ kind ++ " outside a group body"
  | groupLevelNested kind => "group-level " ++ kind ++ " nested in a group body"
  | nestedInThread kind => "nested " ++ kind ++ " in a thread-level body"
  | undeclaredScalar name _ => "kernel uses undeclared scalar `" ++ name ++ "`"
  | undeclaredMemory name _ => "kernel uses unknown memory `" ++ name ++ "`"
  | unknownArray name _ => "unknown array `" ++ name ++ "`"
  | unknownInitial name => "unknown histogram destination `" ++ name ++ "`"
  | indexRank array rank indices =>
    "`" ++ array ++ "` has rank " ++ toString rank ++ " but is indexed with " ++ toString indices ++ " indices"
  | indexType array holds readAs => "`" ++ array ++ "` holds " ++ holds.name ++ " but is read as " ++ readAs.name
  | copyTypes source sourceType dest destType =>
    "copy of " ++ sourceType.name ++ " `" ++ source ++ "` into " ++ destType.name ++ " `" ++ dest ++ "`"
  | copyLengths source dest =>
    "copy of " ++ toString source.toInt ++ " elements into an array of " ++ toString dest.toInt
  | resultRank dest rank madeBy =>
    "destination `" ++ dest ++ "` of rank " ++ toString rank ++ " cannot hold " ++
      match madeBy with
      | .thread => "a per-thread result"
      | .group => "a group result"
  | scatterRank dest indices rank =>
    "scatter into `" ++ dest ++ "` with " ++ toString indices ++ " indices for rank " ++ toString rank
  | tileRank tile space =>
    toString tile ++ "-dimensional tile in a " ++ toString space ++ "-dimensional group space"
  | reductionCounts results dests components =>
    toString results ++ " results and " ++ toString dests ++ " destinations for " ++ toString components ++
      " reduction components"
  | reductionValue => "reduction contribution is not a plain value"
  | histogramCounts results dests histograms components =>
    toString results ++ " results and " ++ toString dests ++ " destinations for " ++ toString histograms ++
      " histograms of " ++ toString components ++ " components"
  | histogramValue => "histogram bucket or value is not a plain value"
  | histogramRank histogram space =>
    "histogram of rank " ++ toString histogram ++ " in a " ++ toString space ++ "-dimensional space"
  | histogramDests dests arity =>
    "histogram with " ++ toString dests ++ " destinations for an operator of arity " ++ toString arity
  | nestedCounts results dests components kind =>
    toString results ++ " results and " ++ toString dests ++ " destinations for " ++ toString components ++
      " " ++ kind ++ " components"
  | nestedValue _ => "operator contribution is not a plain value"
  | nestedDest name kind => "result `" ++ name ++ "` of an intra-group " ++ kind ++ " is not an array"
  | nestedNeutral neutral arity _ =>
    toString neutral ++ " neutral elements for an operator of arity " ++ toString arity
  | scalarContribution _ => "non-scalar operator applied to a scalar contribution"
  | updateArity arity dests =>
    "operator of arity " ++ toString arity ++ " applied to " ++ toString dests ++ " destinations"
  | updateSwap => "compare-and-swap update of a multi-component operator"
  | updateLocks => "locking update without a lock array"

/-- What was being lowered when the contradiction was found. -/
def construct : Defect → String
  | groupLevelOutside kind | groupLevelNested kind | nestedInThread kind => kind
  | undeclaredScalar _ kernel | undeclaredMemory _ kernel => kernel
  | unknownArray _ place => place
  | indexRank .. | indexType .. => "index"
  | copyTypes .. | copyLengths .. => "copy"
  | resultRank .. => "kernel result"
  | scatterRank .. => "WriteReturns"
  | tileRank .. => "TileReturns"
  | reductionCounts .. | reductionValue => "segred"
  | unknownInitial _ | histogramCounts .. | histogramValue | histogramRank .. | histogramDests .. => "seghist"
  | nestedCounts _ _ _ kind | nestedValue kind | nestedDest _ kind | nestedNeutral _ _ kind
  | scalarContribution kind => kind
  | updateArity .. | updateSwap | updateLocks => "histogram operator"

end Defect

/-- What is reported of a module that cannot be lowered. -/
structure Notice where
  what : String
  /-- What was being lowered, if the module contradicts itself. -/
  construct : Option String := none
  span : Option Span := none
deriving DecidableEq

def Notice.message (n : Notice) : String :=
  match n.construct with
  | none => "compiler limitation: " ++ n.what
  | some construct => "internal compiler error: " ++ n.what ++ " (in " ++ construct ++ ")"

inductive LowerError
  | limitation (cause : Limitation) (span : Option Span)
  | defect (cause : Defect) (span : Option Span)
  /-- Elements are taken of a list that has fewer; lowering breaks off without a report. -/
  | outOfRange (taken available : Nat)
deriving DecidableEq

/-- What is reported, if lowering ends with a report. -/
def LowerError.notice? : LowerError → Option Notice
  | limitation cause span => some { what := cause.what, span }
  | defect cause span => some { what := cause.what, construct := some cause.construct, span }
  | outOfRange .. => none

end SegKernel
