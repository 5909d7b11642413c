import SegKernel.Atomic.Table
import SegKernel.Table
import SegKernel.Text.Blank

/-! Settings of the lowering: what the device offers, sizes that the host may tune later, and whether
    reads are guarded. Some can be set by environment variables. -/

namespace SegKernel

/-- Default sizes of tunable parameters. -/
structure SizeClasses where
  default : Int64 := 256
  overrides : Table Int64 := {}
deriving BEq

namespace SizeClasses

def set (classes : SizeClasses) (param : Ident) (size : Int64) : SizeClasses :=
  { classes with overrides := classes.overrides.insert param size }

/-- The default size of a parameter. -/
def sizeOf (classes : SizeClasses) (param : Ident) : Int64 :=
  classes.overrides.getD param classes.default

end SizeClasses

structure Config where
  atomics : AtomicsTable := .cuda
  sizes : SizeClasses := {}
  /-- How many locks a lock array has at most. -/
  maxLocks : Int64 := 100151
  /-- Whether a read of an array is guarded by its bounds. -/
  checkIndices : Bool := false
deriving BEq

/-- A setting that does not have the value given to it. -/
structure ConfigError where
  key : String
  value : String
deriving DecidableEq

def ConfigError.message (e : ConfigError) : String :=
  "invalid value `" ++ e.value ++ "` for " ++ e.key

namespace Config

/-- Reads a positive 64-bit number. -/
def readPositive (key value : String) : Except ConfigError Int64 :=
  match readInteger? (trimBlanks value.toList) with
  | some n => if 0 < n ∧ n ≤ Int64.maxValue.toInt then .ok (Int64.ofInt n) else .error ⟨key, value⟩
  | none => .error ⟨key, value⟩

/-- Reads the name of a table of atomic operations. -/
def readAtomics (key value : String) : Except ConfigError AtomicsTable :=
  match AtomicsTable.ofName? value with
  | some table => .ok table
  | none => .error ⟨key, value⟩

/-- Applies a setting, if a variable is set. -/
def setting {α : Type} (lookup : String → Option String) (key : String)
    (read : String → String → Except ConfigError α) (apply : Config → α → Config) (c : Config) :
    Except ConfigError Config :=
  match lookup key with
  | none => .ok c
  | some value => (read key value).map (apply c)

/-- The settings with the changes that environment variables ask for. -/
def ofVariables (lookup : String → Option String) : Except ConfigError Config := do
  let c ← setting lookup "SEGLOWER_GROUP_SIZE" readPositive
    (fun c size => { c with sizes := { c.sizes with default := size } }) {}
  let c ← setting lookup "SEGLOWER_ATOMICS" readAtomics (fun c table => { c with atomics := table }) c
  setting lookup "SEGLOWER_MAX_LOCKS" readPositive (fun c n => { c with maxLocks := n }) c

end Config
end SegKernel
