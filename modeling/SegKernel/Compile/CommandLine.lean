import SegKernel.Compile.Basic

/-! The command line: options, and what a run prints and returns. -/

namespace SegKernel

/-- What the command line asks for. -/
structure Options where
  source : String
  output : Option String := none
  groupSize : Option Int64 := none
  atomics : Option AtomicsTable := none
  maxLocks : Option Int64 := none
  verbose : Bool := false
deriving DecidableEq

namespace Options

/-- What has been read of a command line. -/
structure Draft where
  source : Option String := none
  output : Option String := none
  groupSize : Option Int64 := none
  atomics : Option AtomicsTable := none
  maxLocks : Option Int64 := none
  verbose : Bool := false

/-- The options that take a value. -/
inductive Key
  | output
  | groupSize
  | atomics
  | maxLocks

def Key.ofLong? : String → Option Key
  | "output" => some output
  | "group-size" => some groupSize
  | "atomics" => some atomics
  | "max-locks" => some maxLocks
  | _ => none

def readInt64? (text : String) : Option Int64 := (readInteger? text.toList).bind Exp.inRange

namespace Draft

/-- Fills a field that is still empty. -/
def once {α : Type} (field : Option α) (value : Option α) : Option (Option α) :=
  if field.isSome then none else value.map some

def set (d : Draft) (key : Key) (value : String) : Option Draft :=
  match key with
  | .output => return { d with output := ← once d.output (some value) }
  | .groupSize => return { d with groupSize := ← once d.groupSize (readInt64? value) }
  | .atomics => return { d with atomics := ← once d.atomics (AtomicsTable.ofName? value) }
  | .maxLocks => return { d with maxLocks := ← once d.maxLocks (readInt64? value) }

def setSource (d : Draft) (path : String) : Option Draft :=
  return { d with source := ← once d.source (some path) }

def setVerbose (d : Draft) : Option Draft := if d.verbose then none else some { d with verbose := true }

end Draft

/-- What one argument is. -/
inductive Argument
  | path (text : String)
  | verbose
  /-- An option with its value, and whether `-v` stands in front of it in the same argument. -/
  | withValue (verbose : Bool) (key : Key) (value : String)
  /-- An option whose value is the next argument. -/
  | beforeValue (verbose : Bool) (key : Key)
  | unknown

/-- The letters after a single dash. -/
def Argument.ofLetters (verbose : Bool) : List Char → Argument
  | ['v'] => if verbose then unknown else .verbose
  | 'v' :: letters => if verbose then unknown else ofLetters true letters
  | ['o'] => beforeValue verbose .output
  | 'o' :: '=' :: value => withValue verbose .output (String.ofList value)
  | 'o' :: value => withValue verbose .output (String.ofList value)
  | _ => unknown

/-- The name after two dashes, perhaps with a value. -/
def Argument.ofLong (name : List Char) : Argument :=
  let key := String.ofList (name.takeWhile (· != '='))
  match Key.ofLong? key, name.dropWhile (· != '=') with
  | some key, _ :: value => withValue false key (String.ofList value)
  | some key, [] => beforeValue false key
  | none, [] => if key = "verbose" then verbose else unknown
  | none, _ => unknown

def Argument.ofText (text : String) : Argument :=
  match text.toList with
  | '-' :: '-' :: name => ofLong name
  | ['-'] => path text
  | '-' :: letters => ofLetters false letters
  | _ => path text

/-- Whether an argument can be the value of the option before it. -/
def isValue (text : String) : Bool := text = "-" || text.toList.head? != some '-'

def readArguments (d : Draft) : List String → Option Draft
  | [] => some d
  | "--" :: paths => paths.foldlM Draft.setSource d
  | argument :: rest =>
    match Argument.ofText argument, rest with
    | .path text, rest => do readArguments (← d.setSource text) rest
    | .verbose, rest => do readArguments (← d.setVerbose) rest
    | .withValue verbose key value, rest => do
      let d ← if verbose then d.setVerbose else some d
      readArguments (← d.set key value) rest
    | .beforeValue verbose key, value :: rest => do
      let d ← if verbose then d.setVerbose else some d
      if isValue value then readArguments (← d.set key value) rest else none
    | _, _ => none

/-- Reads a command line; there is none if it is misused. -/
def read? (arguments : List String) : Option Options := do
  let d ← readArguments {} arguments
  return { d with source := ← d.source }

/-- The settings with the changes that the options ask for. -/
def config (o : Options) (c : Config) : Except Failure Config := do
  let c ← match o.groupSize with
    | some n =>
      if 0 < n then .ok { c with sizes := { c.sizes with default := n } }
      else .error (.ofTitle "--group-size must be positive")
    | none => .ok c
  let c := { c with atomics := o.atomics.getD c.atomics }
  match o.maxLocks with
  | some n => if 0 < n then .ok { c with maxLocks := n } else .error (.ofTitle "--max-locks must be positive")
  | none => .ok c

end Options

/-- What a run leaves behind. -/
structure Outcome where
  exit : UInt8
  output : String := ""
  errorOutput : String := ""
deriving DecidableEq

def usage : String :=
  "usage: segkernel [--output FILE] [--group-size N] [--atomics TABLE] [--max-locks N] [--verbose] FILE\n"

namespace Host
variable {m : Type → Type} [Monad m]

/-- Compiles the file that the options name, and gives what is to be printed. -/
def build (host : Host m) (o : Options) : ExceptT Failure m String := do
  let config ← ExceptT.mk host.config
  let config ← ExceptT.mk (pure (o.config config))
  let text ← ExceptT.mk (host.compileWith config o.source)
  match o.output with
  | none => return text
  | some path =>
    match ← (host.write path text : m _) with
    | .ok () => return ""
    | .error e => throw (.ofTitle ("couldn't write " ++ path ++ ": " ++ e.message))

/-- Runs a command line. -/
def run (host : Host m) (arguments : List String) : m Outcome := do
  match Options.read? arguments with
  | none => return { exit := 2, errorOutput := usage }
  | some options =>
    match ← (host.build options).run with
    | .ok text => return { exit := 0, output := text }
    | .error .brokenOff => return { exit := 101 }
    | .error e => return { exit := 1, errorOutput := e.errorOutput }

end Host
end SegKernel
