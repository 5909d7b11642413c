import SegKernel.Compile.Files
import SegKernel.Compile.Report
import SegKernel.Kernel.Text
import SegKernel.Lowering.Program

/-! Compilation of a descriptor file to the text of a program. -/

namespace SegKernel

/-- How compilation fails: with a message that was shown, or without one. -/
inductive Failure
  | reported (text : String)
  | brokenOff
deriving DecidableEq

namespace Failure

def ofDiagnostic (d : Diagnostic) (source : Option Source := none) : Failure := reported (d.render source)

def ofTitle (title : String) : Failure := ofDiagnostic { title }

/-- What a failure is called after its message was shown. -/
def label : Failure → String
  | _ => "Aborting due to previous error."

/-- What appears on the error output. -/
def errorOutput : Failure → String
  | reported text => text ++ "\n"
  | brokenOff => ""

end Failure

/-- Reads, lowers and prints a descriptor text. -/
def Source.compile (config : Config) (source : Source) : Except Failure String :=
  match Module.parse source with
  | .error e => .error (.ofDiagnostic e.diagnostic source)
  | .ok m =>
    match m.lower config with
    | .ok program => .ok program.text
    | .error e =>
      match e.notice? with
      | some notice => .error (.ofDiagnostic (notice.diagnostic source) source)
      | none => .error .brokenOff

/-- Compiles the contents of a file. -/
def compileContents (config : Config) (path : String) (contents : Except FileError ByteArray) :
    Except Failure String :=
  match contents.bind decodeText with
  | .ok text => Source.compile config ⟨text, path⟩
  | .error e => .error (.ofTitle ("couldn't read " ++ path ++ ": " ++ e.message))

namespace Host
variable {m : Type → Type} [Monad m]

/-- The settings that the environment asks for. -/
def config (host : Host m) : m (Except Failure Config) := do
  let groupSize ← host.lookupVariable "SEGLOWER_GROUP_SIZE"
  let atomics ← host.lookupVariable "SEGLOWER_ATOMICS"
  let maxLocks ← host.lookupVariable "SEGLOWER_MAX_LOCKS"
  let set := [("SEGLOWER_GROUP_SIZE", groupSize), ("SEGLOWER_ATOMICS", atomics), ("SEGLOWER_MAX_LOCKS", maxLocks)]
  return (Config.ofVariables fun key => (set.lookup key).join).mapError fun e => .ofTitle e.message

/-- Compiles a file with given settings. -/
def compileWith (host : Host m) (config : Config) (path : String) : m (Except Failure String) := do
  return compileContents config path (← host.read path)

/-- Compiles a file with the settings of the environment. -/
def compile (host : Host m) (path : String) : m (Except Failure String) := do
  match ← host.config with
  | .ok config => host.compileWith config path
  | .error e => return .error e

end Host
end SegKernel
