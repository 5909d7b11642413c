import SegKernel.Compile.CommandLine

/-! The program: reads a descriptor file and prints its kernels. -/

namespace SegKernel

/-- The cause of an error of the operating system. -/
def FileError.ofSystem : IO.Error → FileError
  | .noFileOrDirectory .. => .notFound
  | .inappropriateType _ 21 _ => .isFolder
  | .inappropriateType _ 20 _ => .notFolder
  | e => .other (toString e)

/-- Turns an error of the operating system into a result. -/
def attempt {α : Type} (action : IO α) : IO (Except FileError α) := do
  match ← action.toBaseIO with
  | .ok a => return .ok a
  | .error e => return .error (.ofSystem e)

/-- The real surroundings. -/
def systemHost : Host IO where
  lookupVariable name := IO.getEnv name
  read path := attempt (IO.FS.readBinFile path)
  write path text := attempt (IO.FS.writeFile path text)

end SegKernel

def main (arguments : List String) : IO UInt32 := do
  let outcome ← SegKernel.systemHost.run arguments
  IO.print outcome.output
  IO.eprint outcome.errorOutput
  return outcome.exit.toUInt32
