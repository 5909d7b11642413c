/-! Files as far as a compiler needs them: it reads one and may write one. A folder of files stands for
    the working folder where no real one is wanted. -/

namespace SegKernel

/-- Why a file cannot be read or written. -/
inductive FileError
  | notFound
  | isFolder
  | notFolder
  | notText
  | other (reason : String)
deriving DecidableEq

def FileError.message : FileError → String
  | notFound => "No such file or directory (os error 2)"
  | isFolder => "Is a directory (os error 21)"
  | notFolder => "Not a directory (os error 20)"
  | notText => "stream did not contain valid UTF-8"
  | other reason => reason

/-- What a compiler asks of its surroundings. -/
structure Host (m : Type → Type) where
  /-- The value of an environment variable. -/
  lookupVariable : String → m (Option String)
  read : String → m (Except FileError ByteArray)
  write : String → String → m (Except FileError Unit)

/-- The text that bytes encode. -/
def decodeText (bytes : ByteArray) : Except FileError String :=
  match String.fromUTF8? bytes with
  | some text => .ok text
  | none => .error .notText

/-! ### A folder -/

/-- Files by their paths from the working folder. A folder exists if there are files in it. -/
structure Folder where
  files : List (List String × ByteArray) := []

namespace Folder

/-- A place in the tree of folders; of what is outside the working folder nothing is known. -/
inductive Position
  | inside (path : List String)
  | outside

def contents? (f : Folder) (path : List String) : Option ByteArray := (f.files.find? (·.1 == path)).map (·.2)

def isFolder (f : Folder) (path : List String) : Bool :=
  path.isEmpty || f.files.any fun (file, _) => path.isPrefixOf file && path != file

/-- Follows the parts of a path. -/
def follow (f : Folder) : Position → List String → Except FileError Position
  | p, [] => .ok p
  | .outside, part :: parts =>
    if part == "" || part == "." || part == ".." then follow f .outside parts else .error .notFound
  | .inside path, part :: parts =>
    if (f.contents? path).isSome then .error .notFolder
    else if !f.isFolder path then .error .notFound
    else if part == "" || part == "." then follow f (.inside path) parts
    else if part == ".." then follow f (if path.isEmpty then .outside else .inside path.dropLast) parts
    else follow f (.inside (path ++ [part])) parts

/-- The place that a path names. -/
def locate (f : Folder) (path : String) : Except FileError Position :=
  if path.isEmpty then .error .notFound
  else f.follow (if path.toList.head? = some '/' then .outside else .inside []) (path.splitOn "/")

def read (f : Folder) (path : String) : Except FileError ByteArray :=
  match f.locate path with
  | .error e => .error e
  | .ok .outside => .error .isFolder
  | .ok (.inside p) =>
    match f.contents? p with
    | some bytes => .ok bytes
    | none => .error (if f.isFolder p then .isFolder else .notFound)

/-- Writes a file, anew or over the one that is there; its folder must exist. -/
def write (f : Folder) (path text : String) : Except FileError Folder :=
  match f.locate path with
  | .error e => .error e
  | .ok .outside => .error .isFolder
  | .ok (.inside p) =>
    if f.isFolder p then .error .isFolder
    else .ok ⟨(p, text.toUTF8) :: f.files.filter (·.1 != p)⟩

/-- The folder with a file put where a path says, together with the folders around it. -/
def put (f : Folder) (path : String) (bytes : ByteArray) : Folder :=
  ⟨((path.splitOn "/").filter fun part => part != "" && part != ".", bytes) :: f.files⟩

/-- The surroundings that consist of a folder and some environment variables. -/
def host (environment : List (String × String)) : Host (StateM Folder) where
  lookupVariable name := pure (environment.lookup name)
  read path := fun f => (f.read path, f)
  write path text := fun f =>
    match f.write path text with
    | .ok f => (.ok (), f)
    | .error e => (.error e, f)

end Folder
end SegKernel
