import SegKernel.Kernel.Basic

/-! The names that kernel code declares and the names it takes from its surroundings. Code never
    declares a name twice with different meanings, so all declarations of a body count for all of it. -/

namespace SegKernel

/-- How a name is used: as a scalar or as an array. -/
inductive Role
  | scalar
  | memory
deriving DecidableEq

structure Mention where
  name : Ident
  role : Role
deriving DecidableEq

def Exp.mentions (x : Exp) : List Mention := x.occurrences.map (⟨·, .scalar⟩)

namespace Stmt

mutual

/-- The scalars, loop variables and arrays that code declares, in textual order. -/
def declared : Stmt → List Ident
  | seq stmts => declaredAll stmts
  | comment _ body => body.declared
  | declare name _ _ => [name]
  | declareArray name _ _ _ => [name]
  | branch _ ifTrue ifFalse => ifTrue.declared ++ ifFalse.declared
  | loop iter _ body => iter :: body.declared
  | repeatWhile _ body => body.declared
  | skip | set .. | read .. | write .. | query .. | barrier _ | memFence _ | update .. | compareSwap .. => []

def declaredAll : List Stmt → List Ident
  | [] => []
  | s :: ss => s.declared ++ declaredAll ss

end

mutual

/-- All uses of names, in textual order. -/
def mentions : Stmt → List Mention
  | seq stmts => mentionsAll stmts
  | comment _ body => body.mentions
  | declareArray _ _ length _ => length.mentions
  | set name value => value.mentions ++ [⟨name, .scalar⟩]
  | read dest view index => ⟨view.array, .memory⟩ :: index.mentions ++ [⟨dest, .scalar⟩]
  | write view index value => ⟨view.array, .memory⟩ :: index.mentions ++ value.mentions
  | branch condition ifTrue ifFalse => condition.mentions ++ ifTrue.mentions ++ ifFalse.mentions
  | loop _ bound body => bound.mentions ++ body.mentions
  | repeatWhile condition body => condition.mentions ++ body.mentions
  | query _ dest => [⟨dest, .scalar⟩]
  | update _ old view index value =>
    ⟨old, .scalar⟩ :: ⟨view.array, .memory⟩ :: index.mentions ++ value.mentions
  | compareSwap old view index expected desired =>
    ⟨old, .scalar⟩ :: ⟨view.array, .memory⟩ :: index.mentions ++ expected.mentions ++ desired.mentions
  | skip | declare .. | barrier _ | memFence _ => []

def mentionsAll : List Stmt → List Mention
  | [] => []
  | s :: ss => s.mentions ++ mentionsAll ss

end

mutual

/-- Whether code has an atomic operation. -/
def usesAtomics : Stmt → Bool
  | update .. | compareSwap .. => true
  | seq stmts => usesAtomicsAny stmts
  | comment _ body | loop _ _ body | repeatWhile _ body => body.usesAtomics
  | branch _ ifTrue ifFalse => ifTrue.usesAtomics || ifFalse.usesAtomics
  | skip | declare .. | declareArray .. | set .. | read .. | write .. | query .. | barrier _ | memFence _ => false

def usesAtomicsAny : List Stmt → Bool
  | [] => false
  | s :: ss => s.usesAtomics || usesAtomicsAny ss

end

/-- The names that are used and not declared, each in the role of its first use. -/
def free (s : Stmt) : List Mention :=
  let declared := s.declared
  (s.mentions.filter fun m => !declared.contains m.name).eraseDupsBy (·.name == ·.name)

/-- The free scalars in order of first use. -/
def freeScalars (s : Stmt) : List Ident := (s.free.filter (·.role == .scalar)).map (·.name)

/-- The free arrays in order of first use. -/
def freeMemory (s : Stmt) : List Ident := (s.free.filter (·.role == .memory)).map (·.name)

end Stmt
end SegKernel
