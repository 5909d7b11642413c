import SegKernel.Kernel.Names

/-! Shared memory is allocated when a group starts, so the declarations of shared arrays stand in front
    of a body. Their lengths may then only depend on what the host knows. -/

namespace SegKernel

/-- The declaration of a shared array. -/
structure SharedArray where
  name : Ident
  type : ScalarType
  length : Exp
deriving DecidableEq

def SharedArray.code (a : SharedArray) : Stmt := .declareArray a.name a.type a.length .shared

namespace Stmt

mutual

/-- The shared arrays that code declares, in textual order. -/
def sharedArrays : Stmt → List SharedArray
  | declareArray name type length .shared => [⟨name, type, length⟩]
  | seq stmts => sharedArraysAll stmts
  | comment _ body | loop _ _ body | repeatWhile _ body => body.sharedArrays
  | branch _ ifTrue ifFalse => ifTrue.sharedArrays ++ ifFalse.sharedArrays
  | _ => []

def sharedArraysAll : List Stmt → List SharedArray
  | [] => []
  | s :: ss => s.sharedArrays ++ sharedArraysAll ss

end

mutual

/-- The code without the declarations of shared arrays. -/
def dropShared : Stmt → Stmt
  | declareArray name type length space =>
    if space = .shared then skip else declareArray name type length space
  | seq stmts => block (dropSharedAll stmts)
  | comment text body => comment text body.dropShared
  | branch condition ifTrue ifFalse => branch condition ifTrue.dropShared ifFalse.dropShared
  | loop iter bound body => loop iter bound body.dropShared
  | repeatWhile condition body => repeatWhile condition body.dropShared
  | s => s

def dropSharedAll : List Stmt → List Stmt
  | [] => []
  | s :: ss => s.dropShared :: dropSharedAll ss

end

/-- A shared array and a variable of the kernel on which its length depends. -/
structure LateLength where
  array : Ident
  dependence : Ident
deriving DecidableEq

/-- The first of `declared` on which the length of an array depends. -/
def lateLength? (declared : List Ident) (a : SharedArray) : Option LateLength :=
  (a.length.vars.find? declared.contains).map (⟨a.name, ·⟩)

/-- Moves the declarations of shared arrays to the front. -/
def hoist (body : Stmt) : Except LateLength Stmt :=
  let rest := body.dropShared
  match body.sharedArrays.findSome? (lateLength? rest.declared) with
  | some late => .error late
  | none => .ok (block (body.sharedArrays.map SharedArray.code ++ [rest]))

end Stmt
end SegKernel
