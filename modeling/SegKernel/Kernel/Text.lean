import SegKernel.Exp.Text
import SegKernel.Kernel.Basic

/-! The text of programs: a rendering in the manner of a C dialect for devices, one statement on a
    line, four blanks for each level of nesting. -/

namespace SegKernel

def Query.call : Query → String
  | globalId => "get_global_id()"
  | localId => "get_local_id()"
  | groupId => "get_group_id()"
  | localSize => "get_local_size()"
  | numGroups => "get_num_groups()"
  | lockstepWidth => "get_lockstep_width()"

/-- The words before the declaration of an array. -/
def Space.qualifier : Space → String
  | global => "__device__ "
  | shared => "__shared__ "
  | thread => ""

def Space.name : Space → String
  | global => "global"
  | shared => "local"
  | thread => "private"

def AtomicOp.name : AtomicOp → String
  | add => "add"
  | min => "min"
  | max => "max"
  | and => "and"
  | or => "or"
  | xor => "xor"
  | exchange => "xchg"

namespace View

def volatility (view : View) : String := if view.volatile then "(volatile)" else ""

def element (view : View) (index : Exp) : String := view.array ++ "[" ++ index.text ++ "]"

/-- The name of an atomic instruction on the view. -/
def atomicName (view : View) (op : String) : String :=
  "atomic_" ++ op ++ "_" ++ view.type.name ++ "_" ++ view.space.name

end View

namespace Stmt

def indent (depth : Nat) (text : String) : String := "".pushn ' ' (4 * depth) ++ text

mutual

/-- The lines of a statement at a level of nesting. -/
def lines (depth : Nat) : Stmt → List String
  | skip => []
  | seq stmts => linesAll depth stmts
  | comment text body => indent depth ("// " ++ text) :: body.lines depth
  | declare name type volatile =>
    [indent depth ((if volatile then "volatile " else "") ++ type.name ++ " " ++ name ++ ";")]
  | declareArray name type length space =>
    [indent depth (space.qualifier ++ type.name ++ " " ++ name ++ "[" ++ length.text ++ "];")]
  | set name value => [indent depth (name ++ " = " ++ value.text ++ ";")]
  | read dest view index => [indent depth (dest ++ " = " ++ view.volatility ++ view.element index ++ ";")]
  | write view index value =>
    [indent depth (view.volatility ++ view.element index ++ " = " ++ value.text ++ ";")]
  | branch condition ifTrue ifFalse =>
    indent depth ("if (" ++ condition.text ++ ") \x7b") :: ifTrue.lines (depth + 1) ++
      (match ifFalse with
        | skip => []
        | _ => indent depth "\x7d else \x7b" :: ifFalse.lines (depth + 1)) ++
      [indent depth "\x7d"]
  | loop iter bound body =>
    indent depth ("for (int64_t " ++ iter ++ " = 0; " ++ iter ++ " < " ++ bound.text ++ "; " ++ iter ++
      "++) \x7b") :: body.lines (depth + 1) ++ [indent depth "\x7d"]
  | repeatWhile condition body =>
    indent depth ("while (" ++ condition.text ++ ") \x7b") :: body.lines (depth + 1) ++ [indent depth "\x7d"]
  | query which dest => [indent depth (dest ++ " = " ++ which.call ++ ";")]
  | barrier .shared => [indent depth "barrier(CLK_LOCAL_MEM_FENCE);"]
  | barrier .global => [indent depth "barrier(CLK_GLOBAL_MEM_FENCE);"]
  | memFence .shared => [indent depth "mem_fence_local();"]
  | memFence .global => [indent depth "mem_fence_global();"]
  | update op old view index value =>
    [indent depth (old ++ " = " ++ view.atomicName op.name ++ "(&" ++ view.element index ++ ", " ++
      value.text ++ ");")]
  | compareSwap old view index expected desired =>
    [indent depth (old ++ " = " ++ view.atomicName "cmpxchg" ++ "(&" ++ view.element index ++ ", " ++
      expected.text ++ ", " ++ desired.text ++ ");")]

def linesAll (depth : Nat) : List Stmt → List String
  | [] => []
  | s :: ss => s.lines depth ++ linesAll depth ss

end
end Stmt

def Capture.text : Capture → String
  | scalar name type => type.name ++ " " ++ name
  | memory name => "__global__ unsigned char *" ++ name
  | constant name value => "const " ++ value.type.name ++ " " ++ name ++ " = " ++ value.text

namespace Kernel

/-- The parameters of a kernel, one on a line, with a comma after all but the last. -/
def parameterLines : List Capture → List String
  | [] => []
  | [c] => [Stmt.indent 1 c.text]
  | c :: cs => Stmt.indent 1 (c.text ++ ",") :: parameterLines cs

def lines (k : Kernel) : List String :=
  ("// launch: " ++ k.numGroups.text ++ " groups of " ++ k.groupSize.text ++ " threads" ++
      (if k.failureTolerant then ", failure tolerant" else "")) ::
    ("__global__ void " ++ k.name ++ "(") :: parameterLines k.captures ++
    ") \x7b" :: k.body.lines 1 ++ ["\x7d"]

end Kernel

/-- Each line of a text with the newline that ends it. -/
def terminated (lines : List String) : String := String.join (lines.map (·.push '\n'))

def Kernel.text (k : Kernel) : String := terminated k.lines

namespace Program

def lines (p : Program) : List String :=
  p.tuning.map (fun t => "// tuning param " ++ t.name ++ " (default " ++ toString t.default.toInt ++ ")") ++
    p.allocations.map (fun a => "__device__ " ++ a.type.name ++ " " ++ a.name ++ "[" ++ a.length.text ++ "];") ++
    p.kernels.flatMap fun k => k.lines ++ [""]

/-- The tuning parameters, the allocations and the kernels, each kernel followed by an empty line. -/
def text (p : Program) : String := terminated p.lines

end Program
end SegKernel
