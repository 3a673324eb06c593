import PointsTo.Failure
import PointsTo.Ty.Layout

/-!
# Programs in static single assignment form

Everything is a value: instructions, arguments, globals, functions and constants are numbered in one
table.  A function is a list of basic blocks, each with its successors; one without blocks is a
declaration.  Operands may name values that do not exist, which a lookup answers with
`Failure.dangling`.
-/

namespace PointsTo

abbrev ValueId := Nat

abbrev FuncId := Nat

abbrev GlobalId := Nat

abbrev BlockId := Nat

inductive CastOp where
  | bitcast
  | zext
  | sext
  | trunc
  | ptrToInt
  | intToPtr
  deriving DecidableEq, Inhabited

def CastOp.name : CastOp → String
  | bitcast => "bitcast"
  | zext => "zext"
  | sext => "sext"
  | trunc => "trunc"
  | ptrToInt => "ptrtoint"
  | intToPtr => "inttoptr"

inductive BinaryOp where
  | add
  | sub
  | mul
  | sdiv
  | udiv
  | srem
  | urem
  | and
  | or
  | xor
  | shl
  | lshr
  | ashr
  deriving DecidableEq, Inhabited

def BinaryOp.name : BinaryOp → String
  | add => "add"
  | sub => "sub"
  | mul => "mul"
  | sdiv => "sdiv"
  | udiv => "udiv"
  | srem => "srem"
  | urem => "urem"
  | and => "and"
  | or => "or"
  | xor => "xor"
  | shl => "shl"
  | lshr => "lshr"
  | ashr => "ashr"

inductive Opcode where
  /-- A stack slot of the given type. -/
  | alloca (ty : Ty)
  /-- Operands: the pointer. -/
  | load
  /-- Operands: the stored value and the pointer. -/
  | store
  /-- Operands: the base and the indices into `source`. -/
  | getElementPtr (source : Ty)
  /-- Operands: the aggregate. -/
  | extractValue (path : List Nat)
  /-- Operands: the condition and the two values. -/
  | select
  /-- Operands: the incoming values. -/
  | phi
  | cast (op : CastOp)
  | binary (op : BinaryOp)
  | icmp
  /-- Operands: the callee and the arguments. -/
  | call
  /-- Operands: the returned value, if any. -/
  | ret
  | br
  | unreachable
  | other (name : String)
  deriving Inhabited

def Opcode.name : Opcode → String
  | alloca _ => "alloca"
  | load => "load"
  | store => "store"
  | getElementPtr _ => "getelementptr"
  | extractValue _ => "extractvalue"
  | select => "select"
  | phi => "phi"
  | cast op => op.name
  | binary op => op.name
  | icmp => "icmp"
  | call => "call"
  | ret => "ret"
  | br => "br"
  | unreachable => "unreachable"
  | other name => name

structure Instruction where
  opcode : Opcode
  operands : List ValueId
  function : FuncId
  block : BlockId
  deriving Inhabited

namespace Instruction

def operand? (inst : Instruction) (index : Nat) : Option ValueId := inst.operands[index]?

def isCall (inst : Instruction) : Bool :=
  match inst.opcode with
  | .call => true
  | _ => false

def isPhi (inst : Instruction) : Bool :=
  match inst.opcode with
  | .phi => true
  | _ => false

def isStore (inst : Instruction) : Bool :=
  match inst.opcode with
  | .store => true
  | _ => false

def callee? (inst : Instruction) : Option ValueId :=
  if inst.isCall then inst.operands.head? else none

/-- The arguments of a call; other instructions have none. -/
def arguments (inst : Instruction) : List ValueId :=
  if inst.isCall then inst.operands.tail else []

end Instruction

inductive Constant where
  | int (value : Nat)
  | null
  | undef
  /-- The zero of the value's type. -/
  | zero
  | aggregate (elems : List ValueId)
  /-- Data without pointers, such as floating-point numbers and strings. -/
  | data
  | expr (opcode : Opcode) (operands : List ValueId)
  deriving Inhabited

inductive ValueKind where
  | instruction (inst : Instruction)
  | argument (function : FuncId) (index : Nat)
  | global (id : GlobalId)
  | function (id : FuncId)
  | constant (c : Constant)
  | asm
  deriving Inhabited

structure Value where
  kind : ValueKind
  ty : Ty
  name : Option String := none
  deriving Inhabited

structure Global where
  name : String
  /-- The address of the global. -/
  value : ValueId
  /-- The type of what the global holds. -/
  ty : Ty
  initializer : Option ValueId := none
  external : Bool := false
  deriving Inhabited

structure Block where
  insts : List ValueId := []
  succs : List BlockId := []
  deriving Inhabited

structure Function where
  name : String
  value : ValueId
  params : List ValueId
  returnTy : Ty
  variadic : Bool
  blocks : List Block := []
  deriving Inhabited

namespace Function

def isDeclaration (f : Function) : Bool := f.blocks.isEmpty

def isIntrinsic (f : Function) : Bool := "llvm.".toList.isPrefixOf f.name.toList

def block (f : Function) (b : BlockId) : Query Block := lookup f.blocks b

end Function

structure Program where
  name : String := "m"
  layout : DataLayout := {}
  values : List Value := []
  functions : List Function := []
  globals : List Global := []
  deriving Inhabited

namespace Program

variable (prog : Program)

def value (v : ValueId) : Query Value := lookup prog.values v

def function (f : FuncId) : Query Function := lookup prog.functions f

def global (g : GlobalId) : Query Global := lookup prog.globals g

def isPointer (v : ValueId) : Query Bool := return (← prog.value v).ty.isPointer

def instruction? (v : ValueId) : Query (Option Instruction) := do
  match (← prog.value v).kind with
  | .instruction inst => return some inst
  | _ => return none

def constant? (v : ValueId) : Query (Option Constant) := do
  match (← prog.value v).kind with
  | .constant c => return some c
  | _ => return none

/-- The first function of that name. -/
def functionNamed? (name : String) : Option FuncId := prog.functions.findIdx? (·.name == name)

/-- Whether value `user` is an instruction with `v` among its operands. -/
def uses (v user : ValueId) : Bool :=
  match prog.values[user]? with
  | some { kind := .instruction inst, .. } => inst.operands.contains v
  | _ => false

/-- The instructions that use `v`, in order of creation. -/
def users (v : ValueId) : List ValueId := (List.range prog.values.length).filter (prog.uses v)

end Program

end PointsTo
