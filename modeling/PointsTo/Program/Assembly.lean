import PointsTo.Program

/-!
# Putting a program together

A program is assembled by a list of commands.  Values, functions, globals and blocks are numbered in
the order in which the commands add them; a function takes one value and then one per parameter.
-/

namespace PointsTo

inductive Command where
  | function (name : String) (returnTy : Ty) (params : List Ty) (variadic : Bool)
  | block (function : FuncId)
  | successor (function : FuncId) (source target : BlockId)
  | global (name : String) (ty : Ty)
  | initializer (global value : ValueId)
  | external (global : ValueId)
  | constant (c : Constant) (ty : Ty)
  | asm
  | instruction (function : FuncId) (block : BlockId) (opcode : Opcode) (operands : List ValueId)
      (ty : Ty)
  /-- One more operand of an instruction; other values are left alone. -/
  | incoming (phi value : ValueId)
  | name (value : ValueId) (name : String)
  deriving Inhabited

namespace Command

def alloca (f : FuncId) (b : BlockId) (ty : Ty) : Command := instruction f b (.alloca ty) [] .ptr

def load (f : FuncId) (b : BlockId) (pointer : ValueId) (ty : Ty) : Command :=
  instruction f b .load [pointer] ty

def store (f : FuncId) (b : BlockId) (value pointer : ValueId) : Command :=
  instruction f b .store [value, pointer] .void

def getElementPtr (f : FuncId) (b : BlockId) (source : Ty) (base : ValueId)
    (indices : List ValueId) : Command :=
  instruction f b (.getElementPtr source) (base :: indices) .ptr

def cast (f : FuncId) (b : BlockId) (op : CastOp) (value : ValueId) (ty : Ty) : Command :=
  instruction f b (.cast op) [value] ty

def binary (f : FuncId) (b : BlockId) (op : BinaryOp) (lhs rhs : ValueId) (ty : Ty) : Command :=
  instruction f b (.binary op) [lhs, rhs] ty

def icmp (f : FuncId) (b : BlockId) (lhs rhs : ValueId) : Command :=
  instruction f b .icmp [lhs, rhs] (.int 1)

def phi (f : FuncId) (b : BlockId) (incoming : List ValueId) (ty : Ty) : Command :=
  instruction f b .phi incoming ty

def select (f : FuncId) (b : BlockId) (condition onTrue onFalse : ValueId) (ty : Ty) : Command :=
  instruction f b .select [condition, onTrue, onFalse] ty

def extractValue (f : FuncId) (b : BlockId) (aggregate : ValueId) (path : List Nat) (ty : Ty) :
    Command :=
  instruction f b (.extractValue path) [aggregate] ty

def call (f : FuncId) (b : BlockId) (callee : ValueId) (arguments : List ValueId) (ty : Ty) :
    Command :=
  instruction f b .call (callee :: arguments) ty

def ret (f : FuncId) (b : BlockId) (value : Option ValueId) : Command :=
  instruction f b .ret value.toList .void

end Command

/-- Changes the entry of a table at an id. -/
def alter {α : Type} (table : List α) (id : Nat) (f : α → Query α) : Query (List α) := do
  let a ← f (← lookup table id)
  return table.set id a

namespace Program

variable (prog : Program)

def addValue (value : Value) : Program := { prog with values := prog.values ++ [value] }

def alterFunction (id : FuncId) (f : Function → Query Function) : Query Program := do
  return { prog with functions := ← alter prog.functions id f }

def alterBlock (function : FuncId) (block : BlockId) (f : Block → Block) : Query Program :=
  prog.alterFunction function fun fn ↦ do
    return { fn with blocks := ← alter fn.blocks block fun b ↦ return f b }

def alterValue (id : ValueId) (f : Value → Value) : Query Program := do
  return { prog with values := ← alter prog.values id fun v ↦ return f v }

/-- Changes the global with this address; a value that is no global is no id of one. -/
def alterGlobal (address : ValueId) (f : Global → Global) : Query Program := do
  match (← prog.value address).kind with
  | .global id => return { prog with globals := ← alter prog.globals id fun g ↦ return f g }
  | _ => .error .dangling

def addFunction (name : String) (returnTy : Ty) (params : List Ty) (variadic : Bool) : Program :=
  let id := prog.functions.length
  let value := prog.values.length
  let arguments := params.mapIdx fun index ty ↦ { kind := .argument id index, ty : Value }
  { prog with
    values := prog.values ++ { kind := .function id, ty := .ptr, name := some name } :: arguments
    functions := prog.functions ++
      [{ name, value, params := List.range' (value + 1) params.length, returnTy, variadic }] }

def addGlobal (name : String) (ty : Ty) : Program :=
  let id := prog.globals.length
  { prog.addValue { kind := .global id, ty := .ptr, name := some name } with
    globals := prog.globals ++ [{ name, value := prog.values.length, ty }] }

def addInstruction (inst : Instruction) (ty : Ty) : Query Program :=
  let id := prog.values.length
  (prog.addValue { kind := .instruction inst, ty }).alterBlock inst.function inst.block
    fun b ↦ { b with insts := b.insts ++ [id] }

def addOperand (value operand : ValueId) : Query Program :=
  prog.alterValue value fun v ↦
    match v.kind with
    | .instruction inst =>
      { v with kind := .instruction { inst with operands := inst.operands ++ [operand] } }
    | _ => v

def apply : Command → Query Program
  | .function name returnTy params variadic =>
    return prog.addFunction name returnTy params variadic
  | .block f => prog.alterFunction f fun fn ↦ return { fn with blocks := fn.blocks ++ [{}] }
  | .successor f source target =>
    prog.alterBlock f source fun b ↦ { b with succs := b.succs ++ [target] }
  | .global name ty => return prog.addGlobal name ty
  | .initializer global value => prog.alterGlobal global ({ · with initializer := some value })
  | .external global => prog.alterGlobal global ({ · with external := true })
  | .constant c ty => return prog.addValue { kind := .constant c, ty }
  | .asm => return prog.addValue { kind := .asm, ty := .ptr }
  | .instruction function block opcode operands ty =>
    prog.addInstruction { opcode, operands, function, block } ty
  | .incoming phi value => prog.addOperand phi value
  | .name value name => prog.alterValue value ({ · with name := some name })

/-- The program that the commands describe. -/
def assemble (name : String) (layout : DataLayout) (commands : List Command) : Query Program :=
  commands.foldlM (fun prog c ↦ prog.apply c) { name, layout }

end Program

end PointsTo
