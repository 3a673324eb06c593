import PointsTo.Program

/-!
# Questions about values

Constants, casts, callees and constant element offsets.  Chains of casts and nested aggregates are
followed at most as far as the program has values, which is all the way unless they are circular.
-/

namespace PointsTo.Program

variable (prog : Program)

def isConstant (v : ValueId) : Query Bool := do
  match (← prog.value v).kind with
  | .constant _ => return true
  | .function _ => return true
  | .global _ => return true
  | _ => return false

def intConstant? (v : ValueId) : Query (Option Nat) := do
  match ← prog.constant? v with
  | some (.int n) => return some n
  | _ => return none

/-- The width from which an integer of the type is sign-extended. -/
def signWidth : Ty → Nat
  | .int bits => if 0 < bits ∧ bits < 64 then bits else 64
  | _ => 64

/-- An integer constant, sign-extended from its width. -/
def signedConstant? (v : ValueId) : Query (Option Int) := do
  match ← prog.intConstant? v with
  | none => return none
  | some n => return some (Int.bmod n (Nat.pow 2 (signWidth (← prog.value v).ty)))

def isZeroWithin : (budget : Nat) → ValueId → Query Bool
  | 0, _ => .error .exhausted
  | budget + 1, v => do
    match ← prog.constant? v with
    | some .null => return true
    | some .zero => return true
    | some (.int n) => return n == 0
    | some (.aggregate elems) => elems.allM (isZeroWithin budget)
    | _ => return false

/-- Whether the value is a constant all of whose bytes are zero. -/
def isZero (v : ValueId) : Query Bool := prog.isZeroWithin (prog.values.length + 1) v

/-- The operand that a bitcast, or with `offsets` also an element address, is computed from. -/
def castSource? (offsets : Bool) (v : ValueId) : Query (Option ValueId) := do
  match (← prog.value v).kind with
  | .instruction inst => return source? inst.opcode inst.operands
  | .constant (.expr opcode operands) => return source? opcode operands
  | _ => return none
where
  source? (opcode : Opcode) (operands : List ValueId) : Option ValueId :=
    match opcode with
    | .cast .bitcast => operands.head?
    | .getElementPtr _ => if offsets then operands.head? else none
    | _ => none

def stripWithin (offsets : Bool) : (budget : Nat) → ValueId → Query ValueId
  | 0, _ => .error .exhausted
  | budget + 1, v => do
    match ← prog.castSource? offsets v with
    | some source => stripWithin offsets budget source
    | none => return v

/-- Follows bitcasts back to the value that was cast. -/
def stripCasts (v : ValueId) : Query ValueId := prog.stripWithin false (prog.values.length + 1) v

/-- Follows bitcasts and element addresses back to the base object. -/
def stripOffsets (v : ValueId) : Query ValueId := prog.stripWithin true (prog.values.length + 1) v

def callee? (call : ValueId) : Query (Option ValueId) := do
  match ← prog.instruction? call with
  | some inst => return inst.callee?
  | none => return none

/-- The function that a call names, through casts. -/
def calledFunction? (call : ValueId) : Query (Option FuncId) := do
  match ← prog.callee? call with
  | none => return none
  | some callee =>
    match (← prog.value (← prog.stripCasts callee)).kind with
    | .function f => return some f
    | _ => return none

def isAsmCall (call : ValueId) : Query Bool := do
  match ← prog.callee? call with
  | none => return false
  | some callee =>
    match (← prog.value callee).kind with
    | .asm => return true
    | _ => return false

/-- The arguments of a call; other values have none. -/
def callArguments (call : ValueId) : Query (List ValueId) := do
  match ← prog.instruction? call with
  | some inst => return inst.arguments
  | none => return []

/-- The offset selected by the indices inside a value of the type, on top of `offset`. -/
def indexedOffset? (ty : Ty) (offset : Int) : List ValueId → Query (Option Int)
  | [] => return some offset
  | index :: rest => do
    match ty with
    | .struct fields =>
      match ← prog.intConstant? index with
      | none => return none
      | some i =>
        match prog.layout.element? (.struct fields) i with
        | some (fieldOffset, field) => indexedOffset? field (offset + fieldOffset) rest
        | none => return none
    | .array elem _ =>
      match ← prog.signedConstant? index with
      | none => return none
      | some i => indexedOffset? elem (offset + i * prog.layout.allocSize elem) rest
    | _ => return none

/-- The byte offset of an element address with these indices; none if an index is not constant or
selects no element.  The first index counts whole values of type `source`. -/
def constantOffset? (source : Ty) : List ValueId → Query (Option Int)
  | [] => return some 0
  | first :: rest => do
    match ← prog.signedConstant? first with
    | none => return none
    | some i => prog.indexedOffset? source (i * prog.layout.allocSize source) rest

end PointsTo.Program
