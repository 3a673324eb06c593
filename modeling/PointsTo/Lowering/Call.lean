import PointsTo.Lowering.Instruction
import PointsTo.Lowering.Relevance

/-!
# Calls

A call of a defined function becomes a call node and a return site, joined to the entry and the exit
of the function.  Allocation functions and intrinsics are understood by name, other declarations and
inline assembly may return anything.  A call through a function pointer goes straight to its return
until the solver finds out what is called.
-/

namespace PointsTo.Lower

variable (prog : Program) (ask : Provider)

/-- Binds the pointer arguments of a call to the formals of the callee. -/
def bindArguments (params arguments : List ValueId) : Lower Unit :=
  (params.zip arguments).forM fun (param, actual) ↦ do
    if ← prog.isPointer param then
      match ← nodeOf? param with
      | none => pure ()
      | some formal =>
        let op ← ask.operand actual
        onGraph (·.addOperand formal op)

/-- Collects the pointers that are passed beyond the parameters. -/
def bindVariadic (variadic : NodeId) (arguments : List ValueId) : Lower Unit :=
  arguments.forM fun actual ↦ do
    if ← prog.isPointer actual then
      let op ← ask.operand actual
      onGraph (·.addOperand variadic op)

/-- Joins a call to the graph of `f`.  The span is the call and its return site. -/
def callFunction (call : ValueId) (f : FuncId) : Lower Span := do
  let inst ← instruction prog call
  let site ← create (·.create { kind := .callReturn })
  let id ← create (·.create { kind := .call })
  onGraph (·.pair id site)
  setValue id call
  setValue site call
  let entry ← ask.entry f
  let r ← record prog f call
  onGraph (·.addSuccessor id entry)
  onGraph (·.addSuccessor r.exit site)
  let callee ← prog.function f
  bindArguments prog ask callee.params inst.arguments
  match r.variadic with
  | some variadic => bindVariadic prog ask variadic (inst.arguments.drop callee.params.length)
  | none => pure ()
  if r.complete then
    onGraph (·.addOperands site r.returns)
  else
    -- The callee is still being lowered: its returns are bound when it is complete.
    updateRecord prog f call fun r ↦ { r with awaiting := r.awaiting ++ [site] }
  note .trace fun _ ↦ return s!"call of @{callee.name}: {id.render} -> {site.render}"
  return ⟨id, site⟩

def lowerIndirectCall (call : ValueId) (inst : Instruction) : Lower Span := do
  match inst.callee? with
  | none => missing prog call
  | some callee =>
    let op ← ask.operand (← prog.stripCasts callee)
    let id ← create (·.createWith { kind := .indirectCall } [op])
    let site ← create (·.create { kind := .ret })
    onGraph (·.pair id site)
    onGraph (·.addSuccessor id site)
    setValue site call
    assign call id
    return ⟨id, site⟩

/-- An unknown external function may return anything. -/
def lowerExternalCall (call : ValueId) : Lower NodeId := do
  let id ← create (·.create { kind := .call, pointsTo := .singleton .unknown })
  onGraph (·.pair id id)
  assign call id
  return id

def lowerAsm (call : ValueId) : Lower NodeId := do
  warn .inlineAssembly
  let id ← create (·.createConstant .unknown)
  onGraph (·.pair id id)
  assign call id
  return id

/-! ## Allocation -/

/-- A size given by an integer constant, zero if it is not known. -/
def constantSize (v? : Option ValueId) : Lower Nat := do
  match v? with
  | none => return 0
  | some v =>
    match ← prog.intConstant? v with
    | none => return 0
    | some n => return if n = wordMax then 0 else n

/-- A reallocated object is a fresh heap object that receives a copy of the old one. -/
def lowerRealloc (call : ValueId) (arguments : List ValueId) : Lower Span := do
  match arguments[0]? with
  | none => missing prog call
  | some old =>
    let old ← ask.operand (← prog.stripOffsets old)
    let id ← create (·.createObject .dynAlloc)
    let size ← constantSize prog arguments[1]?
    let zeroed := (← node old).zeroed
    onGraph fun g ↦ g.update id fun n ↦ { n with heap := true, size, zeroed }
    let copy ← create (·.createMemcpy old id .zero .unknown)
    onGraph (·.addSuccessor id copy)
    setValue copy call
    assign call id
    return ⟨id, copy⟩

def lowerAllocation (call : ValueId) (arguments : List ValueId) (allocator : Allocator) :
    Lower Span := do
  match allocator with
  | .realloc => lowerRealloc prog ask call arguments
  | .malloc =>
    let size ← constantSize prog arguments[0]?
    allocate { kind := .dynAlloc, heap := true, size }
  | .calloc =>
    let count ← constantSize prog arguments[0]?
    let elem ← constantSize prog arguments[1]?
    let size := if count * elem ≤ wordMax then count * elem else 0
    allocate { kind := .dynAlloc, heap := true, zeroed := true, size }
  | .alloca =>
    let size ← constantSize prog arguments[0]?
    allocate { kind := .dynAlloc, size }
where
  allocate (n : Node) : Lower Span := do
    let id ← createFor call fun g ↦ g.create { n with pointsTo := .singleton ⟨g.size, .zero⟩ }
    return .only id

/-! ## Intrinsics -/

/-- The destination comes before the source; both are looked up source first. -/
def lowerTransfer (call : ValueId) (arguments : List ValueId) : Lower NodeId := do
  match arguments with
  | dest :: src :: rest =>
    let length ←
      match rest with
      | [] => pure Offset.unknown
      | length :: _ =>
        match ← prog.intConstant? length with
        | some n => pure (Offset.ofNat n)
        | none => pure Offset.unknown
    let src ← ask.operand src
    let dest ← ask.operand dest
    createFor call (·.createMemcpy src dest .zero length)
  | _ => missing prog call

def isMemset (v : ValueId) : Lower Bool := do
  match ← prog.calledFunction? v with
  | none => return false
  | some f =>
    let callee ← prog.function f
    return callee.isDeclaration && Intrinsic.ofName? callee.name == some .memset

/-- The type of the stack slot that a value is the address of. -/
def slotType? (v : ValueId) : Lower (Option Ty) := do
  match ← prog.instruction? v with
  | some { opcode := .alloca ty, .. } => return some ty
  | _ => return none

/-- Stores `stored` at every offset of the destination. -/
def fillMemory (call dest : ValueId) (stored : NodeId) : Lower Span := do
  let op ← ask.operand dest
  let gep ← create (·.createGep op .unknown)
  let store ← create (·.createWith { kind := .store } [stored, gep])
  onGraph (·.addSuccessor gep store)
  setValue gep call
  setValue store call
  return ⟨gep, store⟩

/-- Zeroing a stack slot only marks the slot, if it may hold pointers.  Other fills store null, or
unknown for a fill that is not zero, at every offset of the destination. -/
def lowerMemset (call : ValueId) : Lower (Option Span) := do
  let dest ← nthOperand prog call 1
  let fill ← nthOperand prog call 2
  let dest ← prog.stripOffsets dest
  if (← prog.intConstant? fill) = some 0 then
    match ← slotType? prog dest with
    | some ty =>
      if ty.containsPointer then
        let id ← ask.operand dest
        onGraph fun g ↦ g.update id fun n ↦ { n with zeroed := true }
      return none
    | none => return some (← fillMemory ask call dest nullTarget)
  warn (.nonZeroMemset (← prog.describe call))
  return some (← fillMemory ask call dest unknownTarget)

/-- The argument list gets a pointer to a fresh object that holds every pointer passed beyond the
parameters. -/
def lowerVaStart (call : ValueId) (inst : Instruction) : Lower Span := do
  match (← record? inst.function).bind (·.variadic) with
  | none =>
    warn (.unresolvedVarArg (← prog.describe call))
    return .only (← lowerUnknown call)
  | some variadic =>
    let list ← nthOperand prog call 1
    let list ← ask.operand (← prog.stripOffsets list)
    let object ← createFor call (·.createObject .alloc)
    let slot ←
      if (← node list).kind = .alloc then create (·.createConstant ⟨list, .unknown⟩)
      else create (·.createGep list .unknown)
    let init ← create (·.createWith { kind := .store } [object, slot])
    let memory ← create (·.createConstant ⟨object, .unknown⟩)
    let fill ← create (·.createWith { kind := .store } [variadic, memory])
    onGraph (·.addSuccessor object init)
    onGraph (·.addSuccessor init fill)
    note .debug fun _ ↦ return s!"va_start in @{(← prog.function inst.function).name}"
    return ⟨object, fill⟩

def lowerIntrinsic (call : ValueId) (inst : Instruction) (name : String) : Lower Span := do
  match Intrinsic.ofName? name with
  | some .memcpy | some .memmove => return .only (← lowerTransfer prog ask call inst.arguments)
  | some .memset =>
    match ← lowerMemset prog ask call with
    | some span => return span
    | none => return .only (← create (·.create { kind := .noop }))
  | some .vaStart => lowerVaStart prog ask call inst
  | some .stackSave =>
    warn (.stackSave (← prog.describe call))
    return .only (← lowerAlloc call 0)
  | some .stackRestore =>
    let pointer ← nthOperand prog call 1
    return .only (← lowerLoad ask call pointer)
  | none => reject (.unhandledIntrinsic name (← prog.describe call))

def lowerCall (call : ValueId) : Lower Span := do
  if ← prog.isAsmCall call then return .only (← lowerAsm call)
  let inst ← instruction prog call
  match ← prog.calledFunction? call with
  | none => lowerIndirectCall prog ask call inst
  | some f =>
    let callee ← prog.function f
    if callee.isDeclaration then
      match Allocator.ofName? callee.name with
      | some allocator => lowerAllocation prog ask call inst.arguments allocator
      | none =>
        if callee.isIntrinsic then lowerIntrinsic prog ask call inst callee.name
        else return .only (← lowerExternalCall call)
    else
      let span ← callFunction prog ask call f
      modify fun s ↦
        { s with callGraph := s.callGraph.addCall inst.function f ⟨.direct, span.first⟩ }
      assign call span.first
      return span

end PointsTo.Lower
