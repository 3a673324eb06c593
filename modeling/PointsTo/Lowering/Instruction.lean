import PointsTo.Lowering.Constant

/-!
# Instructions other than calls

Each instruction becomes one node, or a short chain.  Integers that carry addresses keep pointing
where the address did: adding a constant shifts the pointer, other arithmetic forgets the offset.
-/

namespace PointsTo.Lower

variable (prog : Program) (ask : Provider)

def lowerAlloc (v : ValueId) (size : Nat) : Lower NodeId := do
  let id ← create (·.createObject .alloc)
  onGraph fun g ↦ g.update id fun n ↦ { n with size }
  assign v id
  return id

/-- A node that stands for `v`. -/
def createFor (v : ValueId) (f : Graph → NodeId × Graph) : Lower NodeId := do
  let id ← create f
  assign v id
  return id

def lowerUnknown (v : ValueId) : Lower NodeId := createFor v (·.createConstant .unknown)

def lowerStore (v : ValueId) : Lower NodeId := do
  let stored ← nthOperand prog v 0
  let pointer ← nthOperand prog v 1
  let stored ← ask.operand stored
  let pointer ← ask.operand pointer
  createFor v (·.createWith { kind := .store } [stored, pointer])

def lowerLoad (v pointer : ValueId) : Lower NodeId := do
  let op ← ask.operand pointer
  createFor v (·.createWith { kind := .load } [op])

def lowerGep (v : ValueId) (source : Ty) (indices : List ValueId) : Lower NodeId := do
  let base ← nthOperand prog v 0
  let op ← ask.operand base
  let offset ← elementOffset prog v source indices
  createFor v (·.createGep op offset)

/-- An extracted pointer may come from anywhere in the aggregate. -/
def lowerExtract (v : ValueId) : Lower Span := do
  let aggregate ← nthOperand prog v 0
  let op ← ask.operand aggregate
  let gep ← create (·.createGep op .unknown)
  let load ← create (·.createWith { kind := .load } [gep])
  onGraph (·.addSuccessor gep load)
  setValue gep v
  assign v load
  return ⟨gep, load⟩

def lowerSelect (v : ValueId) : Lower NodeId := do
  let onTrue ← nthOperand prog v 1
  let onFalse ← nthOperand prog v 2
  let onTrue ← ask.operand onTrue
  let onFalse ← ask.operand onFalse
  createFor v (·.createWith { kind := .phi } [onTrue, onFalse])

def lowerCast (v : ValueId) : Lower NodeId := do
  let source ← nthOperand prog v 0
  let op ← ask.operand source
  createFor v (·.createWith { kind := .cast } [op])

/-- The integer keeps pointing where the pointer did; its uses are lowered once the body exists. -/
def lowerPtrToInt (v : ValueId) : Lower NodeId := do
  let source ← nthOperand prog v 0
  let op ← ask.operand source
  let id ← createFor v (·.createGep op .zero)
  let inst ← instruction prog v
  updateRecord prog inst.function v fun r ↦ { r with addresses := r.addresses ++ [v] }
  return id

def lowerIntToPtr (v : ValueId) : Lower NodeId := do
  let source ← nthOperand prog v 0
  let op ←
    if (← prog.intConstant? source).isSome then do
      warn (.intToPtrConstant (← prog.describe v))
      pure unknownTarget
    else ask.operand source
  createFor v (·.createWith { kind := .cast } [op])

/-- A sum with a constant shifts the other operand; any other sum forgets the offset. -/
def lowerAdd (v : ValueId) : Lower NodeId := do
  let lhs ← nthOperand prog v 0
  let rhs ← nthOperand prog v 1
  match ← prog.signedConstant? lhs with
  | some amount =>
    let op ← ask.operand rhs
    createFor v (·.createGep op (signedOffset amount))
  | none =>
    match ← prog.signedConstant? rhs with
    | some amount =>
      let op ← ask.operand lhs
      createFor v (·.createGep op (signedOffset amount))
    | none =>
      match ← eitherOperand? prog ask lhs rhs with
      | some op => createFor v (·.createGep op .unknown)
      | none => lowerUnknown v

/-- Differences, products, quotients and remainders keep the target and forget the offset. -/
def lowerArithmetic (v : ValueId) : Lower NodeId := do
  let lhs ← nthOperand prog v 0
  let rhs ← nthOperand prog v 1
  let op? ←
    if (← prog.intConstant? lhs).isSome then do pure (some (← ask.operand rhs))
    else if (← prog.intConstant? rhs).isSome then do pure (some (← ask.operand lhs))
    else eitherOperand? prog ask lhs rhs
  match op? with
  | some op => createFor v (·.createGep op .unknown)
  | none => lowerUnknown v

/-- A return takes the returned value if it is a pointer or has a node already. -/
def lowerReturn (v : ValueId) : Lower NodeId := do
  let inst ← instruction prog v
  let ops ←
    match inst.operand? 0 with
    | none => pure []
    | some returned =>
      if (← prog.isPointer returned) || (← get).nodes.contains returned then do
        pure [← ask.operand returned]
      else pure []
  let id ← createFor v (·.createWith { kind := .ret } ops)
  updateRecord prog inst.function v fun r ↦ { r with returns := r.returns ++ [id] }
  return id

end PointsTo.Lower
