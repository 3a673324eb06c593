import PointsTo.Lowering.State

/-!
# Globals

The globals form one chain in program order: for each global its memory, followed by the stores of
its initializer.  A global whose content is not known gets a store of unknown.
-/

namespace PointsTo.Lower

variable (prog : Program) (ask : Provider)

/-- Lets a global hold a value at an offset, by a store behind `last`. -/
def storeInitial (v : ValueId) (id : NodeId) (offset : Nat) (last : NodeId) : Lower NodeId := do
  let op ← ask.operand v
  let target ←
    if offset = 0 then pure id else create (·.createConstant ⟨id, .ofNat offset⟩)
  let store ← create (·.createWith { kind := .store } [op, target])
  onGraph (·.insertAfter last store)
  return store

def unhandledInitializer {α : Type} (global : Global) (init : ValueId) : Lower α := do
  reject (.unhandledInitializer global.name (← prog.describe init))

/-- Stores what the initializer holds at `offset` of the global, behind `last`, and answers with the
last store.  Elements without pointers are skipped. -/
def lowerInitializer (global : Global) (id : NodeId) :
    (budget : Nat) → (init : ValueId) → (ty : Ty) → (offset : Nat) → (last : NodeId) → Lower NodeId
  | 0, _, _, _, _ => throw .exhausted
  | budget + 1, init, ty, offset, last => do
    match ← prog.constant? init with
    | some (.aggregate elems) =>
      elems.zipIdx.foldlM (fun last (elem, index) ↦ do
        match prog.layout.element? ty index with
        | none => unhandledInitializer prog global init
        | some (elemOffset, elemTy) =>
          let place := min (offset + elemOffset) wordMax
          if elemTy.isPointer then storeInitial ask elem id place last
          else if elemTy.isAggregate && !(← prog.isZero elem) then
            lowerInitializer global id budget elem elemTy place last
          else return last) last
    | some .data =>
      if ty.isPointer then unhandledInitializer prog global init else return last
    | some _ => if ty.isPointer then storeInitial ask init id offset last else return last
    | none =>
      if ty.isPointer then storeInitial ask init id offset last
      else unhandledInitializer prog global init

/-- The content of a global, and the last node that describes it. -/
def lowerContent (global : Global) (id : NodeId) : Lower NodeId := do
  match global.initializer, global.external with
  | some init, false =>
    if ← prog.isZero init then
      onGraph fun g ↦ g.update id fun n ↦ { n with zeroed := true }
      return id
    lowerInitializer prog ask global id (global.ty.depth + 1) init global.ty 0 id
  | _, _ =>
    warn (.uninitializedGlobal global.name)
    let store ← create (·.createWith { kind := .store } [unknownTarget, id])
    onGraph (·.insertAfter id store)
    return store

/-- Builds the chain of the globals.  Every global gets its node first, because initializers may
refer to any of them. -/
def lowerGlobals : Lower (Option Span) := do
  let chain ← prog.globals.foldlM (fun chain global ↦ do
    let id ← create fun g ↦ g.create
      { kind := .alloc, pointsTo := .singleton ⟨g.size, .zero⟩,
        size := prog.layout.allocSize global.ty }
    assign global.value id
    append chain id) none
  match chain with
  | none => return none
  | some span =>
    let last ← prog.globals.foldlM (fun tail global ↦ do
      let id ← ask.operand global.value
      let last ← lowerContent prog ask global id
      return if id = tail then last else tail) span.last
    note .debug fun _ ↦ return s!"built {prog.globals.length} globals"
    return some ⟨span.first, last⟩

/-- The chain of the globals, built on the first request that succeeds. -/
def globalChain : Lower (Option Span) := do
  match (← get).globals with
  | some chain => return chain
  | none =>
    let chain ← lowerGlobals prog ask
    modify fun s ↦ { s with globals := some chain }
    return chain

end PointsTo.Lower
