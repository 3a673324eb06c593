import PointsTo.Failure
import PointsTo.Pointer
import PointsTo.Program

/-!
# The pointer graph

Nodes are numbered in order of creation and never removed.  Control edges (successors and
predecessors) give the order in which memory flows, operand edges (operands and users) the
dependence of values.  The first two nodes are the sentinels.

The operations change the nodes that they name; an id that names no node is left without effect.
-/

namespace PointsTo

inductive NodeKind where
  /-- Stack slots and globals. -/
  | alloc
  /-- Memory from an allocation function. -/
  | dynAlloc
  /-- Operands: the pointer. -/
  | load
  /-- Operands: the value and the pointer. -/
  | store
  /-- Operands: the base, shifted by the node's offset. -/
  | gep
  | phi
  /-- Operands: the source. -/
  | cast
  | constant
  | function
  | call
  /-- Operands: the callee. -/
  | indirectCall
  /-- Operands: the returns of the callee. -/
  | callReturn
  | entry
  /-- Operands: the returned value, if any, or the return sites of a function-pointer call. -/
  | ret
  /-- Operands: the source and the destination. -/
  | memcpy
  | noop
  | null
  | unknownMemory
  deriving DecidableEq, Inhabited

namespace NodeKind

def label : NodeKind → String
  | alloc => "Alloc"
  | dynAlloc => "DynAlloc"
  | load => "Load"
  | store => "Store"
  | gep => "Gep"
  | phi => "Phi"
  | cast => "Cast"
  | constant => "Constant"
  | function => "Function"
  | call => "Call"
  | indirectCall => "CallFuncPtr"
  | callReturn => "CallReturn"
  | entry => "Entry"
  | ret => "Return"
  | memcpy => "Memcpy"
  | noop => "Noop"
  | null => "Null"
  | unknownMemory => "UnknownMem"

/-- Kinds whose points-to set is fixed at creation. -/
def isFixed : NodeKind → Bool
  | alloc | dynAlloc | function | constant | null | unknownMemory => true
  | _ => false

def isAllocation : NodeKind → Bool
  | alloc | dynAlloc => true
  | _ => false

def isCall : NodeKind → Bool
  | call | indirectCall => true
  | _ => false

end NodeKind

structure Node where
  kind : NodeKind
  operands : List NodeId := []
  successors : List NodeId := []
  predecessors : List NodeId := []
  /-- The nodes that have this one among their operands. -/
  users : List NodeId := []
  /-- The return site of a call and the call of a return site. -/
  paired : Option NodeId := none
  pointsTo : PointerSet := ∅
  /-- The value of the program that the node stands for. -/
  value : Option ValueId := none
  /-- The shift of a `gep`, the source offset of a `memcpy`. -/
  offset : Offset := .zero
  /-- The length of a `memcpy`. -/
  length : Offset := .unknown
  /-- Allocated bytes, zero if unknown. -/
  size : Nat := 0
  heap : Bool := false
  zeroed : Bool := false
  deriving DecidableEq, Inhabited

namespace Node

def operand? (n : Node) (index : Nat) : Option NodeId := n.operands[index]?

def singleSuccessor? (n : Node) : Option NodeId :=
  match n.successors with
  | [s] => some s
  | _ => none

end Node

structure Graph where
  nodes : List Node
  root : Option NodeId := none
  deriving DecidableEq

namespace Graph

/-- The graph that holds the sentinels only. -/
def sentinels : Graph where
  nodes := [{ kind := .null, pointsTo := .singleton .null },
    { kind := .unknownMemory, pointsTo := .singleton .unknown }]

instance : Inhabited Graph := ⟨sentinels⟩

variable (g : Graph)

def size : Nat := g.nodes.length

def ids : List NodeId := List.range g.size

def node (id : NodeId) : Query Node := lookup g.nodes id

def pointsTo (id : NodeId) : Query PointerSet := return (← g.node id).pointsTo

def update (id : NodeId) (f : Node → Node) : Graph := { g with nodes := g.nodes.modify id f }

def setRoot (id : NodeId) : Graph := { g with root := some id }

/-! ## Operand edges -/

/-- Adds an operand; the user is recorded once. -/
def addOperand (id op : NodeId) : Graph :=
  (g.update id fun n ↦ { n with operands := n.operands ++ [op] }).update op fun n ↦
    if n.users.contains id then n else { n with users := n.users ++ [id] }

def addOperands (id : NodeId) (ops : List NodeId) : Graph :=
  ops.foldl (fun g op ↦ g.addOperand id op) g

/-! ## Creation -/

/-- Adds a node as it is. -/
def create (n : Node) : NodeId × Graph := (g.size, { g with nodes := g.nodes ++ [n] })

def createWith (n : Node) (ops : List NodeId) : NodeId × Graph :=
  let (id, g) := g.create n
  (id, g.addOperands id ops)

/-- A node that points to itself at offset zero. -/
def createObject (kind : NodeKind) : NodeId × Graph :=
  g.create { kind, pointsTo := .singleton ⟨g.size, .zero⟩ }

def createFunction : NodeId × Graph := g.createObject .function

def createConstant (p : Pointer) : NodeId × Graph :=
  g.create { kind := .constant, pointsTo := .singleton p }

def createGep (base : NodeId) (offset : Offset) : NodeId × Graph :=
  g.createWith { kind := .gep, offset } [base]

def createMemcpy (src dest : NodeId) (offset length : Offset) : NodeId × Graph :=
  g.createWith { kind := .memcpy, offset, length } [src, dest]

/-! ## Control edges -/

def hasSuccessor (a b : NodeId) : Bool :=
  match g.nodes[a]? with
  | some n => n.successors.contains b
  | none => false

/-- Adds a control edge, unless it is there. -/
def addSuccessor (a b : NodeId) : Graph :=
  if g.hasSuccessor a b then g
  else
    (g.update a fun n ↦ { n with successors := n.successors ++ [b] }).update b fun n ↦
      { n with predecessors := n.predecessors ++ [a] }

def removeSuccessor (a b : NodeId) : Graph :=
  (g.update a fun n ↦ { n with successors := n.successors.filter (· != b) }).update b fun n ↦
    { n with predecessors := n.predecessors.filter (· != a) }

def successors (a : NodeId) : List NodeId := ((g.nodes[a]?).map (·.successors)).getD []

def predecessors (a : NodeId) : List NodeId := ((g.nodes[a]?).map (·.predecessors)).getD []

/-- Makes `b` the only successor of `a`. -/
def redirect (a b : NodeId) : Graph :=
  ((g.successors a).foldl (fun g s ↦ g.removeSuccessor a s) g).addSuccessor a b

/-- Places the chain from `first` to `last` right after `anchor`, whose successors it takes over. -/
def spliceAfter (anchor first last : NodeId) : Graph :=
  ((g.successors anchor).foldl
    (fun g s ↦ (g.removeSuccessor anchor s).addSuccessor last s) g).addSuccessor anchor first

/-- Places the chain from `first` to `last` right before `anchor`, whose predecessors it takes over. -/
def spliceBefore (anchor first last : NodeId) : Graph :=
  ((g.predecessors anchor).foldl
    (fun g p ↦ (g.removeSuccessor p anchor).addSuccessor p first) g).addSuccessor last anchor

def insertAfter (anchor id : NodeId) : Graph := g.spliceAfter anchor id id

def pair (a b : NodeId) : Graph :=
  (g.update a fun n ↦ { n with paired := some b }).update b fun n ↦ { n with paired := some a }

end Graph

end PointsTo
