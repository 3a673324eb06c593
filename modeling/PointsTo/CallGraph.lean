import PointsTo.Pointer
import PointsTo.Program.Blocks

/-!
# Call graphs

A call graph records which function calls which, and where.  Functions are listed in the order in
which they were first mentioned, edges in the order of their first call; there is one edge per caller
and callee, which collects the call sites.
-/

namespace PointsTo

inductive CallKind where
  | direct
  | indirect
  deriving DecidableEq, Inhabited

structure CallSite where
  kind : CallKind
  node : NodeId
  deriving DecidableEq, Inhabited

structure CallEdge where
  caller : FuncId
  callee : FuncId
  sites : List CallSite
  deriving DecidableEq, Inhabited

structure CallGraph where
  functions : List FuncId := []
  edges : List CallEdge := []
  deriving DecidableEq, Inhabited

def CallEdge.joins (e : CallEdge) (caller callee : FuncId) : Bool :=
  e.caller == caller && e.callee == callee

def CallEdge.addSite (e : CallEdge) (site : CallSite) : CallEdge :=
  if e.sites.contains site then e else { e with sites := e.sites ++ [site] }

namespace CallGraph

variable (cg : CallGraph)

/-- The position of a function in the order of first mention. -/
def index? (f : FuncId) : Option Nat := cg.functions.findIdx? (· == f)

def addFunction (f : FuncId) : CallGraph :=
  if cg.functions.contains f then cg else { cg with functions := cg.functions ++ [f] }

def edge? (caller callee : FuncId) : Option CallEdge := cg.edges.find? (·.joins caller callee)

def addCall (caller callee : FuncId) (site : CallSite) : CallGraph :=
  let cg := (cg.addFunction caller).addFunction callee
  match cg.edge? caller callee with
  | some _ =>
    { cg with edges := cg.edges.map fun e ↦ if e.joins caller callee then e.addSite site else e }
  | none => { cg with edges := cg.edges ++ [⟨caller, callee, [site]⟩] }

/-- The functions called by `caller`, in the order of their first call. -/
def callees (caller : FuncId) : List FuncId :=
  (cg.edges.filter (·.caller == caller)).map (·.callee)

def sites (caller callee : FuncId) : List CallSite :=
  match cg.edge? caller callee with
  | some e => e.sites
  | none => []

/-- The functions reachable from `root` in breadth-first order.  Of a function's callees, the one that
was added to them last comes first. -/
def reachable (root : FuncId) : List FuncId :=
  if cg.functions.contains root then
    BreadthFirst.order cg.functions.length (fun f ↦ (cg.callees f).reverse) root
  else []

end CallGraph

end PointsTo
