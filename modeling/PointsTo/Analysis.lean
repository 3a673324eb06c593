import PointsTo.Lowering.Build
import PointsTo.Memory.PerNode
import PointsTo.Memory.Shared
import PointsTo.Options
import PointsTo.Solver

/-!
# The analysis of a program

The program is lowered from its entry function and the graph is solved; functions that are found to
be called through pointers are lowered while solving.
-/

namespace PointsTo

/-- The graph of a program under lowering is extended by the functions that turn out to be called. -/
def Lowering.linker (prog : Program) : CallLinker Lowering where
  graph := (·.graph)
  onGraph f s := { s with graph := f s.graph }
  onJournal f s := { s with journal := f s.journal }
  link := Lower.linkCall prog

/-- An analysis: what was lowered, and the solver of its graph. -/
abbrev Analysis (μ : Type) := Solving μ Lowering

namespace Analysis

variable {μ : Type} [MemoryModel μ]

def fresh (options : Options) (journal : Journal) : Analysis μ :=
  { solver := .fresh μ options.maxOffset, host := { journal } }

/-- Lowers the program, unless its graph has a root, and solves the graph. -/
def run (prog : Program) (options : Options) (budget : Nat) : Solve μ Lowering SolverStats := do
  if (← get).host.graph.root.isNone then
    let _ ← Solve.onHost (Lower.build prog options.entry)
  Solve.run (Lowering.linker prog) budget

/-- One more round over the current state. -/
def round (prog : Program) (budget : Nat) : Solve μ Lowering Bool :=
  Solve.round (Lowering.linker prog) budget

/-- The warnings of lowering, then those of the solver. -/
def warnings (a : Analysis μ) : List Warning :=
  a.host.warnings.toList ++ a.solver.warnings.toList

/-- Analyzes a program from its entry function. -/
def analyze (prog : Program) (options : Options) (budget : Nat) : Solve μ Lowering SolverStats := do
  Solve.note (Lowering.linker prog) .info fun _ ↦
    s!"PTA: analyzing `{prog.name}` from @{options.entry} ({options.flow.label})"
  run prog options budget

end Analysis

end PointsTo
