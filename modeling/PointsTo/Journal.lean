/-!
# The journal of an analysis

Lines are kept in order, and only those at least as severe as the journal's threshold.  The text of a
line is computed only if the line is kept.
-/

namespace PointsTo

inductive Severity where
  | error
  | warn
  | info
  | debug
  | trace
  deriving DecidableEq, Inhabited

namespace Severity

/-- From the most severe on. -/
def rank : Severity → Nat
  | error => 0
  | warn => 1
  | info => 2
  | debug => 3
  | trace => 4

def label : Severity → String
  | error => "ERROR"
  | warn => "WARN"
  | info => "INFO"
  | debug => "DEBUG"
  | trace => "TRACE"

end Severity

structure Journal where
  /-- Without a threshold nothing is kept. -/
  threshold : Option Severity := none
  lines : Array String := #[]

namespace Journal

instance : Inhabited Journal := ⟨{}⟩

def keeps (j : Journal) (severity : Severity) : Bool :=
  match j.threshold with
  | none => false
  | some threshold => severity.rank ≤ threshold.rank

def note (j : Journal) (severity : Severity) (text : Unit → String) : Journal :=
  if j.keeps severity then { j with lines := j.lines.push s!"{severity.label} {text ()}" } else j

end Journal

end PointsTo
