import PointsTo.CallGraph
import PointsTo.Text.Printable

/-!
# Call graphs in the dot format

One line per function, labeled with its quoted name, then one line per edge, labeled with the number
of its call sites.

A quoted text stands between double quotes.  Quotes, backslashes and the common control characters
are written with a backslash, other characters that do not print by their number in hexadecimal.
-/

namespace PointsTo

namespace Text

def escapeChar (c : Char) : List Char :=
  match c with
  | '"' => ['\\', '"']
  | '\\' => ['\\', '\\']
  | '\n' => ['\\', 'n']
  | '\r' => ['\\', 'r']
  | '\t' => ['\\', 't']
  | c =>
    if c.toNat = 0 then ['\\', '0']
    else if isPrintable c then [c]
    else ['\\', 'u', '\x7b'] ++ Nat.toDigits 16 c.toNat ++ ['\x7d']

def quote (s : String) : String := String.ofList ('"' :: s.toList.flatMap escapeChar ++ ['"'])

/-- Writes a text inside quotes that know backslash escapes only. -/
def escapeQuotes (s : String) : String :=
  String.ofList (s.toList.flatMap fun c ↦ if c = '"' ∨ c = '\\' then ['\\', c] else [c])

end Text

namespace CallGraph

def vertexLine (index : Nat) (name : String) : String :=
  s!"    {index} [ label = \"{Text.escapeQuotes (Text.quote name)}\" ]\n"

def edgeLine (source target sites : Nat) : String :=
  s!"    {source} -> {target} [ label = \"{sites}\" ]\n"

def dot (cg : CallGraph) (name : FuncId → Query String) : Query String := do
  let names ← cg.functions.mapM name
  let vertices := names.mapIdx vertexLine
  let edges := cg.edges.map fun e ↦
    edgeLine ((cg.index? e.caller).getD 0) ((cg.index? e.callee).getD 0) e.sites.length
  return String.join (vertices ++ edges)

end CallGraph

end PointsTo
