import PointsTo.Journal
import PointsTo.Offset

/-!
# Options of an analysis

The options name the entry function, the flow sensitivity, and the bound on known offsets into
targets of unknown size, which keeps pointer arithmetic in loops finite.  They can be taken from the
environment variables `PTA_ENTRY`, `PTA_FLOW` and `PTA_MAX_OFFSET`.
-/

namespace PointsTo

inductive Flow where
  | insensitive
  | sensitive
  deriving DecidableEq, Inhabited

def Flow.label : Flow → String
  | insensitive => "Insensitive"
  | sensitive => "Sensitive"

structure Options where
  entry : String := "main"
  flow : Flow := .insensitive
  maxOffset : Nat := 4096
  deriving DecidableEq, Inhabited

/-- The variables that were set. -/
structure Environment where
  entry : Option String := none
  flow : Option String := none
  maxOffset : Option String := none

/-- The value of ASCII digits read as a decimal numeral, at least one of them. -/
def decimal? : List Char → Option Nat
  | [] => none
  | digits =>
    digits.foldl (fun n? c ↦
      match n? with
      | none => none
      | some n => if '0' ≤ c ∧ c ≤ '9' then some (10 * n + (c.toNat - '0'.toNat)) else none) (some 0)

/-- A word in decimal, with an optional plus sign in front. -/
def word? (text : String) : Option Nat :=
  let digits := match text.toList with
    | '+' :: rest => rest
    | chars => chars
  match decimal? digits with
  | some n => if n ≤ wordMax then some n else none
  | none => none

/-- `FS` or `FI` in any ASCII case. -/
def Flow.ofName? (name : String) : Option Flow :=
  match name.toList.map Char.toLower with
  | ['f', 's'] => some .sensitive
  | ['f', 'i'] => some .insensitive
  | _ => none

namespace Options

/-- Options from the environment.  An empty entry name is no entry name, and values that cannot be
read are journaled and ignored. -/
def ofEnvironment (env : Environment) (j : Journal) : Options × Journal :=
  let options : Options := match env.entry with
    | some name => if name.isEmpty then {} else { entry := name }
    | none => {}
  let (options, j) := match env.flow with
    | none => (options, j)
    | some name =>
      match Flow.ofName? name with
      | some flow => ({ options with flow }, j)
      | none =>
        (options, j.note .warn fun _ ↦ s!"PTA_FLOW={name} is neither FS nor FI, using FI")
  match env.maxOffset with
  | none => (options, j)
  | some text =>
    match word? text with
    | some maxOffset => ({ options with maxOffset }, j)
    | none =>
      (options, j.note .warn fun _ ↦ s!"PTA_MAX_OFFSET={text} is not a number, ignored")

def withEntry (options : Options) (entry : String) : Options := { options with entry }

def withFlow (options : Options) (flow : Flow) : Options := { options with flow }

end Options

end PointsTo
