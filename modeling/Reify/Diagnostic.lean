import Reify.Syntax.Mark

/-!
# Diagnostics

What is wrong with a program and where: problems found here and those that the front end reports.
-/

namespace Reify

/-- Whether a diagnostic fails the run. -/
inductive Severity where
  | error
  | warning
deriving DecidableEq, Repr, Inhabited

/-- The severity's name. -/
def Severity.name : Severity → String
  | error => "error"
  | warning => "warning"

/-- A stretch of the text of a file, in bytes. -/
structure Span where
  file : Nat := 0
  start : Nat := 0
  stop : Nat := 0
deriving DecidableEq, Repr, Inhabited

/-- The largest offset that a span can hold. -/
def Span.maxOffset : Nat := Nat.pow 2 32 - 1

/-- A place as a span of a file; offsets that are too large are cut down. -/
def Loc.toSpan (l : Loc) (file : Nat) : Span :=
  ⟨file, min l.start Span.maxOffset, min l.stop Span.maxOffset⟩

/-- A problem of a program. -/
structure Diagnostic where
  severity : Severity := .error
  code : String
  message : String
  span : Span := {}
  notes : List String := []
deriving DecidableEq, Repr, Inhabited

/-- Whether a diagnostic fails the run. -/
def Diagnostic.isError (d : Diagnostic) : Bool := d.severity = .error

/-- Whether any of the diagnostics fails the run. -/
def Diagnostic.anyError (ds : List Diagnostic) : Bool := ds.any isError

end Reify
