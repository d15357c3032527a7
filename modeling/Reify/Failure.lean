import Reify.Annotate
import Reify.Diagnostic

/-!
# Failures

Why a program cannot be transformed, and the diagnostics that say so.
-/

namespace Reify

/-- Why a program cannot be transformed. -/
inductive Failure where
  /-- A type has no reflection. -/
  | unsupported (type : Unsupported)
  /-- A type is neither written nor inferable. -/
  | missing (miss : Miss)
  /-- A file cannot be written or a directory cannot be removed. -/
  | file (path : String) (cause : String)
  /-- The front end has no program to give. -/
  | noProgram (diagnostics : List Diagnostic)

namespace Failure

/-- The code of a kind of failure. -/
def code : Failure → String
  | unsupported _ => "RTS0001"
  | missing _ => "RTS0002"
  | file _ _ => "RTS0003"
  | noProgram _ => "RTS0004"

/-- What is wrong. -/
def message : Failure → String
  | unsupported t => "No reflection for syntax kind '" ++ t.kind ++ "' found."
  | missing _ => "no inferable type"
  | file path cause => path ++ ": " ++ cause
  | noProgram ds => "front end reported " ++ toString ds.length ++ " diagnostic(s)"

/-- What lies behind the failure, if it comes from outside. -/
def cause? : Failure → Option String
  | file _ cause => some cause
  | _ => none

/-- The place that a failure points at. -/
def loc : Failure → Loc
  | unsupported t => t.loc
  | missing m => m.loc
  | file _ _ | noProgram _ => {}

/-- What else there is to say. -/
def notes : Failure → List String
  | missing ⟨_, some name⟩ => ["while inferring the type of `" ++ name ++ "`"]
  | file path _ => ["path: " ++ path]
  | _ => []

/-- The failure itself as one diagnostic of a file. -/
def toDiagnostic (f : Failure) (file : Nat) : Diagnostic where
  code := f.code
  message := f.message
  span := f.loc.toSpan file
  notes := f.notes

/-- The diagnostics of a failure in a file.  Those of the front end stand for themselves. -/
def toDiagnostics (f : Failure) (file : Nat) : List Diagnostic :=
  match f with
  | noProgram ds => ds
  | _ => [f.toDiagnostic file]

end Failure

end Reify
