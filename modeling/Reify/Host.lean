import Reify.Diagnostic.Excerpt
import Reify.Syntax.Phrase

/-!
# What a run needs from outside

A run reads programs, asks for types, prints and emits through a front end, and writes files.
Nothing is assumed about the answers.
-/

namespace Reify

/-- A unit of a program. -/
structure SourceFile where
  file : Nat
  path : String
  /-- Whether the unit only declares what exists elsewhere; such units are never changed. -/
  isDeclaration : Bool
  text : String
  unit : SourceUnit

/-- Names and texts of the files of a program. -/
def SourceFile.sources (files : List SourceFile) : Sources where
  name? id := (files.find? (·.file == id)).map path
  text? id := (files.find? (·.file == id)).map text

/-- A front end and a store of files, over a state of their own.  Operations on files may be
refused with a reason. -/
structure Host (σ : Type) where
  /-- Reads the units at the given paths and every unit they reach.  It fails if there is no
  program at all. -/
  parse (roots : List String) : StateM σ (Except (List Diagnostic) (List SourceFile))
  /-- The inferred type of a node of a file. -/
  infer (state : σ) (file node : Nat) : Option TypeExpr
  /-- What is wrong with a unit. -/
  diagnostics (state : σ) (file : SourceFile) : List Diagnostic
  /-- The text of a unit, which `parse` reads again. -/
  print (file : SourceFile) : StateM σ String
  /-- Writes the compiled program, whose units lie below a root, into a directory. -/
  emit (files : List SourceFile) (root outDir : String) : StateM σ (List Diagnostic)
  /-- Removes a directory with all that is in it; there need not be one. -/
  removeAll (path : String) : StateM σ (Except String Unit)
  /-- Makes a directory and those above it that are missing. -/
  makeDirectories (path : String) : StateM σ (Except String Unit)
  /-- Writes a file. -/
  write (path text : String) : StateM σ (Except String Unit)

end Reify
