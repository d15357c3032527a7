import Reify.Json.Scanner

/-!
# Options

What a run of the program can be told: how the runtime library is called, whether values may be
null, where intermediate files go and how many diagnostics are reported.
-/

namespace Reify

/-- The options of a run. -/
structure Options where
  /-- The program is checked with strict null checks, so nothing is wrapped as nullable. -/
  strictNullChecks : Bool := false
  /-- Primitive and literal types admit `null` and `undefined`. -/
  nullableWrapping : Bool := false
  /-- Every unit registers module aliases first. -/
  moduleAliasing : Bool := false
  /-- The name of the staging directory beside the entry unit. -/
  tempFolderName : String := ".reflect-ts"
  keepTempFiles : Bool := false
  /-- What the names of generated variables start with. -/
  libraryNamespace : String := "_"
  libraryAlias : String := "t"
  /-- The module that the runtime library is imported from. -/
  libraryModule : String := "ts-runtime/lib"
  /-- The final program is diagnosed too. -/
  finalDiagnostics : Bool := false
  /-- How many diagnostics are reported at once. -/
  diagnosticBatchSize : Nat := 10
  /-- How many diagnostics are reported at most. -/
  maxDiagnostics : Option Nat := none
deriving DecidableEq, Repr, Inhabited

namespace Options

/-- The identifier of the runtime library. -/
def library (o : Options) : String := o.libraryNamespace ++ o.libraryAlias

/-- The name of a generated variable. -/
def localName (o : Options) (name : String) : String := o.libraryNamespace ++ name

/-- Whether primitive types are wrapped as nullable. -/
def wrapsNullable (o : Options) : Bool := o.nullableWrapping && !o.strictNullChecks

/-- The size of a batch of diagnostics, never 0. -/
def batchSize (o : Options) : Nat := max o.diagnosticBatchSize 1

/-! ### JSON -/

/-- The names of the options, in order. -/
def names : List String :=
  ["strictNullChecks", "nullableWrapping", "moduleAliasing", "tempFolderName", "keepTempFiles",
    "libraryNamespace", "libraryAlias", "libraryModule", "finalDiagnostics",
    "diagnosticBatchSize", "maxDiagnostics"]

/-- Sets one option, if the value has its type. -/
def set? (o : Options) : String → Json → Option Options
  | "strictNullChecks", .bool b => some { o with strictNullChecks := b }
  | "nullableWrapping", .bool b => some { o with nullableWrapping := b }
  | "moduleAliasing", .bool b => some { o with moduleAliasing := b }
  | "tempFolderName", .str s => some { o with tempFolderName := s }
  | "keepTempFiles", .bool b => some { o with keepTempFiles := b }
  | "libraryNamespace", .str s => some { o with libraryNamespace := s }
  | "libraryAlias", .str s => some { o with libraryAlias := s }
  | "libraryModule", .str s => some { o with libraryModule := s }
  | "finalDiagnostics", .bool b => some { o with finalDiagnostics := b }
  | "diagnosticBatchSize", .int n =>
    if 0 ≤ n then some { o with diagnosticBatchSize := n.toNat } else none
  | "maxDiagnostics", .null => some { o with maxDiagnostics := none }
  | "maxDiagnostics", .int n => if 0 ≤ n then some { o with maxDiagnostics := n.toNat } else none
  | _, _ => none

/-- Options from a value; what is not given keeps its default. -/
def ofJson? : Json → Option Options
  | .obj members =>
    let known := members.filter fun (key, _) => names.contains key
    if (known.map Prod.fst).Nodup then
      known.foldlM (fun o (key, value) => o.set? key value) {}
    else none
  | .arr items =>
    if items.length ≤ names.length then
      (names.zip items).foldlM (fun o (key, value) => o.set? key value) {}
    else none
  | _ => none

/-- Options from the text of a value. -/
def parse (text : String) : Except Fault Options :=
  Scan.run (Scan.record names field {}) text
where
  /-- Reads one option. -/
  field (name : String) (o : Options) : Scan Options := do
    match o.set? name (← Scan.datum) with
    | some o => return o
    | none => Scan.fail .mismatch

/-- The JSON of options. -/
def toJson (o : Options) : Json :=
  .obj [("strictNullChecks", .bool o.strictNullChecks),
    ("nullableWrapping", .bool o.nullableWrapping),
    ("moduleAliasing", .bool o.moduleAliasing),
    ("tempFolderName", .str o.tempFolderName),
    ("keepTempFiles", .bool o.keepTempFiles),
    ("libraryNamespace", .str o.libraryNamespace),
    ("libraryAlias", .str o.libraryAlias),
    ("libraryModule", .str o.libraryModule),
    ("finalDiagnostics", .bool o.finalDiagnostics),
    ("diagnosticBatchSize", .int o.diagnosticBatchSize),
    ("maxDiagnostics", match o.maxDiagnostics with
      | none => .null
      | some n => .int n)]

end Options

end Reify
