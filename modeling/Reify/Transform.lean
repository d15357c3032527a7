import Reify.Failure
import Reify.Host
import Reify.Instrument
import Reify.Path
import Reify.Report

/-!
# Runs

A run reads a program, fills in its types, stages it, reads it back, adds the checks, stages it
again, reads it back and emits it.  It stops at the first stage that fails; the staging directory
is removed in any case, unless it is to be kept.

Problems that the front end reports do not stop a run, but an error among them fails it at the
end.
-/

namespace Reify

/-- The stages of a run. -/
inductive Stage where
  | init
  | parseSource
  | diagnoseSource
  | annotate
  | stageAnnotated
  | parseAnnotated
  | instrument
  | stageInstrumented
  | parseFinal
  | diagnoseFinal
  | emit
  | cleanup
deriving DecidableEq, Repr, Inhabited

/-- The name of a stage in reports. -/
def Stage.name : Stage → String
  | init => "init"
  | parseSource => "parse_original"
  | diagnoseSource => "diagnose_original"
  | annotate => "pass1"
  | stageAnnotated => "write_temp"
  | parseAnnotated => "parse_temp"
  | instrument => "pass2"
  | stageInstrumented => "write_temp2"
  | parseFinal => "parse_final"
  | diagnoseFinal => "diagnose_final"
  | emit => "emit"
  | cleanup => "cleanup"

/-- What a run says: to its user and to the log. -/
inductive Notice where
  | event (e : Event)
  | log (line : Log.Line)

/-- The notice in a log that also takes the events. -/
def Notice.toLog : Notice → List Log.Line
  | event e => e.toLog
  | log line => [line]

/-- The event, if the notice is one. -/
def Notice.event? : Notice → Option Event
  | event e => some e
  | log _ => none

/-- What does not change during a run. -/
structure Job (σ : Type) where
  host : Host σ
  options : Options
  entry : String

namespace Job

variable {σ : Type}

/-- The directory of the entry unit. -/
def base (j : Job σ) : String := (Path.parent? j.entry).getD ""

/-- The staging directory. -/
def tempDir (j : Job σ) : String := Path.join j.base j.options.tempFolderName

/-- Where a unit is staged. -/
def staged (j : Job σ) (path : String) : String := stagingPath j.base j.tempDir path

end Job

/-- The state of a run. -/
structure Progress (σ : Type) where
  host : σ
  stages : List Stage := []
  diagnostics : List Diagnostic := []
  /-- The texts of the diagnostics, made while their sources are at hand. -/
  rendered : List String := []
  /-- The staged units of the last staging. -/
  files : List String := []
  mutations : Nat := 0
  notices : List Notice := []

/-- A run has stopped; its diagnostics say why. -/
structure Stopped where

/-- A part of a run. -/
abbrev Run (σ : Type) := ExceptT Stopped (StateM (Progress σ))

namespace Run

variable {σ α : Type}

/-- Says something. -/
def notify (n : Notice) : Run σ Unit := modify fun p => { p with notices := p.notices ++ [n] }

/-- Reports an event. -/
def report (e : Event) : Run σ Unit := notify (.event e)

/-- Writes a line to the log. -/
def log (line : Log.Line) : Run σ Unit := notify (.log line)

/-- Asks the host. -/
def ask (act : StateM σ α) : Run σ α := do
  let p ← get
  let (a, host) := act.run p.host
  set { p with host }
  return a

/-- Takes diagnostics into the account of the run. -/
def collect (files : List SourceFile) (found : List Diagnostic) : Run σ Unit :=
  modify fun p => { p with
    rendered := p.rendered ++ Diagnostic.renderAll (SourceFile.sources files) found
    diagnostics := p.diagnostics ++ found }

/-- Stops the run with diagnostics. -/
def stop (files : List SourceFile) (found : List Diagnostic) : Run σ α := do
  collect files found
  throw {}

/-- Runs a stage. -/
def stage (s : Stage) (act : Run σ α) : Run σ α := do
  log (.span "reflect_ts.stage" [("stage", .str s.name)])
  log (.event .debug "stage started" [])
  modify fun p => { p with stages := p.stages ++ [s] }
  try
    let a ← act
    log (.record [("failed", .bool false)])
    return a
  catch e =>
    log (.record [("failed", .bool true)])
    throw e

/-! ### Stages -/

variable (j : Job σ)

/-- Removes the staging directory. -/
def removeTempDir : Run σ (Except Failure Unit) := do
  match ← ask (j.host.removeAll j.tempDir) with
  | .ok () => return .ok ()
  | .error cause => return .error (.file j.tempDir cause)

/-- Removes what an earlier run has left. -/
def init : Run σ Unit := do
  match ← removeTempDir j with
  | .ok () => return ()
  | .error f => stop [] (f.toDiagnostics 0)

/-- Reads the program. -/
def parseSource : Run σ (List SourceFile) := do
  match ← ask (j.host.parse [j.entry]) with
  | .ok files => return files
  | .error found => stop [] found

/-- Reads a staged program. -/
def parseStaged : Run σ (List SourceFile) := do
  let root := j.staged j.entry
  match ← ask (j.host.parse [root]) with
  | .ok files => return files
  | .error found =>
    let f := Failure.noProgram found
    let d := { f.toDiagnostic 0 with notes := ["while parsing staged unit " ++ root] }
    stop [] (d :: f.toDiagnostics 0)

/-- Collects what is wrong with the program. -/
def diagnose (files : List SourceFile) : Run σ Unit := do
  let state := (← get).host
  let found := (files.filter (!·.isDeclaration)).flatMap (j.host.diagnostics state)
  log (.event .debug "collected diagnostics" [("count", .int found.length)])
  collect files found

/-- Fills in the types of one unit and gives what is missing. -/
def annotateFile (file : SourceFile) : Run σ (SourceFile × List Diagnostic) := do
  if file.isDeclaration then return (file, [])
  let state := (← get).host
  let start : Annotator := { context := .start j.options file.unit }
  let (unit, a) := (file.unit.annotate (j.host.infer state file.file)).run start
  if !a.misses.isEmpty then
    log (.event .debug "inference failed"
      [("file", .str file.path), ("misses", .int a.misses.length)])
  return ({ file with unit }, a.misses.flatMap fun m => (Failure.missing m).toDiagnostics file.file)

/-- Adds the checks of one unit and gives what has no reflection. -/
def instrumentFile (file : SourceFile) : Run σ (SourceFile × List Diagnostic) := do
  if file.isDeclaration then return (file, [])
  let start : Walker := { context := .start j.options file.unit }
  let (unit, w) := (instrument file.unit).run start
  w.log.forM log
  if w.errors.isEmpty then
    modify fun p => { p with mutations := p.mutations + w.context.mutations.length }
  return ({ file with unit },
    w.errors.flatMap fun u => (Failure.unsupported u).toDiagnostics file.file)

/-- Changes every unit of a program, and stops if there are problems. -/
def changeFiles (change : SourceFile → Run σ (SourceFile × List Diagnostic))
    (files : List SourceFile) : Run σ (List SourceFile) := do
  let changed ← files.mapM change
  let files := changed.map Prod.fst
  let found := changed.flatMap Prod.snd
  if found.isEmpty then return files else stop files found

/-- Writes a file and makes the directories it lies in. -/
def writeFile (path text : String) : Run σ (Except String Unit) := do
  let made ← match Path.parent? path with
    | some directory => ask (j.host.makeDirectories directory)
    | none => pure (.ok ())
  match made with
  | .ok () => ask (j.host.write path text)
  | .error cause => return .error cause

/-- Stages one unit. -/
def stageFile (files : List SourceFile) (file : SourceFile) : Run σ Unit := do
  let path := j.staged file.path
  let text ← ask (j.host.print file)
  match ← writeFile j path text with
  | .error cause => stop files ((Failure.file path cause).toDiagnostics file.file)
  | .ok () =>
    log (.event .debug "staged" [("path", .str path)])
    modify fun p => { p with files := p.files ++ [path] }

/-- Stages a program. -/
def stageFiles (files : List SourceFile) : Run σ Unit := do
  modify fun p => { p with files := [] }
  (files.filter (!·.isDeclaration)).forM (stageFile j files)

/-- Emits the program. -/
def emit (files : List SourceFile) : Run σ Unit := do
  collect files (← ask (j.host.emit files j.tempDir j.base))

/-- All stages up to the last one. -/
def execute : Run σ Unit := do
  stage .init (init j)
  let files ← stage .parseSource (parseSource j)
  report (.scan files.length)
  stage .diagnoseSource (diagnose j files)
  report (.transform (files.filter (!·.isDeclaration)).length)
  let files ← stage .annotate (changeFiles (annotateFile j) files)
  stage .stageAnnotated (stageFiles j files)
  let files ← stage .parseAnnotated (parseStaged j)
  let files ← stage .instrument (changeFiles (instrumentFile j) files)
  stage .stageInstrumented (stageFiles j files)
  let files ← stage .parseFinal (parseStaged j)
  if j.options.finalDiagnostics then stage .diagnoseFinal (diagnose j files)
  report (.emit j.base)
  stage .emit (emit j files)

/-- Removes the staging directory at the end; if that fails, the run goes on. -/
def cleanup : Run σ Unit := do
  report (.cleanup j.tempDir)
  stage .cleanup do
    match ← removeTempDir j with
    | .ok () => return ()
    | .error f => report (.warning ("could not remove staging directory: " ++ f.message))

end Run

/-- What a successful run leaves. -/
structure Outcome where
  /-- The staged units of the final program. -/
  files : List String
  diagnostics : List Diagnostic
  stages : List Stage
  tempDir : String
  /-- How many nodes were changed. -/
  mutations : Nat

/-- Transforms a program.  The result comes with all that the run has said and done. -/
def transform {σ : Type} (j : Job σ) (host : σ) :
    Except (List Diagnostic) Outcome × Progress σ :=
  let whole : StateM (Progress σ) Bool := do
    let _ ← (Run.report (.start j.entry)).run
    let completed ← (Run.execute j).run
    if !j.options.keepTempFiles then let _ ← (Run.cleanup j).run
    let rendered := (← get).rendered
    let _ ← ((reportBatches j.options rendered).forM Run.report).run
    let success := completed.isOk && !Diagnostic.anyError (← get).diagnostics
    let _ ← (Run.report (.finish success)).run
    return success
  let (success, p) := whole.run { host }
  if success then
    (.ok ⟨p.files, p.diagnostics, p.stages, j.tempDir, p.mutations⟩, p)
  else (.error p.diagnostics, p)

end Reify
