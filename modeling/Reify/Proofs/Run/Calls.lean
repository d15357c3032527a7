import Mathlib.Data.List.Infix
import Reify.Transform

/-!
# What a run does

A run asks its host for answers and takes diagnostics into account.  `Call` is a question with its
answer, and `Host.Performs` says that a list of calls leads from one state of the host to another.
The state of the host is arbitrary, so it may keep a list of all that it was asked: what holds of the
calls of every run holds of what is asked.

`Job.Does` is what one stage may do, and whether the run goes on after it.  Each stage does just that
(`Run.Obeys`).
-/

namespace Reify

open List

/-! ### Calls -/

/-- A question to the host, with the answer. -/
inductive Call where
  | parse (roots : List String) (answer : Except (List Diagnostic) (List SourceFile))
  | print (file : SourceFile) (text : String)
  | emit (files : List SourceFile) (root outDir : String) (found : List Diagnostic)
  | removeAll (path : String) (answer : Except String Unit)
  | makeDirectories (path : String) (answer : Except String Unit)
  | write (path text : String) (answer : Except String Unit)

namespace Host

variable {σ : Type} (h : Host σ)

/-- A call is answered in one state and leads to another. -/
def Answers (s : σ) : Call → σ → Prop
  | .parse roots answer, s' => (h.parse roots).run s = (answer, s')
  | .print file text, s' => (h.print file).run s = (text, s')
  | .emit files root outDir found, s' => (h.emit files root outDir).run s = (found, s')
  | .removeAll path answer, s' => (h.removeAll path).run s = (answer, s')
  | .makeDirectories path answer, s' => (h.makeDirectories path).run s = (answer, s')
  | .write path text answer, s' => (h.write path text).run s = (answer, s')

/-- Calls are made one after another. -/
inductive Performs : σ → List Call → σ → Prop where
  | nil {s : σ} : Performs s [] s
  | cons {s s₁ s' : σ} {c : Call} {cs : List Call} (answer : h.Answers s c s₁)
      (rest : Performs s₁ cs s') : Performs s (c :: cs) s'

variable {h}

theorem Performs.single {s s' c} (answer : h.Answers s c s') : h.Performs s [c] s' :=
  .cons answer .nil

theorem Performs.append {s s₁ s' cs ds} (first : h.Performs s cs s₁)
    (second : h.Performs s₁ ds s') : h.Performs s (cs ++ ds) s' := by
  induction first with
  | nil => exact second
  | cons answer _ ih => exact .cons answer (ih second)

theorem Performs.eq_of_nil {s s'} (performs : h.Performs s [] s') : s = s' := by
  cases performs
  rfl

/-- A host that keeps a list of what it is asked has been asked just that. -/
theorem Performs.logged {log : σ → List Call}
    (logs : ∀ s c s', h.Answers s c s' → log s' = log s ++ [c]) {s s' cs}
    (performs : h.Performs s cs s') : log s' = log s ++ cs := by
  induction performs with
  | nil => exact (append_nil _).symm
  | cons answer _ ih => rw [ih, logs _ _ _ answer, append_assoc, singleton_append]

end Host

/-! ### Deeds -/

/-- What a part of a run has done: the stages entered, the calls, the diagnostics found with the
units at hand, and the events reported. -/
structure Deeds where
  stages : List Stage := []
  calls : List Call := []
  found : List (List SourceFile × Diagnostic) := []
  events : List Event := []

namespace Deeds

/-- One after the other. -/
def append (d e : Deeds) : Deeds :=
  ⟨d.stages ++ e.stages, d.calls ++ e.calls, d.found ++ e.found, d.events ++ e.events⟩

instance : Append Deeds := ⟨append⟩

@[simp] theorem stages_append (d e : Deeds) : (d ++ e).stages = d.stages ++ e.stages := rfl
@[simp] theorem calls_append (d e : Deeds) : (d ++ e).calls = d.calls ++ e.calls := rfl
@[simp] theorem found_append (d e : Deeds) : (d ++ e).found = d.found ++ e.found := rfl
@[simp] theorem events_append (d e : Deeds) : (d ++ e).events = d.events ++ e.events := rfl

@[simp] theorem append_empty (d : Deeds) : d ++ ({} : Deeds) = d := by
  change Deeds.mk _ _ _ _ = d
  simp

end Deeds

/-- Diagnostics found while some units are at hand. -/
def foundIn (files : List SourceFile) (ds : List Diagnostic) : List (List SourceFile × Diagnostic) :=
  ds.map fun d => (files, d)

namespace Progress

variable {σ : Type}

/-- The events reported so far. -/
def events (p : Progress σ) : List Event := p.notices.filterMap Notice.event?

/-- What has been done between two states of a run. -/
structure Gains (h : Host σ) (p : Progress σ) (d : Deeds) (p' : Progress σ) : Prop where
  host : h.Performs p.host d.calls p'.host
  stages : p'.stages = p.stages ++ d.stages
  diagnostics : p'.diagnostics = p.diagnostics ++ d.found.map Prod.snd
  rendered : p'.rendered =
    p.rendered ++ d.found.map fun x => x.2.render (SourceFile.sources x.1)
  events : p'.events = p.events ++ d.events

namespace Gains

variable {h : Host σ} {p p₁ p' : Progress σ} {d e : Deeds}

theorem refl (p : Progress σ) : Gains h p {} p := ⟨.nil, by simp, by simp, by simp, by simp⟩

theorem trans (first : Gains h p d p₁) (second : Gains h p₁ e p') : Gains h p (d ++ e) p' := by
  refine ⟨first.host.append second.host, ?_, ?_, ?_, ?_⟩
  · rw [second.stages, first.stages, append_assoc, Deeds.stages_append]
  · rw [second.diagnostics, first.diagnostics, append_assoc, Deeds.found_append,
      map_append]
  · rw [second.rendered, first.rendered, append_assoc, Deeds.found_append, map_append]
  · rw [second.events, first.events, append_assoc, Deeds.events_append]

/-- What follows does nothing of note. -/
theorem quiet (first : Gains h p d p₁) (second : Gains h p₁ {} p') : Gains h p d p' := by
  simpa using first.trans second

/-- A call changes the host only. -/
theorem call {c s'} (answer : h.Answers p.host c s') :
    Gains h p { calls := [c] } { p with host := s' } :=
  ⟨.single answer, by simp, by simp, by simp, (append_nil _).symm⟩

theorem log (p : Progress σ) (line : Log.Line) :
    Gains h p {} { p with notices := p.notices ++ [.log line] } := by
  refine ⟨.nil, by simp, by simp, by simp, ?_⟩
  simp [Progress.events, Notice.event?]

theorem report (p : Progress σ) (e : Event) :
    Gains h p { events := [e] } { p with notices := p.notices ++ [.event e] } := by
  refine ⟨.nil, by simp, by simp, by simp, ?_⟩
  simp [Progress.events, Notice.event?]

theorem enter (p : Progress σ) (s : Stage) :
    Gains h p { stages := [s] } { p with stages := p.stages ++ [s] } :=
  ⟨.nil, rfl, by simp, by simp, (append_nil _).symm⟩

theorem collect (p : Progress σ) (files : List SourceFile) (ds : List Diagnostic) :
    Gains h p { found := foundIn files ds }
      { p with
        rendered := p.rendered ++ Diagnostic.renderAll (SourceFile.sources files) ds
        diagnostics := p.diagnostics ++ ds } := by
  refine ⟨.nil, by simp, ?_, ?_, (append_nil _).symm⟩
  · simp [foundIn, Function.comp_def]
  · simp [foundIn, Diagnostic.renderAll, Function.comp_def]

/-- What is neither seen by the host nor said to anyone. -/
theorem internal {p'} (host : p'.host = p.host) (stages : p'.stages = p.stages)
    (diagnostics : p'.diagnostics = p.diagnostics) (rendered : p'.rendered = p.rendered)
    (notices : p'.notices = p.notices) : Gains h p {} p' := by
  refine ⟨host ▸ .nil, ?_, ?_, ?_, ?_⟩
  · simp [stages]
  · simp [diagnostics]
  · simp [rendered]
  · simp [Progress.events, notices]

theorem staged (p : Progress σ) (path : String) :
    Gains h p {} { p with files := p.files ++ [path] } :=
  .internal rfl rfl rfl rfl rfl

theorem host_eq (gains : Gains h p d p') (none : d.calls = []) : p'.host = p.host := by
  have performs := gains.host
  rw [none] at performs
  exact performs.eq_of_nil.symm

end Gains

end Progress

/-! ### Stages -/

namespace Job

variable {σ : Type} (j : Job σ)

/-- A unit with its types filled in, and what is missing. -/
def annotation (s : σ) (f : SourceFile) : SourceUnit × Annotator :=
  (f.unit.annotate (j.host.infer s f.file)).run { context := .start j.options f.unit }

/-- A unit with checks, and what has no reflection. -/
def instrumentation (f : SourceFile) : SourceUnit × Walker :=
  (instrument f.unit).run { context := .start j.options f.unit }

/-- What becomes of a unit when types are filled in. -/
def annotated (s : σ) (f : SourceFile) : SourceFile :=
  if f.isDeclaration then f else { f with unit := (j.annotation s f).1 }

/-- What becomes of a unit when checks are added. -/
def instrumented (f : SourceFile) : SourceFile :=
  if f.isDeclaration then f else { f with unit := (j.instrumentation f).1 }

/-- What is missing in a unit. -/
def missing (s : σ) (f : SourceFile) : List Diagnostic :=
  if f.isDeclaration then []
  else (j.annotation s f).2.misses.flatMap fun m => (Failure.missing m).toDiagnostics f.file

/-- What has no reflection in a unit. -/
def unsupported (f : SourceFile) : List Diagnostic :=
  if f.isDeclaration then []
  else (j.instrumentation f).2.errors.flatMap fun u => (Failure.unsupported u).toDiagnostics f.file

/-- What the front end finds wrong with units. -/
def problems (s : σ) (files : List SourceFile) : List Diagnostic :=
  (files.filter (!·.isDeclaration)).flatMap (j.host.diagnostics s)

/-- The calls that write a file, and the outcome. -/
inductive Saves (path text : String) : List Call → Except String Unit → Prop where
  | noDirectory {directory cause : String} (parent : Path.parent? path = some directory) :
      Saves path text [.makeDirectories directory (.error cause)] (.error cause)
  | inDirectory {directory : String} {answer : Except String Unit}
      (parent : Path.parent? path = some directory) :
      Saves path text [.makeDirectories directory (.ok ()), .write path text answer] answer
  | bare {answer : Except String Unit} (parent : Path.parent? path = none) :
      Saves path text [.write path text answer] answer

/-- The calls that stage units, and where the first one is refused. -/
inductive Stages : List SourceFile → List Call → Option (SourceFile × String) → Prop where
  | done : Stages [] [] none
  | saved {f : SourceFile} {fs : List SourceFile} {text : String} {calls rest : List Call}
      {refused : Option (SourceFile × String)} (saves : Saves (j.staged f.path) text calls (.ok ()))
      (others : Stages fs rest refused) : Stages (f :: fs) (.print f text :: (calls ++ rest)) refused
  | refused {f : SourceFile} {fs : List SourceFile} {text cause : String} {calls : List Call}
      (saves : Saves (j.staged f.path) text calls (.error cause)) :
      Stages (f :: fs) (.print f text :: calls) (some (f, cause))

/-- **What a stage does**: its calls and what it finds, given the state of the host and the units at
hand, and the units at hand after it.  There are none if it fails. -/
inductive Does (s : σ) : Stage → List SourceFile → List Call →
    List (List SourceFile × Diagnostic) → Option (List SourceFile) → Prop where
  | init {fs : List SourceFile} : Does s .init fs [.removeAll j.tempDir (.ok ())] [] (some fs)
  | initRefused {fs : List SourceFile} {cause : String} :
      Does s .init fs [.removeAll j.tempDir (.error cause)]
        (foundIn [] ((Failure.file j.tempDir cause).toDiagnostics 0)) none
  | parse {fs fs' : List SourceFile} :
      Does s .parseSource fs [.parse [j.entry] (.ok fs')] [] (some fs')
  | noProgram {fs : List SourceFile} {ds : List Diagnostic} :
      Does s .parseSource fs [.parse [j.entry] (.error ds)] (foundIn [] ds) none
  | diagnose {stage : Stage} {fs : List SourceFile}
      (kind : stage = .diagnoseSource ∨ stage = .diagnoseFinal) :
      Does s stage fs [] (foundIn fs (j.problems s fs)) (some fs)
  | annotate {fs : List SourceFile} (complete : fs.flatMap (j.missing s) = []) :
      Does s .annotate fs [] [] (some (fs.map (j.annotated s)))
  | annotateFails {fs : List SourceFile} (incomplete : fs.flatMap (j.missing s) ≠ []) :
      Does s .annotate fs []
        (foundIn (fs.map (j.annotated s)) (fs.flatMap (j.missing s))) none
  | stage {stage : Stage} {fs : List SourceFile} {calls : List Call}
      (kind : stage = .stageAnnotated ∨ stage = .stageInstrumented)
      (stages : j.Stages (fs.filter (!·.isDeclaration)) calls none) :
      Does s stage fs calls [] (some fs)
  | stageRefused {stage : Stage} {fs : List SourceFile} {calls : List Call} {f : SourceFile}
      {cause : String} (kind : stage = .stageAnnotated ∨ stage = .stageInstrumented)
      (stages : j.Stages (fs.filter (!·.isDeclaration)) calls (some (f, cause))) :
      Does s stage fs calls
        (foundIn fs ((Failure.file (j.staged f.path) cause).toDiagnostics f.file)) none
  | reparse {stage : Stage} {fs fs' : List SourceFile}
      (kind : stage = .parseAnnotated ∨ stage = .parseFinal) :
      Does s stage fs [.parse [j.staged j.entry] (.ok fs')] [] (some fs')
  | reparseFails {stage : Stage} {fs : List SourceFile} {ds : List Diagnostic}
      (kind : stage = .parseAnnotated ∨ stage = .parseFinal) :
      Does s stage fs [.parse [j.staged j.entry] (.error ds)]
        (foundIn [] ({ (Failure.noProgram ds).toDiagnostic 0 with
          notes := ["while parsing staged unit " ++ j.staged j.entry] } :: ds)) none
  | instrument {fs : List SourceFile} (complete : fs.flatMap j.unsupported = []) :
      Does s .instrument fs [] [] (some (fs.map j.instrumented))
  | instrumentFails {fs : List SourceFile} (incomplete : fs.flatMap j.unsupported ≠ []) :
      Does s .instrument fs [] (foundIn (fs.map j.instrumented) (fs.flatMap j.unsupported)) none
  | emit {fs : List SourceFile} {ds : List Diagnostic} :
      Does s .emit fs [.emit fs j.tempDir j.base ds] (foundIn fs ds) (some fs)

end Job

/-! ### Parts of a run -/

namespace Run

open Progress (Gains)

section

variable {σ α β : Type} {h : Host σ} {p p₁ : Progress σ}

theorem run_bind_ok {x : Run σ α} {a} (run : x.run.run p = (.ok a, p₁)) (f : α → Run σ β) :
    (x >>= f).run.run p = (f a).run.run p₁ := by
  rw [ExceptT.run_bind, StateT.run_bind, run]
  rfl

theorem run_bind_error {x : Run σ α} {e} (run : x.run.run p = (.error e, p₁)) (f : α → Run σ β) :
    (x >>= f).run.run p = (.error e, p₁) := by
  rw [ExceptT.run_bind, StateT.run_bind, run]
  rfl

theorem run_ask {act : StateM σ α} {a s} (answer : act.run p.host = (a, s)) :
    (ask act).run.run p = (.ok a, { p with host := s }) := by
  change (Except.ok (act.run p.host).1, { p with host := (act.run p.host).2 }) = _
  rw [answer]

/-- What stopping leaves. -/
theorem gains_stop (files : List SourceFile) (ds : List Diagnostic) (p : Progress σ) :
    ∃ p', (stop files ds : Run σ α).run.run p = (.error {}, p') ∧
      Gains h p { found := foundIn files ds } p' :=
  ⟨_, rfl, .collect p files ds⟩

/-- A part of a run that only changes units, given the state of the host. -/
def Changes (h : Host σ) (change : SourceFile → Run σ (SourceFile × List Diagnostic)) (s : σ)
    (result : SourceFile → SourceFile × List Diagnostic) : Prop :=
  ∀ (p : Progress σ) (f : SourceFile), p.host = s →
    ∃ p', (change f).run.run p = (.ok (result f), p') ∧ Gains h p {} p'

theorem Changes.mapM {change s result} (changes : Changes h change s result)
    (files : List SourceFile) (hp : p.host = s) :
    ∃ p', (files.mapM change).run.run p = (.ok (files.map result), p') ∧ Gains h p {} p' := by
  induction files generalizing p with
  | nil => exact ⟨p, rfl, .refl p⟩
  | cons f fs ih =>
    obtain ⟨p₁, run₁, gains₁⟩ := changes p f hp
    obtain ⟨p₂, run₂, gains₂⟩ := ih ((gains₁.host_eq rfl).trans hp)
    refine ⟨p₂, ?_, gains₁.quiet gains₂⟩
    rw [mapM_cons, run_bind_ok run₁, run_bind_ok run₂]
    rfl

/-- **Units are changed** all together, or the run stops. -/
theorem Changes.changeFiles {change : SourceFile → Run σ (SourceFile × List Diagnostic)} {s : σ}
    {result : SourceFile → SourceFile × List Diagnostic} (changes : Changes h change s result)
    (files : List SourceFile) (hp : p.host = s) :
    ∃ p', (files.flatMap (fun f => (result f).2) = [] ∧
        (changeFiles change files).run.run p = (.ok (files.map fun f => (result f).1), p') ∧
        Gains h p {} p') ∨
      (files.flatMap (fun f => (result f).2) ≠ [] ∧
        (changeFiles change files).run.run p = (.error {}, p') ∧
        Gains h p
          { found := foundIn (files.map fun f => (result f).1)
              (files.flatMap fun f => (result f).2) } p') := by
  obtain ⟨p₁, run₁, gains₁⟩ := changes.mapM files hp
  have firsts : (files.map result).map Prod.fst = files.map fun f => (result f).1 := by
    rw [map_map]
    rfl
  have seconds : (files.map result).flatMap Prod.snd = files.flatMap fun f => (result f).2 :=
    flatMap_map ..
  by_cases none : files.flatMap (fun f => (result f).2) = []
  · refine ⟨p₁, .inl ⟨none, ?_, gains₁⟩⟩
    rw [Run.changeFiles, run_bind_ok run₁, firsts, seconds, none]
    rfl
  · obtain ⟨p₂, run₂, gains₂⟩ := gains_stop (α := List SourceFile) (h := h)
      (files.map fun f => (result f).1) (files.flatMap fun f => (result f).2) p₁
    refine ⟨p₂, .inr ⟨none, ?_, gains₁.trans gains₂⟩⟩
    rw [Run.changeFiles, run_bind_ok run₁, firsts, seconds]
    dsimp only
    rw [if_neg (by simpa using none)]
    exact run₂

end

variable {σ α : Type} (j : Job σ)

/-- An action does what a stage may do, whatever the state. -/
def Obeys (stage : Stage) (fs : List SourceFile) (act : Run σ α) (next : α → List SourceFile) :
    Prop :=
  ∀ p : Progress σ, ∃ d : Deeds, Gains j.host p d (act.run.run p).2 ∧ d.stages = [] ∧ d.events = [] ∧
    j.Does p.host stage fs d.calls d.found ((act.run.run p).1.toOption.map next)

variable {j}

variable {stage : Stage}

theorem Obeys.of_run {fs} {act : Run σ α} {next}
    (run : ∀ p : Progress σ, ∃ calls found r p', act.run.run p = (r, p') ∧
      Gains j.host p { calls, found } p' ∧
      j.Does p.host stage fs calls found (r.toOption.map next)) : Obeys j stage fs act next := by
  intro p
  obtain ⟨calls, found, r, p', run, gains, does⟩ := run p
  rw [run]
  exact ⟨_, gains, rfl, rfl, does⟩

variable (j)

theorem run_removeTempDir {answer s p}
    (asked : (j.host.removeAll j.tempDir).run p.host = (answer, s)) :
    (removeTempDir j).run.run p =
      (.ok (answer.mapError (Failure.file j.tempDir)), { p with host := s }) := by
  rw [removeTempDir, run_bind_ok (run_ask asked)]
  cases answer <;> rfl

theorem obeys_init (fs : List SourceFile) : Obeys j .init fs (init j) fun _ => fs := by
  refine .of_run fun p => ?_
  rcases asked : (j.host.removeAll j.tempDir).run p.host with ⟨answer, s⟩
  have gains : Gains j.host p { calls := [.removeAll j.tempDir answer] } { p with host := s } :=
    .call asked
  rw [init, run_bind_ok (run_removeTempDir j asked)]
  cases answer with
  | ok _ => exact ⟨_, _, _, _, rfl, gains, .init⟩
  | error cause =>
    obtain ⟨p', run, stopped⟩ := gains_stop (α := Unit) (h := j.host) []
      ((Failure.file j.tempDir cause).toDiagnostics 0) { p with host := s }
    exact ⟨_, _, _, _, run, gains.trans stopped, .initRefused⟩

theorem obeys_parseSource (fs : List SourceFile) :
    Obeys j .parseSource fs (parseSource j) id := by
  refine .of_run fun p => ?_
  rcases asked : (j.host.parse [j.entry]).run p.host with ⟨answer, s⟩
  have gains : Gains j.host p { calls := [.parse [j.entry] answer] } { p with host := s } :=
    .call asked
  rw [parseSource, run_bind_ok (run_ask asked)]
  cases answer with
  | ok fs' => exact ⟨_, _, _, _, rfl, gains, .parse⟩
  | error ds =>
    obtain ⟨p', run, stopped⟩ := gains_stop (α := List SourceFile) (h := j.host) [] ds
      { p with host := s }
    exact ⟨_, _, _, _, run, gains.trans stopped, .noProgram⟩

theorem obeys_parseStaged (kind : stage = .parseAnnotated ∨ stage = .parseFinal)
    (fs : List SourceFile) : Obeys j stage fs (parseStaged j) id := by
  refine .of_run fun p => ?_
  rcases asked : (j.host.parse [j.staged j.entry]).run p.host with ⟨answer, s⟩
  have gains : Gains j.host p { calls := [.parse [j.staged j.entry] answer] }
      { p with host := s } := .call asked
  rw [parseStaged]
  dsimp only
  rw [run_bind_ok (run_ask asked)]
  cases answer with
  | ok fs' => exact ⟨_, _, _, _, rfl, gains, .reparse kind⟩
  | error ds =>
    obtain ⟨p', run, stopped⟩ := gains_stop (α := List SourceFile) (h := j.host) []
      ({ (Failure.noProgram ds).toDiagnostic 0 with
        notes := ["while parsing staged unit " ++ j.staged j.entry] } :: ds) { p with host := s }
    exact ⟨_, _, _, _, run, gains.trans stopped, .reparseFails kind⟩

theorem obeys_diagnose (kind : stage = .diagnoseSource ∨ stage = .diagnoseFinal)
    (fs : List SourceFile) : Obeys j stage fs (diagnose j fs) fun _ => fs := by
  refine .of_run fun p => ⟨_, _, _, _, rfl, ?_, .diagnose kind⟩
  exact (Gains.log p _).trans (.collect _ fs _)

theorem obeys_emit (fs : List SourceFile) : Obeys j .emit fs (emit j fs) fun _ => fs := by
  refine .of_run fun p => ?_
  rcases asked : (j.host.emit fs j.tempDir j.base).run p.host with ⟨ds, s⟩
  have gains : Gains j.host p { calls := [.emit fs j.tempDir j.base ds] } { p with host := s } :=
    .call asked
  rw [emit, run_bind_ok (run_ask asked)]
  exact ⟨_, _, _, _, rfl, gains.trans (.collect _ fs ds), .emit⟩

/-! ### Passes -/

theorem changes_annotateFile (s : σ) :
    Changes j.host (annotateFile j) s fun f => (j.annotated s f, j.missing s f) := by
  rintro p f rfl
  beta_reduce
  by_cases declaration : f.isDeclaration = true
  · refine ⟨p, ?_, .refl p⟩
    rw [annotateFile, Job.annotated, Job.missing, if_pos declaration, if_pos declaration,
      if_pos declaration]
    rfl
  · rw [annotateFile, Job.annotated, Job.missing, if_neg declaration, if_neg declaration,
      if_neg declaration]
    by_cases none : (j.annotation p.host f).2.misses.isEmpty = true
    · refine ⟨p, ?_, .refl p⟩
      change (if (!(j.annotation p.host f).2.misses.isEmpty) = true then _ else _ : Run σ _).run p = _
      rw [none]
      rfl
    · refine ⟨_, ?_, .log p (.event .debug "inference failed"
        [("file", .str f.path), ("misses", .int (j.annotation p.host f).2.misses.length)])⟩
      change (if (!(j.annotation p.host f).2.misses.isEmpty) = true then _ else _ : Run σ _).run p = _
      rw [eq_false_of_ne_true none]
      rfl

theorem gains_logs (lines : List Log.Line) (p : Progress σ) :
    ∃ p', (lines.forM log).run.run p = (.ok (), p') ∧ Gains j.host p {} p' := by
  induction lines generalizing p with
  | nil => exact ⟨p, rfl, .refl p⟩
  | cons line lines ih =>
    obtain ⟨p', run, gains⟩ := ih { p with notices := p.notices ++ [.log line] }
    refine ⟨p', ?_, (Gains.log p line).quiet gains⟩
    rw [← run]
    rfl

theorem changes_instrumentFile (s : σ) :
    Changes j.host (instrumentFile j) s fun f => (j.instrumented f, j.unsupported f) := by
  intro p f _
  beta_reduce
  by_cases declaration : f.isDeclaration = true
  · refine ⟨p, ?_, .refl p⟩
    rw [instrumentFile, Job.instrumented, Job.unsupported, if_pos declaration, if_pos declaration,
      if_pos declaration]
    rfl
  · rw [instrumentFile, Job.instrumented, Job.unsupported, if_neg declaration, if_neg declaration,
      if_neg declaration]
    obtain ⟨p₁, run₁, gains₁⟩ := gains_logs j (j.instrumentation f).2.log p
    change ∃ p', ExceptT.run ((j.instrumentation f).2.log.forM log >>= fun _ => _) p = _ ∧ _
    by_cases none : (j.instrumentation f).2.errors.isEmpty = true
    · refine ⟨{ p₁ with mutations := p₁.mutations +
        (j.instrumentation f).2.context.mutations.length }, ?_, ?_⟩
      · refine (run_bind_ok run₁ _).trans ?_
        change (if (j.instrumentation f).2.errors.isEmpty = true then _ else _ : Run σ _).run p₁ = _
        rw [if_pos none]
        rfl
      · exact gains₁.quiet (.internal rfl rfl rfl rfl rfl)
    · refine ⟨p₁, ?_, gains₁⟩
      refine (run_bind_ok run₁ _).trans ?_
      change (if (j.instrumentation f).2.errors.isEmpty = true then _ else _ : Run σ _).run p₁ = _
      rw [if_neg none]
      rfl

theorem obeys_annotate (fs : List SourceFile) :
    Obeys j .annotate fs (changeFiles (annotateFile j) fs) id := by
  refine .of_run fun p => ?_
  obtain ⟨p', ⟨none, run, gains⟩ | ⟨some, run, gains⟩⟩ :=
    (changes_annotateFile j p.host).changeFiles fs rfl
  · exact ⟨_, _, _, _, run, gains, .annotate none⟩
  · exact ⟨_, _, _, _, run, gains, .annotateFails some⟩

theorem obeys_instrument (fs : List SourceFile) :
    Obeys j .instrument fs (changeFiles (instrumentFile j) fs) id := by
  refine .of_run fun p => ?_
  obtain ⟨p', ⟨none, run, gains⟩ | ⟨some, run, gains⟩⟩ :=
    (changes_instrumentFile j p.host).changeFiles fs rfl
  · exact ⟨_, _, _, _, run, gains, .instrument none⟩
  · exact ⟨_, _, _, _, run, gains, .instrumentFails some⟩

/-! ### Staging -/

/-- A file is written, or refused. -/
theorem gains_writeFile (path text : String) (p : Progress σ) :
    ∃ calls answer p', (writeFile j path text).run.run p = (.ok answer, p') ∧
      Gains j.host p { calls } p' ∧ Job.Saves path text calls answer := by
  cases parent : Path.parent? path with
  | none =>
    rcases asked : (j.host.write path text).run p.host with ⟨answer, s⟩
    refine ⟨[.write path text answer], answer, { p with host := s }, ?_, .call asked, .bare parent⟩
    rw [writeFile, parent]
    exact run_ask asked
  | some directory =>
    rcases asked : (j.host.makeDirectories directory).run p.host with ⟨answer, s⟩
    have made : Gains j.host p { calls := [.makeDirectories directory answer] }
        { p with host := s } := .call asked
    cases answer with
    | error cause =>
      refine ⟨_, .error cause, { p with host := s }, ?_, made, .noDirectory parent⟩
      rw [writeFile, parent]
      exact run_bind_ok (run_ask asked) _
    | ok _ =>
      rcases asked' : (j.host.write path text).run s with ⟨answer, s'⟩
      have wrote : Gains j.host { p with host := s } { calls := [.write path text answer] }
          { p with host := s' } := .call asked'
      refine ⟨_, answer, { p with host := s' }, ?_, made.trans wrote, .inDirectory parent⟩
      rw [writeFile, parent]
      refine (run_bind_ok (run_ask asked) _).trans ?_
      exact run_ask (p := { p with host := s }) asked'

/-- A unit is staged, or the run stops. -/
theorem gains_stageFile (files : List SourceFile) (f : SourceFile) (p : Progress σ) :
    ∃ text calls p',
      ((stageFile j files f).run.run p = (.ok (), p') ∧
        Gains j.host p { calls := .print f text :: calls } p' ∧
        Job.Saves (j.staged f.path) text calls (.ok ())) ∨
      ∃ cause, (stageFile j files f).run.run p = (.error {}, p') ∧
        Gains j.host p
          { calls := .print f text :: calls
            found := foundIn files ((Failure.file (j.staged f.path) cause).toDiagnostics f.file) } p' ∧
        Job.Saves (j.staged f.path) text calls (.error cause) := by
  rcases printed : (j.host.print f).run p.host with ⟨text, s⟩
  have print : Gains j.host p { calls := [.print f text] } { p with host := s } := .call printed
  obtain ⟨calls, answer, p₁, run, gains, saves⟩ :=
    gains_writeFile j (j.staged f.path) text { p with host := s }
  have written := print.trans gains
  cases answer with
  | ok _ =>
    have logged := written.quiet (.log p₁ (.event .debug "staged"
      [("path", .str (j.staged f.path))]))
    refine ⟨text, calls, _, .inl ⟨?_, logged.quiet (.staged _ (j.staged f.path)), saves⟩⟩
    rw [stageFile, run_bind_ok (run_ask printed), run_bind_ok run]
    rfl
  | error cause =>
    obtain ⟨p₂, stopped, found⟩ := gains_stop (α := Unit) (h := j.host) files
      ((Failure.file (j.staged f.path) cause).toDiagnostics f.file) p₁
    refine ⟨text, calls, p₂, .inr ⟨cause, ?_, ?_, saves⟩⟩
    · rw [stageFile, run_bind_ok (run_ask printed), run_bind_ok run]
      exact stopped
    · have all := written.trans found
      change Gains _ _ ⟨[], .print f text :: (calls ++ []), _, []⟩ _ at all
      rw [append_nil] at all
      exact all

/-- Units are staged one after another, up to the first that is refused. -/
theorem gains_stageEach (files fs : List SourceFile) (p : Progress σ) :
    ∃ calls p',
      ((fs.forM (stageFile j files)).run.run p = (.ok (), p') ∧
        Gains j.host p { calls } p' ∧ j.Stages fs calls none) ∨
      ∃ f cause, (fs.forM (stageFile j files)).run.run p = (.error {}, p') ∧
        Gains j.host p
          { calls
            found := foundIn files ((Failure.file (j.staged f.path) cause).toDiagnostics f.file) } p' ∧
        j.Stages fs calls (some (f, cause)) := by
  induction fs generalizing p with
  | nil => exact ⟨[], p, .inl ⟨rfl, .refl p, .done⟩⟩
  | cons f fs ih =>
    obtain ⟨text, calls, p₁, ⟨run, gains, saves⟩ | ⟨cause, run, gains, saves⟩⟩ :=
      gains_stageFile j files f p
    · obtain ⟨rest, p₂, ⟨run', gains', stages⟩ | ⟨g, cause, run', gains', stages⟩⟩ := ih p₁
      · refine ⟨_, p₂, .inl ⟨?_, gains.trans gains', .saved saves stages⟩⟩
        exact (run_bind_ok run _).trans run'
      · refine ⟨_, p₂, .inr ⟨g, cause, ?_, gains.trans gains', .saved saves stages⟩⟩
        exact (run_bind_ok run _).trans run'
    · exact ⟨_, p₁, .inr ⟨f, cause, run_bind_error run _, gains, .refused saves⟩⟩

theorem obeys_stageFiles (kind : stage = .stageAnnotated ∨ stage = .stageInstrumented)
    (fs : List SourceFile) : Obeys j stage fs (stageFiles j fs) fun _ => fs := by
  refine .of_run fun p => ?_
  have cleared : Gains j.host p {} { p with files := [] } := .internal rfl rfl rfl rfl rfl
  obtain ⟨calls, p', ⟨run, gains, stages⟩ | ⟨f, cause, run, gains, stages⟩⟩ :=
    gains_stageEach j fs (fs.filter (!·.isDeclaration)) { p with files := [] }
  · exact ⟨calls, _, _, p', run, cleared.trans gains, .stage kind stages⟩
  · exact ⟨calls, _, _, p', run, cleared.trans gains, .stageRefused kind stages⟩

end Run

end Reify
