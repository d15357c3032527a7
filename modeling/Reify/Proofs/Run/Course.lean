import Mathlib.Data.List.Forall2
import Reify.Proofs.Run.Trace

/-!
# The course of a run

Whatever the front end and the store of files answer, a run enters a prefix of its plan up to the
first stage that fails and then removes the staging directory, unless it is kept.  The program is
emitted at most once, and only if no type was missing and everything has a reflection
(`transform_course`).

What a stage can do is known from `Job.Does`; what is said of a run is said of each stage first and
carried through the trace by induction.
-/

namespace Reify

open List

/-- The roots that a call parses. -/
def Call.roots? : Call → Option (List String)
  | .parse roots _ => some roots
  | _ => none

/-- The units that a call emits. -/
def Call.emitted? : Call → Option (List SourceFile)
  | .emit files _ _ _ => some files
  | _ => none

namespace Job

variable {σ : Type} (j : Job σ)

/-- What a stage may ask, given the units at hand.  Declarations are neither printed nor written. -/
inductive Asks (fs : List SourceFile) : Call → Prop where
  | removeAll {answer : Except String Unit} : Asks fs (.removeAll j.tempDir answer)
  | parse {roots : List String} {answer : Except (List Diagnostic) (List SourceFile)} :
      Asks fs (.parse roots answer)
  | print {f : SourceFile} {text : String} (mem : f ∈ fs) (unit : f.isDeclaration = false) :
      Asks fs (.print f text)
  | makeDirectories {f : SourceFile} {directory : String} {answer : Except String Unit} (mem : f ∈ fs)
      (unit : f.isDeclaration = false) (parent : Path.parent? (j.staged f.path) = some directory) :
      Asks fs (.makeDirectories directory answer)
  | write {f : SourceFile} {text : String} {answer : Except String Unit} (mem : f ∈ fs)
      (unit : f.isDeclaration = false) : Asks fs (.write (j.staged f.path) text answer)
  | emit {root outDir : String} {found : List Diagnostic} : Asks fs (.emit fs root outDir found)

/-- What a stage parses. -/
def roots : Stage → List (List String)
  | .parseSource => [[j.entry]]
  | .parseAnnotated | .parseFinal => [[j.staged j.entry]]
  | _ => []

/-- The units after a stage are read anew, or they are those before it, and declarations are left as
they are. -/
def Leaves (fs : List SourceFile) (calls : List Call) (fs' : List SourceFile) : Prop :=
  (∃ roots, .parse roots (.ok fs') ∈ calls) ∨
    Forall₂ (fun f f' => f.isDeclaration = true → f' = f) fs fs'

variable {j} {s s' : σ} {st : Stage} {plan : List Stage} {fs fs' : List SourceFile}
  {calls : List Call} {found : List (List SourceFile × Diagnostic)}
  {next : Option (List SourceFile)} {phases : List (Phase σ)} {completed : Bool}

/-! ### What one stage does -/

theorem Saves.asks {f text answer} (mem : f ∈ fs) (unit : f.isDeclaration = false)
    (saves : Saves (j.staged f.path) text calls answer) :
    ∀ c ∈ calls, j.Asks fs c ∧ c.roots? = none ∧ c.emitted? = none := by
  cases saves with
  | noDirectory parent =>
    exact forall_mem_singleton.2 ⟨.makeDirectories mem unit parent, rfl, rfl⟩
  | inDirectory parent =>
    exact forall_mem_cons.2 ⟨⟨.makeDirectories mem unit parent, rfl, rfl⟩,
      forall_mem_singleton.2 ⟨.write mem unit, rfl, rfl⟩⟩
  | bare _ => exact forall_mem_singleton.2 ⟨.write mem unit, rfl, rfl⟩

theorem Stages.asks {us refused} (stages : j.Stages us calls refused)
    (units : ∀ f ∈ us, f ∈ fs ∧ f.isDeclaration = false) :
    ∀ c ∈ calls, j.Asks fs c ∧ c.roots? = none ∧ c.emitted? = none := by
  induction stages with
  | done => exact forall_mem_nil _
  | saved saves _ ih =>
    obtain ⟨⟨mem, unit⟩, others⟩ := forall_mem_cons.1 units
    exact forall_mem_cons.2 ⟨⟨.print mem unit, rfl, rfl⟩,
      forall_mem_append.2 ⟨saves.asks mem unit, ih others⟩⟩
  | refused saves =>
    obtain ⟨⟨mem, unit⟩, -⟩ := forall_mem_cons.1 units
    exact forall_mem_cons.2 ⟨⟨.print mem unit, rfl, rfl⟩, saves.asks mem unit⟩

/-- **What a stage asks.** -/
theorem Does.asks (does : j.Does s st fs calls found next) :
    (∀ c ∈ calls, j.Asks fs c) ∧ calls.filterMap Call.roots? = j.roots st ∧
      calls.filterMap Call.emitted? = if st = .emit then [fs] else [] := by
  have staging {refused : Option (SourceFile × String)} (none : j.roots st = [])
      (other : st ≠ .emit) (stages : j.Stages (fs.filter (!·.isDeclaration)) calls refused) :
      (∀ c ∈ calls, j.Asks fs c) ∧ calls.filterMap Call.roots? = j.roots st ∧
        calls.filterMap Call.emitted? = if st = .emit then [fs] else [] := by
    have asks := stages.asks fun f mem =>
      show f ∈ fs ∧ f.isDeclaration = false by simpa using mem_filter.1 mem
    rw [none, if_neg other]
    exact ⟨fun c mem => (asks c mem).1, filterMap_eq_nil_iff.2 fun c mem => (asks c mem).2.1,
      filterMap_eq_nil_iff.2 fun c mem => (asks c mem).2.2⟩
  cases does with
  | init | initRefused => exact ⟨forall_mem_singleton.2 .removeAll, rfl, rfl⟩
  | parse | noProgram => exact ⟨forall_mem_singleton.2 .parse, rfl, rfl⟩
  | emit => exact ⟨forall_mem_singleton.2 .emit, rfl, rfl⟩
  | diagnose kind => rcases kind with rfl | rfl <;> exact ⟨forall_mem_nil _, rfl, rfl⟩
  | reparse kind | reparseFails kind =>
    rcases kind with rfl | rfl <;> exact ⟨forall_mem_singleton.2 .parse, rfl, rfl⟩
  | stage kind stages | stageRefused kind stages =>
    rcases kind with rfl | rfl <;> exact staging rfl (by decide) stages
  | _ =>
    exact ⟨forall_mem_nil _, rfl, rfl⟩

theorem Does.leaves (does : j.Does s st fs calls found (some fs')) : Leaves fs calls fs' := by
  have same : Leaves fs calls fs := .inr (forall₂_same.2 fun _ _ _ => rfl)
  cases does with
  | parse | reparse _ => exact .inl ⟨_, mem_singleton.2 rfl⟩
  | annotate _ | instrument _ =>
    exact .inr (forall₂_map_right_iff.2 (forall₂_same.2 fun _ _ decl => if_pos decl))
  | _ => exact same

/-- Emission does not fail. -/
theorem Does.next_of_emit (does : j.Does s .emit fs calls found next) : next ≠ none := by
  rintro rfl
  cases does with
  | stageRefused kind _ | reparseFails kind => simp at kind

theorem Does.parse_mem (does : j.Does s .parseSource fs calls found (some fs')) :
    .parse [j.entry] (.ok fs') ∈ calls := by
  cases does with
  | parse => exact mem_singleton.2 rfl
  | diagnose kind | stage kind _ | reparse kind => simp at kind

theorem Does.reparse_mem (does : j.Does s .parseAnnotated fs calls found (some fs')) :
    .parse [j.staged j.entry] (.ok fs') ∈ calls := by
  cases does with
  | reparse _ => exact mem_singleton.2 rfl
  | diagnose kind | stage kind _ => simp at kind

theorem Does.diagnose_eq (does : j.Does s .diagnoseSource fs calls found (some fs')) :
    fs' = fs := by
  cases does with
  | diagnose _ => rfl
  | stage kind _ | reparse kind => simp at kind

/-- Types are filled in only if none is missing. -/
theorem Does.no_misses (does : j.Does s .annotate fs calls found (some fs')) :
    ∀ f ∈ fs, f.isDeclaration = false → (j.annotation s f).2.misses = [] := by
  intro f mem unit
  cases does with
  | annotate complete =>
    have none := flatMap_eq_nil_iff.1 complete f mem
    rw [missing, if_neg (by simp [unit]), flatMap_eq_nil_iff] at none
    exact eq_nil_iff_forall_not_mem.2 fun m miss => cons_ne_nil _ _ (none m miss)
  | diagnose kind | stage kind _ | reparse kind => simp at kind

/-- Checks are added only if everything has a reflection. -/
theorem Does.no_errors (does : j.Does s .instrument fs calls found (some fs')) :
    ∀ f ∈ fs, f.isDeclaration = false → (j.instrumentation f).2.errors = [] := by
  intro f mem unit
  cases does with
  | instrument complete =>
    have none := flatMap_eq_nil_iff.1 complete f mem
    rw [unsupported, if_neg (by simp [unit]), flatMap_eq_nil_iff] at none
    exact eq_nil_iff_forall_not_mem.2 fun u error => cons_ne_nil _ _ (none u error)
  | diagnose kind | stage kind _ | reparse kind => simp at kind

/-! ### Traces -/

theorem Executes.does (executes : j.Executes plan fs s phases s' completed) :
    ∀ p ∈ phases, j.Does p.state p.stage p.files p.calls p.found p.next := by
  induction executes with
  | done => exact forall_mem_nil _
  | stops does _ => exact forall_mem_singleton.2 does
  | goes does _ _ ih => exact forall_mem_cons.2 ⟨does, ih⟩

theorem Executes.stages (executes : j.Executes plan fs s phases s' completed) :
    phases.map Phase.stage <+: plan := by
  induction executes with
  | done => exact prefix_refl _
  | @stops stage plan => exact ⟨plan, rfl⟩
  | goes _ _ _ ih => exact (prefix_cons_inj _).2 ih

/-- A trace ends at the first stage that fails, or with the plan. -/
theorem Executes.ends (executes : j.Executes plan fs s phases s' completed) :
    (completed = true → phases.map Phase.stage = plan ∧ ∀ p ∈ phases, p.next ≠ none) ∧
      (completed = false → ∃ before last, phases = before ++ [last] ∧
        (∀ p ∈ before, p.next ≠ none) ∧ last.next = none) := by
  induction executes with
  | done => exact ⟨fun _ => ⟨rfl, forall_mem_nil _⟩, fun failed => (by cases failed)⟩
  | goes _ _ _ ih =>
    refine ⟨fun done => ?_, fun failed => ?_⟩
    · obtain ⟨stages, fine⟩ := ih.1 done
      exact ⟨congrArg _ stages, forall_mem_cons.2 ⟨Option.some_ne_none _, fine⟩⟩
    · obtain ⟨before, last, rfl, fine, none⟩ := ih.2 failed
      exact ⟨_ :: before, last, rfl, forall_mem_cons.2 ⟨Option.some_ne_none _, fine⟩, none⟩
  | _ =>
    exact ⟨fun done => (by cases done), fun _ => ⟨[], _, rfl, forall_mem_nil _, rfl⟩⟩

/-- Who emits gets through. -/
theorem Executes.completed_of_emit (executes : j.Executes plan fs s phases s' completed) {earlier}
    (split : plan = earlier ++ [.emit]) (first : .emit ∉ earlier) {p} (mem : p ∈ phases)
    (emits : p.stage = .emit) : completed = true := by
  induction executes generalizing earlier with
  | done => cases mem
  | stops does _ =>
    obtain rfl := mem_singleton.1 mem
    obtain rfl := emits
    exact (does.next_of_emit rfl).elim
  | goes _ _ rest ih =>
    cases earlier with
    | nil =>
      cases split
      cases rest
      rfl
    | _ =>
      obtain ⟨rfl, rfl⟩ := List.cons.inj split
      obtain ⟨other, first⟩ := not_or.1 (mt mem_cons.2 first)
      rcases mem_cons.1 mem with rfl | mem
      · exact (other emits.symm).elim
      · exact ih rfl first mem

/-- The first stage of a plan that is completed. -/
theorem Executes.goes_inv (executes : j.Executes (st :: plan) fs s phases s' true) :
    ∃ calls found fs' s₁ rest, phases = ⟨st, s, fs, calls, found, some fs'⟩ :: rest ∧
      j.Does s st fs calls found (some fs') ∧ j.Executes plan fs' s₁ rest s' true := by
  cases executes with
  | goes does _ rest => exact ⟨_, _, _, _, _, rfl, does, rest⟩

/-- The last stage of a plan that is completed. -/
theorem Executes.last_inv (executes : j.Executes (plan ++ [st]) fs s phases s' true) :
    ∃ before last s₁, phases = before ++ [last] ∧ last.stage = st ∧
      j.Executes plan fs s before s₁ true := by
  induction plan generalizing fs s phases with
  | nil =>
    obtain ⟨_, _, _, _, _, rfl, _, rest⟩ := executes.goes_inv
    cases rest
    exact ⟨[], _, _, rfl, rfl, .done⟩
  | cons first plan ih =>
    cases executes with
    | goes does performs rest =>
      obtain ⟨before, last, s₁, rfl, same, before'⟩ := ih rest
      exact ⟨_ :: before, last, s₁, rfl, same, .goes does performs before'⟩

/-- The passes have left nothing open in the units that they were given, and those are the units
that were read. -/
structure Settled (j : Job σ) (phases : List (Phase σ)) : Prop where
  annotated : ∃ p ∈ phases, p.stage = .annotate ∧
    .parse [j.entry] (.ok p.files) ∈ Phase.allCalls phases ∧
    ∀ f ∈ p.files, f.isDeclaration = false → (j.annotation p.state f).2.misses = []
  instrumented : ∃ p ∈ phases, p.stage = .instrument ∧
    .parse [j.staged j.entry] (.ok p.files) ∈ Phase.allCalls phases ∧
    ∀ f ∈ p.files, f.isDeclaration = false → (j.instrumentation f).2.errors = []

theorem Executes.settled {rest}
    (executes : j.Executes ([.init, .parseSource, .diagnoseSource, .annotate, .stageAnnotated,
      .parseAnnotated, .instrument] ++ rest) fs s phases s' true) : j.Settled phases := by
  obtain ⟨_, _, _, _, _, rfl, _, executes⟩ := executes.goes_inv
  obtain ⟨_, _, _, _, _, rfl, parses, executes⟩ := executes.goes_inv
  obtain ⟨_, _, _, _, _, rfl, diagnoses, executes⟩ := executes.goes_inv
  obtain ⟨_, _, _, _, _, rfl, annotates, executes⟩ := executes.goes_inv
  obtain ⟨_, _, _, _, _, rfl, _, executes⟩ := executes.goes_inv
  obtain ⟨_, _, _, _, _, rfl, reparses, executes⟩ := executes.goes_inv
  obtain ⟨_, _, _, _, _, rfl, instruments, executes⟩ := executes.goes_inv
  obtain rfl := diagnoses.diagnose_eq
  refine ⟨⟨_, .tail _ (.tail _ (.tail _ (.head _))), rfl, ?_, annotates.no_misses⟩,
    ⟨_, .tail _ (.tail _ (.tail _ (.tail _ (.tail _ (.tail _ (.head _)))))), rfl, ?_,
      instruments.no_errors⟩⟩
  · exact mem_flatMap.2 ⟨_, .tail _ (.head _), parses.parse_mem⟩
  · exact mem_flatMap.2 ⟨_, .tail _ (.tail _ (.tail _ (.tail _ (.tail _ (.head _))))),
      reparses.reparse_mem⟩

section

variable (executes : j.Executes plan fs s phases s' completed)

include executes

theorem Executes.roots :
    (Phase.allCalls phases).filterMap Call.roots? = (phases.map Phase.stage).flatMap j.roots := by
  rw [Phase.allCalls, filterMap_flatMap, flatMap_map]
  exact flatMap_congr fun p mem => (executes.does p mem).asks.2.1

theorem Executes.emitted :
    (Phase.allCalls phases).filterMap Call.emitted? =
      phases.flatMap fun p => if p.stage = .emit then [p.files] else [] := by
  rw [Phase.allCalls, filterMap_flatMap]
  exact flatMap_congr fun p mem => (executes.does p mem).asks.2.2

/-- The program is emitted as often as the stage is entered. -/
theorem Executes.length_emitted : ((Phase.allCalls phases).filterMap Call.emitted?).length =
    (phases.map Phase.stage).count .emit := by
  rw [executes.emitted]
  clear executes
  induction phases with
  | nil => rfl
  | cons p phases ih =>
    rw [flatMap_cons, length_append, ih, map_cons, count_cons, Nat.add_comm]
    by_cases emits : p.stage = .emit <;> simp [emits]

end

/-! ### Runs -/

/-- **The course of a run**, given the stages that it goes through up to the last one, the calls at
its end and whether it was completed. -/
structure Course (j : Job σ) (s : σ) (phases : List (Phase σ)) (cleanup : List Call)
    (completed : Bool) (result : Except (List Diagnostic) Outcome × Progress σ) : Prop where
  executes : ∃ s₁, j.Executes (Stage.plan j.options) [] s phases s₁ completed
  /-- The stages entered. -/
  stages : result.2.stages =
    phases.map Phase.stage ++ if j.options.keepTempFiles then [] else [.cleanup]
  nonempty : phases ≠ []
  planned : phases.map Phase.stage <+: Stage.plan j.options
  /-- Without a failure all stages are entered. -/
  finishes : completed = true →
    phases.map Phase.stage = Stage.plan j.options ∧ ∀ p ∈ phases, p.next ≠ none
  /-- The first failure is the end. -/
  stops : completed = false → ∃ before last, phases = before ++ [last] ∧
    (∀ p ∈ before, p.next ≠ none) ∧ last.next = none
  /-- All that is asked. -/
  calls : j.host.Performs s (Phase.allCalls phases ++ cleanup) result.2.host
  /-- So a host that keeps a list of what it is asked ends up with just these calls. -/
  recorded : ∀ log : σ → List Call,
    (∀ s c s', j.host.Answers s c s' → log s' = log s ++ [c]) →
      log result.2.host = log s ++ (Phase.allCalls phases ++ cleanup)
  cleans : if j.options.keepTempFiles then cleanup = []
    else ∃ answer, cleanup = [.removeAll j.tempDir answer]
  asks : ∀ p ∈ phases, ∀ c ∈ p.calls, j.Asks p.files c
  leaves : ∀ p ∈ phases, ∀ fs' ∈ p.next, Leaves p.files p.calls fs'
  parses : (Phase.allCalls phases).filterMap Call.roots? <+:
    [[j.entry], [j.staged j.entry], [j.staged j.entry]]
  emitsOnce : ((Phase.allCalls phases).filterMap Call.emitted?).length ≤ 1
  emitsLast : (Phase.allCalls phases).filterMap Call.emitted? ≠ [] →
    ∃ before last, phases = before ++ [last] ∧ last.stage = .emit ∧ j.Settled before
  /-- What the front end would say of declarations does not matter. -/
  ignores : ∀ diagnostics, (∀ s f, f.isDeclaration = false →
      diagnostics s f = j.host.diagnostics s f) →
    transform { j with host := { j.host with diagnostics } } s = result
  collects : result.2.diagnostics = (Phase.allFound phases).map Prod.snd
  succeeds : result.1.isOk = true ↔
    completed = true ∧ ∀ d ∈ result.2.diagnostics, d.isError = false
  reports : ∃ between, result.2.events = .start j.entry :: between ++ [.finish result.1.isOk]

end Job

theorem Run.diagnose_congr {σ : Type} {j} {diagnostics : σ → SourceFile → List Diagnostic}
    (agree : ∀ s f, f.isDeclaration = false → diagnostics s f = j.host.diagnostics s f) :
    diagnose { j with host := { j.host with diagnostics } } = diagnose j := by
  have same (s : σ) (fs : List SourceFile) : (fs.filter (!·.isDeclaration)).flatMap (diagnostics s) =
      (fs.filter (!·.isDeclaration)).flatMap (j.host.diagnostics s) :=
    flatMap_congr fun f mem => agree s f (by simpa using (mem_filter.1 mem).2)
  funext fs
  simp only [diagnose, same]

/-- A run depends on what is wrong with declarations in no way. -/
theorem transform_congr {σ : Type} {j diagnostics}
    (agree : ∀ s f, f.isDeclaration = false → diagnostics s f = j.host.diagnostics s f) (s : σ) :
    transform { j with host := { j.host with diagnostics } } s = transform j s := by
  have diagnoses := Run.diagnose_congr agree
  generalize same : { j with host := { j.host with diagnostics } } = j' at diagnoses ⊢
  have host : j'.host.parse = j.host.parse ∧ j'.host.infer = j.host.infer ∧
      j'.host.print = j.host.print ∧ j'.host.emit = j.host.emit ∧
      j'.host.removeAll = j.host.removeAll ∧ j'.host.makeDirectories = j.host.makeDirectories ∧
      j'.host.write = j.host.write ∧ j'.options = j.options ∧ j'.entry = j.entry := by
    subst same
    exact ⟨rfl, rfl, rfl, rfl, rfl, rfl, rfl, rfl, rfl⟩
  have annotate : Run.annotateFile j' = Run.annotateFile j := by
    funext f
    simp only [Run.annotateFile, host]
  have instrument : Run.instrumentFile j' = Run.instrumentFile j := by
    funext f
    simp only [Run.instrumentFile, host]
  have stage : Run.stageFiles j' = Run.stageFiles j := by
    funext fs
    have each : Run.stageFile j' fs = Run.stageFile j fs := by
      funext f
      simp only [Run.stageFile, Run.writeFile, Job.staged, Job.tempDir, Job.base, host]
    simp only [Run.stageFiles, each]
  simp only [transform, Run.execute, diagnoses, annotate, instrument, stage, Run.init,
    Run.removeTempDir, Run.parseSource, Run.parseStaged, Run.emit, Run.cleanup, Job.staged,
    Job.tempDir, Job.base, host]

/-- **Every run takes its course.** -/
theorem transform_course {σ : Type} (j : Job σ) (s : σ) :
    ∃ phases cleanup completed, j.Course s phases cleanup completed (transform j s) := by
  obtain ⟨phases, steps, answer, s₁, completed, executes, -, success, gains⟩ := transform_traces j s
  have planned := executes.stages
  have plan : ∃ earlier, Stage.plan j.options = [.init, .parseSource, .diagnoseSource, .annotate,
      .stageAnnotated, .parseAnnotated, .instrument] ++ earlier ++ [.emit] ∧
      .emit ∉ earlier ∧ (Stage.plan j.options).flatMap j.roots =
        [[j.entry], [j.staged j.entry], [j.staged j.entry]] ∧
      (Stage.plan j.options).count .emit = 1 := by
    rw [Stage.plan]
    cases j.options.finalDiagnostics with
    | false => exact ⟨[.stageInstrumented, .parseFinal], rfl, by decide, rfl, rfl⟩
    | true => exact ⟨[.stageInstrumented, .parseFinal, .diagnoseFinal], rfl, by decide, rfl, rfl⟩
  obtain ⟨earlier, split, first, roots, once⟩ := plan
  have calls : j.host.Performs s (Phase.allCalls phases ++
      if j.options.keepTempFiles then [] else [.removeAll j.tempDir answer])
      (transform j s).2.host := by
    have calls := gains.host
    by_cases keep : j.options.keepTempFiles = true <;>
      simpa [Job.account, Run.cleaning, Phase.deeds, keep] using calls
  refine ⟨phases, if j.options.keepTempFiles then [] else [.removeAll j.tempDir answer], completed,
    ⟨s₁, executes⟩, ?_, ?_, planned, executes.ends.1, executes.ends.2, calls,
    fun _ logs => calls.logged logs, ?_, ?_, ?_, ?_, ?_, ?_, fun _ agree => transform_congr agree s,
    ?_, ?_, ?_⟩
  · have stages := gains.stages
    by_cases keep : j.options.keepTempFiles = true <;>
      simpa [Job.account, Run.cleaning, Phase.deeds, keep] using stages
  · rintro rfl
    rw [split] at executes
    cases executes
  · by_cases keep : j.options.keepTempFiles = true
    · rw [if_pos keep, if_pos keep]
    · rw [if_neg keep, if_neg keep]
      exact ⟨answer, rfl⟩
  · exact fun p mem => (executes.does p mem).asks.1
  · intro p mem fs' next
    have does := executes.does p mem
    rw [Option.mem_def.1 next] at does
    exact does.leaves
  · rw [executes.roots, ← roots]
    exact planned.flatMap _
  · rw [executes.length_emitted, ← once]
    exact planned.sublist.count_le _
  · intro emits
    rw [executes.emitted, ne_eq, List.flatMap_eq_nil_iff] at emits
    simp only [not_forall] at emits
    obtain ⟨p, mem, emits⟩ := emits
    have stage : p.stage = .emit := by
      by_contra other
      exact emits (if_neg other)
    rw [split] at executes
    have completes := executes.completed_of_emit rfl (by simpa using first) mem stage
    rw [completes] at executes
    obtain ⟨before, last, s₂, rfl, emits, executes⟩ := executes.last_inv
    exact ⟨before, last, rfl, emits, executes.settled⟩
  · have found := gains.diagnostics
    by_cases keep : j.options.keepTempFiles = true <;>
      simpa [Job.account, Run.cleaning, Phase.deeds, keep] using found
  · rw [success, Bool.and_eq_true, Bool.not_eq_true', Diagnostic.anyError, List.any_eq_false]
    simp
  · have events := gains.events
    rw [Job.account, Deeds.events_append, ← List.append_assoc, ← List.append_assoc] at events
    exact ⟨_, events⟩

end Reify
