import Reify.Proofs.Run.Calls

/-!
# The trace of a run

A run goes through its plan, stage after stage, up to the first that fails (`Job.Executes`).  The
trace keeps of each stage what was at hand and what was done.  `transform` follows its plan
(`transform_traces`), whatever its host answers, so that all that can be said of traces can be said
of runs.
-/

namespace Reify

open List

open Progress (Gains)

/-- The stages of a run up to the last one, in order. -/
def Stage.plan (o : Options) : List Stage :=
  [.init, .parseSource, .diagnoseSource, .annotate, .stageAnnotated, .parseAnnotated, .instrument,
    .stageInstrumented, .parseFinal] ++ (if o.finalDiagnostics then [.diagnoseFinal] else []) ++ [.emit]

/-- A stage that was entered: the state of the host and the units at hand before it, what it did,
and the units at hand after it, unless it failed. -/
structure Phase (σ : Type) where
  stage : Stage
  state : σ
  files : List SourceFile
  calls : List Call
  found : List (List SourceFile × Diagnostic)
  next : Option (List SourceFile)

/-- All calls of a trace. -/
def Phase.allCalls {σ : Type} (phases : List (Phase σ)) : List Call := phases.flatMap Phase.calls

/-- All that was found along a trace. -/
def Phase.allFound {σ : Type} (phases : List (Phase σ)) : List (List SourceFile × Diagnostic) :=
  phases.flatMap Phase.found

/-- What a trace amounts to, with the events reported in between. -/
def Phase.deeds {σ : Type} (phases : List (Phase σ)) (events : List Event) : Deeds where
  stages := phases.map Phase.stage
  calls := Phase.allCalls phases
  found := Phase.allFound phases
  events := events

namespace Job

variable {σ : Type} (j : Job σ)

/-- A plan is followed up to the first stage that fails; the last value tells whether there is
none. -/
inductive Executes : List Stage → List SourceFile → σ → List (Phase σ) → σ → Bool → Prop where
  | done {fs : List SourceFile} {s : σ} : Executes [] fs s [] s true
  | stops {stage : Stage} {plan : List Stage} {fs : List SourceFile} {s s' : σ} {calls : List Call}
      {found : List (List SourceFile × Diagnostic)} (does : j.Does s stage fs calls found none)
      (performs : j.host.Performs s calls s') :
      Executes (stage :: plan) fs s [⟨stage, s, fs, calls, found, none⟩] s' false
  | goes {stage : Stage} {plan : List Stage} {fs fs' : List SourceFile} {s s₁ s' : σ}
      {calls : List Call} {found : List (List SourceFile × Diagnostic)} {phases : List (Phase σ)}
      {completed : Bool} (does : j.Does s stage fs calls found (some fs'))
      (performs : j.host.Performs s calls s₁) (rest : Executes plan fs' s₁ phases s' completed) :
      Executes (stage :: plan) fs s (⟨stage, s, fs, calls, found, some fs'⟩ :: phases) s' completed

end Job

/-- Whether an event tells of a step between start and end. -/
def Event.isStep : Event → Bool
  | .scan _ | .transform _ | .emit _ => true
  | _ => false

namespace Run

variable {σ α β : Type} (j : Job σ)

/-- An action follows a plan, whatever the state, and reports only the steps it takes. -/
def Follows (plan : List Stage) (fs : List SourceFile) (act : Run σ α) : Prop :=
  ∀ p : Progress σ, ∃ phases events,
    j.Executes plan fs p.host phases (act.run.run p).2.host (act.run.run p).1.isOk ∧
    Gains j.host p (Phase.deeds phases events) (act.run.run p).2 ∧ ∀ e ∈ events, e.isStep = true

variable {j}

theorem Follows.pure (fs : List SourceFile) (a : α) : Follows j [] fs (pure a) := fun p =>
  ⟨[], [], .done, .refl p, forall_mem_nil _⟩

theorem run_report (e : Event) (p : Progress σ) :
    (report e).run.run p = (.ok (), { p with notices := p.notices ++ [.event e] }) := rfl

variable {plan : List Stage} {fs : List SourceFile}

/-- A step is reported. -/
theorem Follows.report {act : Run σ α} {e} (isStep : e.isStep = true)
    (follows : Follows j plan fs act) : Follows j plan fs (Run.report e >>= fun _ => act) := by
  intro p
  obtain ⟨phases, events, executes, gains, isSteps⟩ :=
    follows { p with notices := p.notices ++ [.event e] }
  refine ⟨phases, e :: events, executes, (Gains.report p e).trans gains, ?_⟩
  exact forall_mem_cons.2 ⟨isStep, isSteps⟩

/-- The state in which a stage starts its work. -/
def entering (p : Progress σ) (st : Stage) : Progress σ := { p with
  stages := p.stages ++ [st]
  notices := p.notices ++ [.log (.span "reflect_ts.stage" [("stage", .str st.name)])] ++
    [.log (.event .debug "stage started" [])] }

/-- The state after the work of a stage. -/
def leaving (p : Progress σ) (failed : Bool) : Progress σ :=
  { p with notices := p.notices ++ [.log (.record [("failed", .bool failed)])] }

theorem gains_entering (h : Host σ) (p : Progress σ) (st : Stage) :
    Gains h p { stages := [st] } (entering p st) :=
  ((Gains.log p _).quiet (.log _ _)).trans (.enter _ st)

theorem run_tryCatch_ok {x : Run σ α} {a p p₁} (run : x.run.run p = (.ok a, p₁))
    (handle : Stopped → Run σ α) : (tryCatch x handle).run.run p = (.ok a, p₁) := by
  rw [ExceptT.run_tryCatch, StateT.run_bind, run]
  rfl

theorem run_tryCatch_error {x : Run σ α} {e p p₁} (run : x.run.run p = (.error e, p₁))
    (handle : Stopped → Run σ α) : (tryCatch x handle).run.run p = (handle e).run.run p₁ := by
  rw [ExceptT.run_tryCatch, StateT.run_bind, run]
  rfl

/-- A stage is entered, does its work and leaves a note. -/
theorem run_stage (st : Stage) (act : Run σ α) (p : Progress σ) :
    (stage st act).run.run p = ((act.run.run (entering p st)).1,
      leaving (act.run.run (entering p st)).2 (!(act.run.run (entering p st)).1.isOk)) := by
  rcases run : act.run.run (entering p st) with ⟨e | a, q⟩
  · refine (run_bind_error (x := tryCatch (act >>= _) _) (p := entering p st) ?_ _)
    exact (run_tryCatch_error (run_bind_error run _) _).trans rfl
  · exact (run_bind_ok (x := tryCatch (act >>= _) _) (p := entering p st) (a := .error a)
      (run_tryCatch_ok ((run_bind_ok run _).trans rfl) _) _).trans rfl

/-- **A stage is taken**, and what follows it goes on with the units that it leaves. -/
theorem Follows.stage {st act next} {k : α → Run σ β} (obeys : Obeys j st fs act next)
    (rest : ∀ a, Follows j plan (next a) (k a)) :
    Follows j (st :: plan) fs (Run.stage st act >>= k) := by
  intro p
  obtain ⟨⟨_, calls, found, _⟩, gains, rfl, rfl, does⟩ := obeys (entering p st)
  have entered := gains_entering j.host p st
  have staged := run_stage st act p
  rcases run : act.run.run (entering p st) with ⟨r, q⟩
  rw [run] at gains does staged
  have done := (entered.trans gains).quiet (.log q (.record [("failed", .bool !r.isOk)]))
  cases r with
  | error _ =>
    rw [run_bind_error staged]
    exact ⟨_, [], .stops does gains.host, done.trans (.refl _), forall_mem_nil _⟩
  | ok a =>
    rw [run_bind_ok staged]
    obtain ⟨phases, events, executes, gains', isSteps⟩ := rest a (leaving q (!(Except.ok a).isOk))
    exact ⟨_, events, .goes does gains.host executes, done.trans gains', isSteps⟩

variable (j)

/-- **A run follows its plan.** -/
theorem execute_follows : Follows j (Stage.plan j.options) [] (execute j) := by
  rw [execute]
  refine .stage (obeys_init j []) fun _ => .stage (obeys_parseSource j []) fun files => ?_
  refine .report rfl (.stage (obeys_diagnose j (.inl rfl) files) fun _ => ?_)
  refine .report rfl (.stage (obeys_annotate j files) fun files => ?_)
  refine .stage (obeys_stageFiles j (.inl rfl) files) fun _ => ?_
  refine .stage (obeys_parseStaged j (.inl rfl) files) fun files => ?_
  refine .stage (obeys_instrument j files) fun files => ?_
  refine .stage (obeys_stageFiles j (.inr rfl) files) fun _ => ?_
  refine .stage (obeys_parseStaged j (.inr rfl) files) fun files => ?_
  have emits : Follows j [.emit] files (Run.report (.emit j.base) >>= fun _ =>
      Run.stage .emit (emit j files)) := by
    refine .report rfl ?_
    rw [← bind_pure (Run.stage .emit (emit j files))]
    exact .stage (obeys_emit j files) fun _ => .pure files ()
  by_cases final : j.options.finalDiagnostics = true
  · rw [if_pos final, if_pos final]
    exact .stage (obeys_diagnose j (.inr rfl) files) fun _ => emits
  · rw [if_neg final, if_neg final]
    exact emits

/-- What is said if the staging directory cannot be removed at the end. -/
def warnings : Except String Unit → List Event
  | .ok _ => []
  | .error cause =>
    [.warning ("could not remove staging directory: " ++ (Failure.file j.tempDir cause).message)]

/-- What removing the staging directory at the end amounts to, given the answer. -/
def cleaning (answer : Except String Unit) : Deeds where
  stages := [.cleanup]
  calls := [.removeAll j.tempDir answer]
  events := .cleanup j.tempDir :: warnings j answer

theorem gains_cleanup (p : Progress σ) :
    ∃ answer, Gains j.host p (cleaning j answer) ((cleanup j).run.run p).2 := by
  have reported := Gains.report (h := j.host) p (.cleanup j.tempDir)
  rcases asked : (j.host.removeAll j.tempDir).run p.host with ⟨answer, s⟩
  have removed := run_removeTempDir j (p := entering { p with
    notices := p.notices ++ [.event (.cleanup j.tempDir)] } .cleanup) asked
  refine ⟨answer, ?_⟩
  have entered := reported.trans (gains_entering j.host _ .cleanup)
  rw [cleanup, run_bind_ok (run_report _ p), run_stage]
  cases answer with
  | ok _ =>
    rw [run_bind_ok removed]
    exact (entered.trans (.call (c := .removeAll j.tempDir _) asked)).quiet (.log _ _)
  | error cause =>
    rw [run_bind_ok removed]
    exact ((entered.trans (.call (c := .removeAll j.tempDir _) asked)).trans (.report _ _)).quiet
      (.log _ _)

theorem gains_reports (h : Host σ) (events : List Event) (p : Progress σ) :
    Gains h p { events := events } ((events.forM report : Run σ Unit).run.run p).2 := by
  induction events generalizing p with
  | nil => exact .refl p
  | cons e events ih => exact (Gains.report p e).trans (ih _)

end Run

/-- The account of a whole run: the start, the trace, the removal of the staging directory unless it
is kept, the diagnostics and the end. -/
def Job.account {σ : Type} (j : Job σ) (phases : List (Phase σ)) (steps : List Event)
    (answer : Except String Unit) (texts : List String) (success : Bool) : Deeds :=
  { events := [.start j.entry] } ++ Phase.deeds phases steps ++
    (if j.options.keepTempFiles then {} else Run.cleaning j answer) ++
    { events := reportBatches j.options texts ++ [.finish success] }

/-- The state of a run when its stages have been taken. -/
def Job.executed {σ : Type} (j : Job σ) (s : σ) : Except Stopped Unit × Progress σ :=
  (Run.execute j).run.run { host := s, notices := [.event (.start j.entry)] }

/-- The state of a run when only its reports are left. -/
def Job.cleaned {σ : Type} (j : Job σ) (s : σ) : Progress σ :=
  if j.options.keepTempFiles then (j.executed s).2 else ((Run.cleanup j).run.run (j.executed s).2).2

namespace Job

variable {σ : Type} (j : Job σ)

/-- The state when the diagnostics have been reported. -/
def reported (p : Progress σ) : Progress σ :=
  (((reportBatches j.options p.rendered).forM Run.report : Run σ Unit).run.run p).2

/-- Whether the run succeeds, given whether its stages were completed. -/
def succeeds (completed : Bool) (p : Progress σ) : Bool :=
  completed && !Diagnostic.anyError (j.reported p).diagnostics

/-- The state at the end. -/
def finished (completed : Bool) (p : Progress σ) : Progress σ := { j.reported p with
  notices := (j.reported p).notices ++ [.event (.finish (j.succeeds completed p))] }

/-- The result of a run, with the state at the end. -/
def concluded (completed : Bool) (p : Progress σ) :
    Except (List Diagnostic) Outcome × Progress σ :=
  let q := j.finished completed p
  if j.succeeds completed p then
    (.ok ⟨q.files, q.diagnostics, q.stages, j.tempDir, q.mutations⟩, q)
  else (.error q.diagnostics, q)

theorem concluded_snd (completed : Bool) (p : Progress σ) :
    (j.concluded completed p).2 = j.finished completed p := by
  rw [concluded]
  split <;> rfl

theorem isOk_concluded (completed : Bool) (p : Progress σ) :
    (j.concluded completed p).1.isOk = j.succeeds completed p := by
  rw [concluded]
  split
  · next success => exact success.symm
  · next failure => exact (eq_false_of_ne_true failure).symm

theorem gains_reported (p : Progress σ) :
    Gains j.host p { events := reportBatches j.options p.rendered } (j.reported p) :=
  Run.gains_reports j.host _ p

theorem rendered_finished (completed : Bool) (p : Progress σ) :
    (j.finished completed p).rendered = p.rendered :=
  (j.gains_reported p).rendered.trans (append_nil _)

theorem gains_finished (completed : Bool) (p : Progress σ) :
    Gains j.host p ({ events := reportBatches j.options p.rendered } ++
      { events := [.finish (j.succeeds completed p)] }) (j.finished completed p) :=
  (j.gains_reported p).trans (.report _ _)

theorem gains_cleaned (s : σ) : ∃ answer, Gains j.host (j.executed s).2
    (if j.options.keepTempFiles then {} else Run.cleaning j answer) (j.cleaned s) := by
  rw [cleaned]
  by_cases keep : j.options.keepTempFiles = true
  · simp only [if_pos keep]
    exact ⟨.ok (), .refl _⟩
  · simp only [if_neg keep]
    exact Run.gains_cleanup j _

end Job

theorem transform_eq {σ : Type} (j : Job σ) (s : σ) :
    transform j s = j.concluded (j.executed s).1.isOk (j.cleaned s) := by
  rw [Job.cleaned]
  by_cases keep : j.options.keepTempFiles = true
  · rw [if_pos keep, transform]
    simp only [keep, Bool.not_true, Bool.false_eq_true, if_false]
    rfl
  · rw [if_neg keep, transform]
    simp only [keep, Bool.not_false, if_true]
    rfl

/-- **Every run has a trace.** -/
theorem transform_traces {σ : Type} (j : Job σ) (s : σ) :
    ∃ phases steps answer s₁ completed,
      j.Executes (Stage.plan j.options) [] s phases s₁ completed ∧ (∀ e ∈ steps, e.isStep = true) ∧
      (transform j s).1.isOk = (completed && !Diagnostic.anyError (transform j s).2.diagnostics) ∧
      Gains j.host { host := s }
        (j.account phases steps answer (transform j s).2.rendered (transform j s).1.isOk)
        (transform j s).2 := by
  obtain ⟨phases, steps, executes, executed, isSteps⟩ :=
    Run.execute_follows j { host := s, notices := [.event (.start j.entry)] }
  obtain ⟨answer, cleaned⟩ := j.gains_cleaned s
  have started := Gains.report (h := j.host) { host := s } (.start j.entry)
  have finished := j.gains_finished (j.executed s).1.isOk (j.cleaned s)
  refine ⟨phases, steps, answer, _, _, executes, isSteps, ?_, ?_⟩
  · rw [transform_eq, Job.isOk_concluded, Job.concluded_snd]
    rfl
  · rw [transform_eq, Job.isOk_concluded, Job.concluded_snd, Job.rendered_finished]
    exact ((started.trans executed).trans cleaned).trans finished

end Reify
