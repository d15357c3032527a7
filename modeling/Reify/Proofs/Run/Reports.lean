import Reify.Proofs.Run.Trace

/-!
# What a run reports of its diagnostics

Each diagnostic is rendered when it is found, with the units at hand then, and the texts are
reported in batches at the end.  Whatever the host answers and wherever the run stops, the batches
hold the texts of the diagnostics that the run returns, in order, up to the configured number;
what is left out is counted once (`Reported`).
-/

namespace Reify

open List

open Progress (Gains)

/-! ### Pieces of a list -/

variable {n : Nat} {e : Event} {σ : Type}

section

variable {α : Type}

theorem flatten_chunks (n : Nat) (xs : List α) : (chunks n xs).flatten = xs := by
  fun_induction chunks n xs with
  | case1 => rfl
  | case2 x xs ih => rw [flatten_cons, ih, cons_append, take_append_drop]

theorem size_of_mem_chunks {xs c : List α} (h : c ∈ chunks n xs) : c ≠ [] ∧ c.length ≤ max 1 n := by
  fun_induction chunks n xs with
  | case1 => exact absurd h not_mem_nil
  | case2 x xs ih =>
    rcases mem_cons.1 h with rfl | h
    · refine ⟨cons_ne_nil x _, ?_⟩
      simp only [length_cons, length_take]
      omega
    · exact ih h

/-- A piece that more follow is full. -/
theorem size_of_mem_dropLast_chunks {xs c : List α} (h : c ∈ (chunks n xs).dropLast) :
    c.length = max 1 n := by
  fun_induction chunks n xs with
  | case1 => exact absurd h not_mem_nil
  | case2 x xs ih =>
    cases rest : xs.drop (n - 1) with
    | nil =>
      rw [rest, chunks] at h
      exact absurd h not_mem_nil
    | cons y ys =>
      have more : chunks n (xs.drop (n - 1)) ≠ [] := by
        rw [rest, chunks]
        exact cons_ne_nil _ _
      have long : n - 1 < xs.length := by
        have length := congrArg List.length rest
        rw [length_drop, length_cons] at length
        omega
      rw [dropLast_cons_of_ne_nil more] at h
      rcases mem_cons.1 h with rfl | h
      · simp only [length_cons, length_take]
        omega
      · exact ih h

end

/-! ### Events -/

namespace Event

/-- The texts of a batch of diagnostics, with the total. -/
def batch? : Event → Option (List String × Nat)
  | .diagnostics batch total => some (batch, total)
  | _ => none

/-- Whether an event tells how many diagnostics are hidden. -/
def countsHidden : Event → Bool
  | .warning message => "Showing first ".toList.isPrefixOf message.toList
  | _ => false

/-- The event that tells it. -/
def hidden (shown hidden : Nat) : Event :=
  .warning ("Showing first " ++ toString shown ++ " diagnostics, " ++ toString hidden ++
    " were hidden.")

theorem countsHidden_hidden (m n : Nat) : (hidden m n).countsHidden = true := by
  simp [hidden, countsHidden, String.toList_append, append_assoc]

/-- An event that tells nothing of diagnostics. -/
def IsOther (e : Event) : Prop := e.batch? = none ∧ e.countsHidden = false

theorem isOther_of_isStep (h : e.isStep = true) : e.IsOther := by
  cases e <;> first | exact ⟨rfl, rfl⟩ | exact absurd h Bool.false_ne_true

end Event

/-- **Diagnostics are reported** in these events: those found, each with the units at hand. -/
structure Reported (o : Options) (found : List (List SourceFile × Diagnostic))
    (events : List Event) : Prop where
  /-- The batches hold the first of the texts, in order. -/
  texts : (events.filterMap Event.batch?).flatMap Prod.fst =
    (found.take (o.maxDiagnostics.elim found.length (min · found.length))).map fun x =>
      x.2.render (SourceFile.sources x.1)
  totals : ∀ b ∈ events.filterMap Event.batch?, b.2 = found.length
  sizes : ∀ b ∈ events.filterMap Event.batch?,
    b.1 ≠ [] ∧ b.1.length ≤ max 1 o.diagnosticBatchSize
  full : ∀ b ∈ (events.filterMap Event.batch?).dropLast, b.1.length = max 1 o.diagnosticBatchSize
  /-- What is left out is counted. -/
  hidden : events.filter Event.countsHidden =
    if o.maxDiagnostics.elim found.length (min · found.length) < found.length then
      [.hidden (o.maxDiagnostics.elim found.length (min · found.length))
        (found.length - o.maxDiagnostics.elim found.length (min · found.length))]
    else []

theorem Options.shown_eq (o : Options) (total : Nat) :
    o.shown total = o.maxDiagnostics.elim total (min · total) := by
  rw [Options.shown]
  cases o.maxDiagnostics with
  | none => rfl
  | some m => exact Nat.min_comm ..

theorem batches_reportBatches (o : Options) (texts : List String) :
    (reportBatches o texts).filterMap Event.batch? =
      (chunks o.batchSize (texts.take (o.shown texts.length))).map (·, texts.length) := by
  have batches (cs : List (List String)) : (cs.map (Event.diagnostics · texts.length)).filterMap
      Event.batch? = cs.map (·, texts.length) := by
    induction cs with
    | nil => rfl
    | cons c cs ih => exact congrArg ((c, texts.length) :: ·) ih
  rw [reportBatches, filterMap_append, batches]
  split
  · exact append_nil _
  · exact append_nil _

theorem hidden_reportBatches (o : Options) (texts : List String) :
    (reportBatches o texts).filter Event.countsHidden =
      if o.shown texts.length < texts.length then
        [.hidden (o.shown texts.length) (texts.length - o.shown texts.length)] else [] := by
  have batches (cs : List (List String)) :
      (cs.map (Event.diagnostics · texts.length)).filter Event.countsHidden = [] := by
    rw [filter_eq_nil_iff]
    intro e h
    obtain ⟨c, -, rfl⟩ := mem_map.1 h
    exact Bool.false_ne_true
  rw [reportBatches, filter_append, batches, nil_append]
  split
  · refine filter_eq_self.2 fun e h => ?_
    rw [mem_singleton.1 h]
    exact Event.countsHidden_hidden ..
  · rfl

/-- All other events may be there or not. -/
theorem reported_of_isOther {o found before after} (first : ∀ e ∈ before, e.IsOther)
    (last : ∀ e ∈ after, e.IsOther) :
    Reported o found (before ++ reportBatches o
      (found.map fun x => x.2.render (SourceFile.sources x.1)) ++ after) := by
  have none {es : List Event} (other : ∀ e ∈ es, e.IsOther) :
      es.filterMap Event.batch? = [] ∧ es.filter Event.countsHidden = [] :=
    ⟨filterMap_eq_nil_iff.2 fun e h => (other e h).1,
      filter_eq_nil_iff.2 fun e h => by rw [(other e h).2]; exact Bool.false_ne_true⟩
  generalize texts : found.map (fun x => x.2.render (SourceFile.sources x.1)) = ts
  have length : ts.length = found.length := by rw [← texts, length_map]
  have batches : (before ++ reportBatches o ts ++ after).filterMap Event.batch? =
      (chunks o.batchSize (ts.take (o.shown found.length))).map (·, found.length) := by
    rw [filterMap_append, filterMap_append, (none first).1, (none last).1,
      batches_reportBatches, nil_append, append_nil, length]
  have size : max 1 o.batchSize = max 1 o.diagnosticBatchSize := by
    rw [Options.batchSize]
    omega
  refine ⟨?_, ?_, ?_, ?_, ?_⟩
  · rw [batches, flatMap_map, ← Options.shown_eq, map_take, texts]
    exact (flatMap_id' ..).trans (flatten_chunks ..)
  · intro b h
    rw [batches] at h
    obtain ⟨c, -, rfl⟩ := mem_map.1 h
    rfl
  · intro b h
    rw [batches] at h
    obtain ⟨c, piece, rfl⟩ := mem_map.1 h
    exact size ▸ size_of_mem_chunks piece
  · intro b h
    rw [batches, ← map_dropLast] at h
    obtain ⟨c, piece, rfl⟩ := mem_map.1 h
    exact size ▸ size_of_mem_dropLast_chunks piece
  · rw [filter_append, filter_append, (none first).2, (none last).2,
      hidden_reportBatches, nil_append, append_nil, length, Options.shown_eq]

/-! ### Runs -/

/-- The diagnostics that a run returns. -/
def returned : Except (List Diagnostic) Outcome → List Diagnostic
  | .ok outcome => outcome.diagnostics
  | .error found => found

theorem returned_transform (j : Job σ) (s : σ) :
    returned (transform j s).1 = (transform j s).2.diagnostics := by
  rw [transform_eq, Job.concluded]
  split <;> rfl

/-- Removing the staging directory tells nothing of diagnostics. -/
theorem isOther_cleaning (j : Job σ) {answer} (h : e ∈ (Run.cleaning j answer).events) :
    e.IsOther := by
  rcases mem_cons.1 h with rfl | h
  · exact ⟨rfl, rfl⟩
  · cases answer with
    | ok _ => exact absurd h not_mem_nil
    | error cause =>
      rw [mem_singleton.1 h]
      refine ⟨rfl, ?_⟩
      rw [Event.countsHidden, String.toList_append]
      rfl

/-- **No diagnostic is lost or reported twice.**  The diagnostics that a run returns are those found
in its stages, and these are reported, each as it was rendered with the units at hand when it was
found. -/
theorem transform_reports {σ : Type} (j : Job σ) (s : σ) :
    ∃ phases s₁ completed, j.Executes (Stage.plan j.options) [] s phases s₁ completed ∧
      returned (transform j s).1 = (Phase.allFound phases).map Prod.snd ∧
      Reported j.options (Phase.allFound phases) (transform j s).2.events := by
  obtain ⟨phases, steps, answer, s₁, completed, executes, isSteps, -, gains⟩ := transform_traces j s
  have found : (j.account phases steps answer (transform j s).2.rendered
      (transform j s).1.isOk).found = Phase.allFound phases := by
    by_cases keep : j.options.keepTempFiles = true <;>
      simp [Job.account, Run.cleaning, Phase.deeds, keep]
  refine ⟨phases, s₁, completed, executes, ?_, ?_⟩
  · rw [returned_transform, gains.diagnostics, found]
    rfl
  · have rendered := gains.rendered
    rw [found, List.nil_append] at rendered
    rw [gains.events, Job.account, rendered]
    have others : ∀ e ∈ .start j.entry :: (steps ++
        (if j.options.keepTempFiles then {} else Run.cleaning j answer : Deeds).events), e.IsOther := by
      intro e h
      rcases List.mem_cons.1 h with rfl | h
      · exact ⟨rfl, rfl⟩
      rcases List.mem_append.1 h with h | h
      · exact Event.isOther_of_isStep (isSteps e h)
      · split at h
        · exact absurd h List.not_mem_nil
        · exact isOther_cleaning j h
    have last : ∀ e ∈ [Event.finish (transform j s).1.isOk], e.IsOther := by
      intro e h
      rw [List.mem_singleton.1 h]
      exact ⟨rfl, rfl⟩
    have reported := @reported_of_isOther j.options (Phase.allFound phases) _ _ others last
    simpa [Phase.deeds, Progress.events] using reported

end Reify
