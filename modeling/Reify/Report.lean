import Reify.Log
import Reify.Options

/-!
# Reports

What a run tells its user: the steps it takes and, in batches, the diagnostics.
-/

namespace Reify

/-- Something a run reports. -/
inductive Event where
  | start (entry : String)
  /-- Units found at first, declarations included. -/
  | scan (files : Nat)
  /-- Units to be transformed. -/
  | transform (files : Nat)
  | emit (outDir : String)
  | cleanup (tempDir : String)
  | finish (success : Bool)
  /-- Some of the diagnostics, and how many there are. -/
  | diagnostics (batch : List String) (total : Nat)
  | warning (message : String)
deriving DecidableEq, Repr

/-- An event as lines of the log. -/
def Event.toLog : Event → List Log.Line
  | start entry => [.event .info "transformation started" [("entry", .str entry)]]
  | scan files => [.event .info "scanned" [("files", .int files)]]
  | transform files => [.event .info "transforming" [("files", .int files)]]
  | emit outDir => [.event .info "emitting" [("out_dir", .str outDir)]]
  | cleanup tempDir => [.event .info "cleaning up" [("temp_dir", .str tempDir)]]
  | finish success => [.event .info "transformation finished" [("success", .bool success)]]
  | diagnostics batch total => batch.map fun d => .event .error d [("total", .int total)]
  | warning message => [.event .warn message []]

/-- Cuts a list into pieces of a length, at least one; the last may be shorter. -/
def chunks {α : Type} (n : Nat) : List α → List (List α)
  | [] => []
  | x :: xs => (x :: xs.take (n - 1)) :: chunks n (xs.drop (n - 1))
termination_by xs => xs.length
decreasing_by simp only [List.length_drop, List.length_cons]; omega

/-- How many of the diagnostics are shown. -/
def Options.shown (o : Options) (total : Nat) : Nat :=
  (o.maxDiagnostics.map (min total)).getD total

/-- Reports diagnostics in batches, up to the configured number; the rest is counted. -/
def reportBatches (o : Options) (rendered : List String) : List Event :=
  let total := rendered.length
  let shown := o.shown total
  (chunks o.batchSize (rendered.take shown)).map (Event.diagnostics · total) ++
    if shown < total then
      [.warning ("Showing first " ++ toString shown ++ " diagnostics, " ++
        toString (total - shown) ++ " were hidden.")]
    else []

end Reify
