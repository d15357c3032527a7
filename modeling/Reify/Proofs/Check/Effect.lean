import Mathlib.Data.List.Infix
import Reify.Check.Walker

/-!
# What working something out does to the state

Working out what is added to a statement or a function reads the scope and the frame around it.
What it changes is little: nodes are recorded and count as visited, names are declared in the
innermost scope, and the innermost frame keeps track of its interfaces (`Effect`).  Whether or not
it succeeds, the scopes and frames further out stay as they are (`Context.Extends`).
-/

namespace Reify

open List

/-! ### Changes of the state -/

/-- Type parameters brought into reach, if there are any. -/
def Generics.under (names : List String) (access : ParamAccess) (gs : List Generics) :
    List Generics :=
  if names.isEmpty then gs else ⟨names, access⟩ :: gs

namespace Walker

/-- Changes the context. -/
def map (f : Context → Context) (w : Walker) : Walker := { w with context := f w.context }

/-- Brings type parameters into reach, if there are any. -/
def pushGenerics (names : List String) (access : ParamAccess) (w : Walker) : Walker :=
  if names.isEmpty then w else w.map (·.pushGenerics names access)

/-- Takes type parameters out of reach, if there are any. -/
def popGenerics (names : List String) (w : Walker) : Walker :=
  if names.isEmpty then w else w.map Context.popGenerics

/-- Reports a failure. -/
def report {α : Type} (r : Except Unsupported α) (w : Walker) : Walker := ((Walk.report r).run w).2

/-- Declares names. -/
def declareAll (names : List String) (w : Walker) : Walker :=
  w.map fun c => names.foldl Context.declare c

end Walker

theorem Walk.run_withGenerics {α : Type} (names : List String) (access : ParamAccess)
    (act : Walk α) (w : Walker) :
    (Walk.withGenerics names access act).run w =
      ((act.run (w.pushGenerics names access)).1,
        (act.run (w.pushGenerics names access)).2.popGenerics names) := by
  unfold Walk.withGenerics Walker.pushGenerics Walker.popGenerics
  split <;> rfl

theorem Walk.run_declareAll (names : List String) (w : Walker) :
    (names.forM fun name => Walk.change (·.declare name)).run w = ((), w.declareAll names) := by
  induction names generalizing w with
  | nil => rfl
  | cons name names ih => exact ih (w.map (·.declare name))

/-! ### Scopes and frames -/

theorem Walker.map_markVisited (w : Walker) (i : Nat) :
    (w.map (·.markVisited i)).context.scope = w.context.scope ∧
      (w.map (·.markVisited i)).context.frames = w.context.frames := by
  change (w.context.markVisited i).scope = _ ∧ (w.context.markVisited i).frames = _
  rw [Context.markVisited]
  split <;> exact ⟨rfl, rfl⟩

/-- From `c` to `c'` only the innermost scope and the innermost frame have changed, and the scope has
only grown. -/
structure Context.Extends (c c' : Context) : Prop where
  options : c'.scope.options = c.scope.options
  generics : c'.scope.generics = c.scope.generics
  names : c.scope.declared.top <:+ c'.scope.declared.top
  outer : c'.scope.declared.below = c.scope.declared.below
  frames : c'.frames.below = c.frames.below

variable {access : ParamAccess}

namespace Context.Extends

variable {c c₁ c₂ : Context}

theorem refl (c : Context) : c.Extends c := ⟨rfl, rfl, suffix_rfl, rfl, rfl⟩

theorem trans (h : c.Extends c₁) (h' : c₁.Extends c₂) : c.Extends c₂ where
  options := h'.options.trans h.options
  generics := h'.generics.trans h.generics
  names := h.names.trans h'.names
  outer := h'.outer.trans h.outer
  frames := h'.frames.trans h.frames

theorem of_eq (scope : c₁.scope = c.scope) (frames : c₁.frames = c.frames) : c.Extends c₁ := by
  refine ⟨?_, ?_, ?_, ?_, ?_⟩ <;> simp [scope, frames]

theorem declare (c : Context) (name : String) : c.Extends (c.declare name) :=
  ⟨rfl, rfl, suffix_insert name _, rfl, rfl⟩

theorem declareAll (names : List String) (c : Context) :
    c.Extends (names.foldl Context.declare c) := by
  induction names generalizing c with
  | nil => exact refl c
  | cons name names ih => exact (declare c name).trans (ih _)

theorem modifyFrame (c : Context) (frame : Frame → Frame) :
    c.Extends { c with frames := c.frames.modify frame } :=
  ⟨rfl, rfl, suffix_rfl, rfl, rfl⟩

/-- Type parameters that are in reach only meanwhile leave no trace. -/
theorem popGenerics {names} (h : (c.pushGenerics names access).Extends c₁) :
    c.Extends c₁.popGenerics :=
  ⟨h.options, congrArg List.tail h.generics, h.names, h.outer, h.frames⟩

end Context.Extends

/-! ### Effects -/

theorem Context.wasVisited_iff {c : Context} {i} :
    c.wasVisited i = true ↔ i = 0 ∨ i ∈ c.visited := by
  simp [Context.wasVisited]

/-- From `w` to `w'` the nodes `visited` have become visited, the nodes `recorded` were recorded,
the names `names` declared and the innermost frame changed by `frame`; nothing else has happened
but writing to the log. -/
structure Effect (w w' : Walker) (visited recorded : List Nat) (names : List String)
    (frame : Frame → Frame) : Prop where
  visited : ∀ i, i ∈ w'.context.visited ↔ i ∈ w.context.visited ∨ i ∈ visited
  recorded : w'.context.mutations = w.context.mutations ++ recorded
  scope : w'.context.scope = names.foldl Scope.declare w.context.scope
  frames : w'.context.frames = w.context.frames.modify frame
  errors : w'.errors = w.errors

namespace Effect

variable {w w₁ w₂ : Walker} {visited visited' recorded recorded' : List Nat}
  {names names' : List String} {frame frame' : Frame → Frame}

theorem refl (w : Walker) : Effect w w [] [] [] id where
  visited := by simp
  recorded := by simp
  scope := rfl
  frames := rfl
  errors := rfl

theorem trans (h : Effect w w₁ visited recorded names frame)
    (h' : Effect w₁ w₂ visited' recorded' names' frame') :
    Effect w w₂ (visited ++ visited') (recorded ++ recorded') (names ++ names')
      (frame' ∘ frame) where
  visited i := by rw [h'.visited, h.visited, mem_append, or_assoc]
  recorded := by rw [h'.recorded, h.recorded, append_assoc]
  scope := by rw [h'.scope, h.scope, foldl_append]
  frames := by rw [h'.frames, h.frames]; rfl
  errors := by rw [h'.errors, h.errors]

theorem of_log (w : Walker) (log : List Log.Line) : Effect w { w with log } [] [] [] id where
  visited := by simp
  recorded := by simp
  scope := rfl
  frames := rfl
  errors := rfl

theorem of_record (w : Walker) (i : Nat) : Effect w (w.map (·.recordMutation i)) [] [i] [] id where
  visited := by simp [Walker.map, Context.recordMutation]
  recorded := rfl
  scope := rfl
  frames := rfl
  errors := rfl

theorem of_mark (w : Walker) {i : Nat} (hi : i ≠ 0) :
    Effect w (w.map (·.markVisited i)) [i] [] [] id where
  visited j := by
    simp only [Walker.map, Context.markVisited, if_neg hi, mem_insert_iff, mem_singleton]
    exact or_comm
  recorded := by simp [Walker.map, Context.markVisited, if_neg hi]
  scope := by simp [Walker.map, Context.markVisited, if_neg hi]
  frames := by simp [Walker.map, Context.markVisited, if_neg hi]; rfl
  errors := rfl

theorem of_declareAll (w : Walker) (names : List String) :
    Effect w (w.declareAll names) [] [] names id := by
  induction names generalizing w with
  | nil => exact .refl w
  | cons name names ih =>
    have first : Effect w (w.map (·.declare name)) [] [] [name] id :=
      ⟨by simp [Walker.map, Context.declare, Context.mapScope], by simp [Walker.map,
        Context.declare, Context.mapScope], rfl, rfl, rfl⟩
    exact first.trans (ih _)

/-- Type parameters that are in reach only meanwhile leave no trace. -/
theorem of_generics {names}
    (h : Effect (w.pushGenerics names access) w₁ visited recorded [] frame) :
    Effect w (w₁.popGenerics names) visited recorded [] frame := by
  unfold Walker.pushGenerics at h
  unfold Walker.popGenerics
  split at h
  case isTrue empty =>
    rw [if_pos empty]
    exact h
  case isFalse empty =>
    rw [if_neg empty]
    refine ⟨h.visited, h.recorded, ?_, h.frames, h.errors⟩
    have scope := h.scope
    simp only [foldl_nil] at scope ⊢
    simp [Walker.map, Context.popGenerics, Context.mapScope, scope, Context.pushGenerics]

end Effect

end Reify
