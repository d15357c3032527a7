import Reify.Proofs.Walk.Sound

/-!
# What the walk keeps of the state

Errors are only ever added, so a walk that ends without errors met none on its way
(`Walks.clean`): everything that was worked out succeeded.
-/

namespace Reify

/-! ### Errors -/

namespace Walker

variable (w : Walker)

@[simp] theorem errors_map (f : Context → Context) : (w.map f).errors = w.errors := rfl

@[simp] theorem errors_pushGenerics (names : List String) (access : ParamAccess) :
    (w.pushGenerics names access).errors = w.errors := by
  unfold pushGenerics
  split <;> rfl

@[simp] theorem errors_popGenerics (names : List String) :
    (w.popGenerics names).errors = w.errors := by
  unfold popGenerics
  split <;> rfl

end Walker

namespace Tree

variable {c : Category} (t : Tree c) (w : Walker)

@[simp] theorem errors_enter : (t.enter w).errors = w.errors := by
  unfold enter
  split <;> simp

@[simp] theorem errors_leave : (t.leave w).errors = w.errors := by
  unfold leave
  dsimp only
  split <;> simp

end Tree

/-- A walk that ends without errors started without any. -/
theorem Walks.clean {p k w w' out vs} (h : Walks p k w out w' vs) :
    w'.errors = [] → w.errors = [] := by
  induction h with
  | stmt planned _ ih => exact fun clean => (planStmtOnce_clean planned (ih clean)).1
  | @func _ w w₁ _ f _ role r _ planned _ ih =>
    intro clean
    have quiet := planFuncOnce_errors role f w
    rw [planned] at quiet
    rw [← quiet]
    exact (Walker.errors_report (ih clean)).1
  | @header _ _ _ _ decl _ _ _ planned _ ih =>
    intro clean
    match decl, planned with
    | VarDecl.mk _ _ _, planned => exact (planVarOnce_clean rfl planned (ih clean)).1
  | inner _ _ ih | generic _ ih =>
    intro clean
    simpa using ih (by simpa using clean)
  | doWhile _ _ head tail | partsCons _ _ head tail | eachCons _ _ head tail
  | stmtsCons _ _ head tail => exact fun clean => head (tail clean)
  | inert _ _ ih | told _ ih | toldMany _ ih | toldPresent _ ih | list _ ih | top _ ih
  | inScope _ _ ih => exact ih
  | partsNil | skip | toldAbsent | eachNil | stmtsNil => exact id

/-- Where nothing was reported, the plan of a function was worked out. -/
theorem planFuncOnce_clean {role f w w₁ r} (h : (planFuncOnce role f).run w = (r, w₁))
    (clean : (w₁.report r).errors = []) :
    ∃ plan, r = .ok plan ∧ w₁.report r = w₁ ∧
      ((w.context.wasVisited f.mark.id = true ∧ plan = none ∧ w₁ = w) ∨
        (w.context.wasVisited f.mark.id = false ∧ funcPlanOf w.context.scope role f = .ok plan ∧
          Effect w w₁ [f.mark.id] [f.mark.id] [] id)) := by
  obtain ⟨_, plan, rfl, same⟩ := Walker.errors_report clean
  exact ⟨plan, rfl, same, planFuncOnce_ok h⟩

/-! ### Units -/

/-- Instrumenting a unit without errors is a walk without errors, with the imports put in front of
what comes out of it. -/
theorem instrument_clean {options unit out w}
    (run : (instrument unit).run { context := .start options unit } = (out, w))
    (clean : w.errors = []) :
    ∃ walked w', (SourceUnit.walk unit).run { context := .start options unit } = (walked, w') ∧
      w'.errors = [] ∧ w.context = w'.context ∧
      out = SourceUnit.withImports w'.context.scope.options walked := by
  rcases walk : (SourceUnit.walk unit).run { context := .start options unit } with ⟨walked, w'⟩
  refine ⟨walked, w', rfl, ?_⟩
  rw [instrument, StateT.run_bind, walk] at run
  change StateT.run (if !w'.errors.isEmpty then _ else _) w' = _ at run
  cases errors : w'.errors with
  | nil =>
    rw [errors, if_neg (by simp)] at run
    cases run
    exact ⟨rfl, rfl, rfl⟩
  | cons u us =>
    rw [errors, if_pos (by simp)] at run
    cases run
    rw [errors] at clean
    cases clean

end Reify
