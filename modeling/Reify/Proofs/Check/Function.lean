import Reify.Proofs.Check.Effect
import Reify.Proofs.Result

/-!
# What is worked out for a function

`planFunc` writes to the log while it works.  `funcPlanOf` is its answer alone, so that a lemma
about the plan of a function has no log to carry along.
-/

namespace Reify

open List

/-- The check of a parameter. -/
def paramCheckOf (s : Scope) : Param → Except Unsupported (Option Stmt)
  | p@(Param.mk mark form _ _ type _) =>
    match Param.isReceiver p, checked? type, Param.name? p with
    | false, some t, some name => do
      let reflection ← s.reflect t
      let parameter := Reflection.parameter s mark.loc name reflection form.rest form.optional
      return some (Synthetic.exprStmt mark.loc
        (assertion mark.loc parameter [Synthetic.ident mark.loc name]))
    | _, _, _ => return none

/-- The checks of a function that has a body. -/
def bodyPlanOf (s : Scope) (role : Role) : Func → Except Unsupported FuncPlan
  | func@(Func.mk mark form typeParams params result _) => do
    let s := s.withGenerics (Func.typeParamNames func) .constant
    let typeConsts ← typeParams.toLists.mapM (typeParamConst s)
    let results ← (resultCheck? role form result).toList.mapM fun t => do
      return s.libraryCall mark.loc "return" [← s.reflect t]
    let asserts ← params.toList.filterMapM (paramCheckOf s)
    return { role, loc := mark.loc, typeConsts, result := results.head?, asserts
             resultName := s.options.localName "returnType" }

/-- The checks of a function; without a body there are none. -/
def funcPlanOf (s : Scope) (role : Role) : Func → Except Unsupported (Option FuncPlan)
  | func@(Func.mk _ _ _ _ _ body) =>
    match body.toOption with
    | none => return none
    | some _ => some <$> bodyPlanOf s role func

theorem bodyPlanOf_of_some {s role f plan} (h : funcPlanOf s role f = .ok (some plan)) :
    bodyPlanOf s role f = .ok plan := by
  match f, h with
  | Func.mk _ _ _ _ _ .absent, h => cases pure_eq_ok.1 h
  | Func.mk _ _ _ _ _ (.present _), h =>
    obtain ⟨_, body, same⟩ := map_eq_ok.1 h
    obtain rfl := Option.some.inj same
    exact body

namespace Attempt

theorem answers_paramCheck (s : Scope) (p : Param) (index : Nat) :
    (paramCheck s (p, index)).Answers (paramCheckOf s p) := by
  match p with
  | Param.mk mark form decorators binding type default =>
    rw [paramCheck, paramCheckOf]
    generalize Param.isReceiver _ = receiver, checked? type = t, Param.name? _ = name
    rcases receiver, t, name with ⟨_ | _, _ | t, _ | name⟩
    case false.some.some => exact (answers_ofExcept _).bind fun _ => answers_pure _
    case false.some.none => exact (answers_log _).bind fun _ => answers_pure none
    all_goals exact answers_pure none

theorem answers_paramChecks (s : Scope) (params : List Param) (start : Nat) :
    Answers ((params.zipIdx start).filterMapM (paramCheck s))
      (params.filterMapM (paramCheckOf s)) := by
  induction params generalizing start with
  | nil => exact answers_pure []
  | cons p params ih =>
    rw [zipIdx_cons, filterMapM_cons, filterMapM_cons]
    refine (answers_paramCheck s p start).bind fun check => ?_
    cases check with
    | none => exact ih (start + 1)
    | some stmt => exact (ih (start + 1)).map (stmt :: ·)

/-- The answer of `planFunc` does not depend on the log. -/
theorem answers_planFunc (s : Scope) (role : Role) (f : Func) :
    (planFunc s role f).Answers (funcPlanOf s role f) := by
  match f with
  | Func.mk mark form typeParams params result body =>
    rw [planFunc, funcPlanOf]
    cases body.toOption with
    | none => exact answers_pure none
    | some b =>
      rw [bodyPlanOf]
      dsimp only
      generalize s.withGenerics (Func.typeParamNames _) .constant = s
      rw [map_bind]
      refine (answers_ofExcept _).bind fun typeConsts => ?_
      have rest (r : Option Expr) : Answers (do
          let asserts ← params.toList.zipIdx.filterMapM (paramCheck s)
          let plan : FuncPlan :=
            { role, loc := mark.loc, typeConsts, result := r, asserts
              resultName := s.options.localName "returnType" }
          (plan.notes b).forM Attempt.log
          return some plan)
          (some <$> do
            let asserts ← params.toList.filterMapM (paramCheckOf s)
            return { role, loc := mark.loc, typeConsts, result := r, asserts
                     resultName := s.options.localName "returnType" }) := by
        rw [map_bind]
        refine (answers_paramChecks s _ 0).bind fun asserts => ?_
        exact (answers_forM answers_log _).bind fun _ => answers_pure _
      cases resultCheck? role form result with
      | none => exact rest none
      | some t =>
        simp only [Option.toList_some, mapM_cons, mapM_nil, bind_assoc, pure_bind,
          map_bind]
        refine (answers_ofExcept _).bind fun r => ?_
        rw [← map_bind]
        exact rest _

end Attempt

/-! ### Functions are planned once -/

section

variable {role : Role} {f : Func} {w w' : Walker}

theorem planFuncOnce_of_visited (role : Role) (h : w.context.wasVisited f.mark.id = true) :
    (planFuncOnce role f).run w = (.ok none, w) := by
  change StateT.run (if w.context.wasVisited f.mark.id then _ else _) w = _
  rw [if_pos h]
  rfl

theorem Walk.run_attempt {α : Type} (act : Scope → Attempt α) (w : Walker) :
    (Walk.attempt act).run w =
      (((act w.context.scope).run []).1,
        { w with log := w.log ++ ((act w.context.scope).run []).2 }) := rfl

/-- The state once a plan is there or not: what has one counts as visited. -/
def Walker.settle {α : Type} (w : Walker) (id : Nat) : Except Unsupported α → Walker
  | .ok _ => w.map (·.markVisited id)
  | .error _ => w

/-- The plan of a function that was not visited before. -/
theorem planFuncOnce_of_fresh (role : Role) (h : w.context.wasVisited f.mark.id = false) :
    ∃ log, (planFuncOnce role f).run w =
      (funcPlanOf w.context.scope role f,
        { w.map (·.recordMutation f.mark.id) with log }.settle f.mark.id
          (funcPlanOf w.context.scope role f)) := by
  have answer := Attempt.answers_planFunc w.context.scope role f []
  refine ⟨w.log ++ ((planFunc w.context.scope role f).run []).2, ?_⟩
  change StateT.run (if w.context.wasVisited f.mark.id then _ else _) w = _
  rw [if_neg (by simp [h]), StateT.run_bind]
  change StateT.run (Walk.attempt (fun s => planFunc s role f) >>= _)
    (w.map (·.recordMutation f.mark.id)) = _
  rw [StateT.run_bind, Walk.run_attempt]
  change StateT.run _ _ = _
  have scope : (w.map (·.recordMutation f.mark.id)).context.scope = w.context.scope := rfl
  simp only [scope, answer]
  cases funcPlanOf w.context.scope role f <;> rfl

/-- **A function is planned once**: it was visited before and stays as it is, or it is recorded and
counts as visited from then on. -/
theorem planFuncOnce_ok {plan} (h : (planFuncOnce role f).run w = (.ok plan, w')) :
    (w.context.wasVisited f.mark.id = true ∧ plan = none ∧ w' = w) ∨
      (w.context.wasVisited f.mark.id = false ∧ funcPlanOf w.context.scope role f = .ok plan ∧
        Effect w w' [f.mark.id] [f.mark.id] [] id) := by
  cases hv : w.context.wasVisited f.mark.id with
  | true =>
    rw [planFuncOnce_of_visited role hv] at h
    cases h
    exact .inl ⟨rfl, rfl, rfl⟩
  | false =>
    obtain ⟨log, run⟩ := planFuncOnce_of_fresh role hv
    rw [run] at h
    obtain ⟨hp, rfl⟩ := Prod.mk.inj h
    have id_ne : f.mark.id ≠ 0 := by
      intro h0
      simp [Context.wasVisited, h0] at hv
    rw [hp]
    exact .inr ⟨rfl, rfl, ((Effect.of_record w _).trans (.of_log _ log)).trans (.of_mark _ id_ne)⟩

theorem planFuncOnce_errors (role : Role) (f : Func) (w : Walker) :
    ((planFuncOnce role f).run w).2.errors = w.errors := by
  cases hv : w.context.wasVisited f.mark.id with
  | true => rw [planFuncOnce_of_visited role hv]
  | false =>
    obtain ⟨log, run⟩ := planFuncOnce_of_fresh role hv
    rw [run]
    cases funcPlanOf w.context.scope role f <;> rfl

end

/-- A function after the plan worked out for it, if there is one. -/
def applyFuncPlan : Except Unsupported (Option FuncPlan) → Func → Func
  | .ok (some plan), f => plan.apply f
  | _, f => f

@[simp] theorem applyFuncPlan_some (plan : FuncPlan) (f : Func) :
    applyFuncPlan (.ok (some plan)) f = plan.apply f := rfl

end Reify
