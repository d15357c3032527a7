import Reify.Proofs.Syntax.Subtrees
import Reify.Proofs.Walk.State

/-!
# Reports

Reports are only ever added (`Walks.errors_grow`).  A function whose checks cannot be worked out
does not count as visited, so what is wrong with it is reported whenever the walk comes to it.  To
the function of a declaration it comes twice: along with the statement, and on its own
(`failed_declaration_reported_twice`).
-/

namespace Reify

open List

/-! ### Reports are added -/

section

variable {w w₁ : Walker}

theorem Walker.report_errors {α : Type} (r : Except Unsupported α) :
    w.errors <+: (w.report r).errors := by
  cases r with
  | ok a => exact prefix_refl _
  | error u => exact prefix_append _ _

theorem planStmtOnce_errors {s plan fs} (h : (planStmtOnce s).run w = ((plan, fs), w₁)) :
    w.errors <+: w₁.errors := by
  cases hv : w.context.wasVisited s.mark.id with
  | true =>
    rw [planStmtOnce_of_visited hv] at h
    cases h
    exact prefix_refl _
  | _ =>
    rcases planned : (planStmt s).run (w.recordStmt s) with ⟨⟨p, r⟩, w₂⟩
    have quiet := (confined_planStmt s (w.recordStmt s)).1
    rw [planStmtOnce_of_fresh hv planned] at h
    rw [planned, w.errors_recordStmt] at quiet
    cases h
    rw [← quiet]
    exact Walker.report_errors r

theorem planVarOnce_errors {decl plans} (h : (planVarOnce decl).run w = (plans, w₁)) :
    w.errors <+: w₁.errors := by
  cases hv : w.context.wasVisited decl.mark.id with
  | true =>
    rw [planVarOnce_of_visited hv] at h
    cases h
    exact prefix_refl _
  | _ =>
    let w₀ := w.map (·.recordMutation decl.mark.id)
    rcases planned : (planVar decl).run w₀ with ⟨⟨p, r⟩, w₂⟩
    have quiet : w₂.errors = w.errors := by
      have quiet := (confined_planVar decl w₀).1
      rwa [planned] at quiet
    rw [planVarOnce_of_fresh hv planned] at h
    cases h
    rw [← quiet]
    exact Walker.report_errors r

end

variable {vs : List Visit} {p : Point} {role : Role}

/-- **Reports are only ever added.** -/
theorem Walks.errors_grow {k w w' out} (h : Walks p k w out w' vs) : w.errors <+: w'.errors := by
  induction h with
  | inert _ _ ih => exact ih
  | stmt planned _ ih => exact (planStmtOnce_errors planned).trans ih
  | @func _ w w₁ _ f _ role r _ planned _ ih =>
    have quiet := planFuncOnce_errors role f w
    rw [planned] at quiet
    rw [← quiet]
    exact (Walker.report_errors r).trans ih
  | header planned _ ih => exact (planVarOnce_errors planned).trans ih
  | inner _ _ ih => simpa using ih
  | doWhile _ _ first second => exact first.trans second
  | partsCons _ _ head tail | eachCons _ _ head tail | stmtsCons _ _ head tail =>
    exact head.trans tail
  | told _ ih | toldMany _ ih | toldPresent _ ih => exact ih
  | list _ ih | top _ ih | inScope _ _ ih => exact ih
  | generic _ ih => simpa using ih
  | _ => exact prefix_refl _

/-! ### Functions that fail -/

section

variable {w w' : Walker} {f : Func} {u : Unsupported}

/-- A function that fails does not count as visited: all that remains of it is a record. -/
theorem planFuncOnce_of_error (fresh : w.context.wasVisited f.mark.id = false)
    (failed : funcPlanOf w.context.scope role f = .error u) :
    ∃ log, (planFuncOnce role f).run w =
      (.error u, { w.map (·.recordMutation f.mark.id) with log }) := by
  obtain ⟨log, run⟩ := planFuncOnce_of_fresh role fresh
  rw [failed] at run
  exact ⟨log, run⟩

/-- What is wrong with a function is reported where the walk comes to it. -/
theorem Walks.reports_func {out : Func × List Stmt} (h : Walks p (.node f (.role role)) w out w' vs)
    (fresh : w.context.wasVisited f.mark.id = false)
    (failed : funcPlanOf w.context.scope role f = .error u) : w.errors ++ [u] <+: w'.errors := by
  cases h with
  | inert h => cases h
  | func planned inner =>
    obtain ⟨log, run⟩ := planFuncOnce_of_error fresh failed
    rw [run] at planned
    cases planned
    exact inner.errors_grow

/-- Nothing happens to the state at a name. -/
theorem Walks.of_name {brief} {t t' : Maybe .name}
    (h : Walks p (.child (.told brief) t) w t' w' vs) : w' = w := by
  cases h with
  | told node =>
    cases node with
    | inert h => cases h
  | toldAbsent => rfl
  | @toldPresent _ _ _ _ _ _ t _ present =>
    match t, present with
    | Name.mk _ _, present =>
      cases present with
      | told node =>
      cases node with
      | inert _ inner =>
      cases inner with
      | inner _ parts =>
      cases parts
      rfl

/-- What is wrong with the function of a declaration is reported along with the statement.  The
statement counts as visited then, the function does not. -/
theorem planStmtOnce_of_failed {m mark form name} (own : w.context.wasVisited m.id = false)
    (fresh : w.context.wasVisited f.mark.id = false) (apart : f.mark.id ≠ m.id)
    (failed : funcPlanOf w.context.scope .function f = .error u) :
    ∃ w₁, (planStmtOnce (Stmt.funcDecl m (FuncDecl.mk mark form name f))).run w =
        ((.keep, []), w₁) ∧
      w₁.errors = w.errors ++ [u] ∧ w₁.context.scope = w.context.scope ∧
      w₁.context.wasVisited f.mark.id = false := by
  obtain ⟨log, run⟩ := planFuncOnce_of_error fresh failed
  have planned : (planStmt (Stmt.funcDecl m (FuncDecl.mk mark form name f))).run w =
      ((.keep, .error u), { w.map (·.recordMutation f.mark.id) with log }) := by
    change StateT.run (planFuncOnce .function f >>= _) w = _
    rw [StateT.run_bind, run]
    rfl
  have id_ne : m.id ≠ 0 := by
    intro h0
    simp [Context.wasVisited, h0] at own
  refine ⟨_, planStmtOnce_of_fresh own planned, rfl, ?_, ?_⟩
  · exact (Effect.of_mark _ id_ne).scope
  · rw [← Bool.not_eq_true, Context.wasVisited_iff] at fresh ⊢
    rintro (zero | seen)
    · exact fresh (.inl zero)
    · rcases ((Effect.of_mark _ id_ne).visited _).1 seen with seen | same
      · exact fresh (.inr seen)
      · exact apart (mem_singleton.1 same)

/-- Walks a statement. -/
def Stmt.walk (s : Stmt) : Walk (Stmt × List Stmt) := s.fold (X := Walked) Form.walk

theorem Stmt.walks (s : Stmt) (p : Point) (w : Walker) :
    ∃ vs, Walks p (.node s .none) w (s.walk.run w).1 (s.walk.run w).2 vs :=
  s.walk_sound .none rfl p w

/-- **A declaration that fails is reported twice.**  If the checks of the function of a declaration
cannot be worked out in the scope of the declaration, walking the statement reports the type that is
in the way along with the statement, and once more when it comes to the function. -/
theorem failed_declaration_reported_twice {m mark : Mark} {form : FuncDeclForm}
    {name : Maybe .name} {out : Stmt × List Stmt} (own : w.context.wasVisited m.id = false)
    (fresh : w.context.wasVisited f.mark.id = false) (apart : f.mark.id ≠ m.id)
    (failed : funcPlanOf w.context.scope .function f = .error u)
    (run : (Stmt.walk (Stmt.funcDecl m (FuncDecl.mk mark form name f))).run w = (out, w')) :
    w.errors ++ [u, u] <+: w'.errors := by
  obtain ⟨vs, walks⟩ := Stmt.walks (Stmt.funcDecl m (FuncDecl.mk mark form name f)) {} w
  rw [run] at walks
  obtain ⟨w₁, planned₁, errors, scope, fresh₁⟩ := planStmtOnce_of_failed own fresh apart failed
  cases walks with
  | inert h => cases h
  | stmt planned inner =>
    rw [planned₁] at planned
    cases planned
    cases inner with
    | inner _ parts =>
    cases parts with
    | partsCons head tail =>
    cases tail
    cases head with
    | told node =>
    cases node with
    | inert _ inner =>
    cases inner with
    | inner _ parts =>
    cases parts with
    | partsCons named rest =>
    obtain rfl := named.of_name
    cases rest with
    | partsCons func none =>
    cases none
    cases func with
    | told node =>
    have again := node.reports_func fresh₁ (scope ▸ failed)
    rw [List.append_cons, ← errors]
    exact again

end

/-- `function (x: keyof T) {}` -/
def keyofFunc : Func :=
  let keyofT := TypeExpr.operator ⟨{ id := 10, loc := ⟨100, 105⟩ }, { id := 11 }⟩ .keyOf
    (TypeExpr.reference ⟨{ id := 12, loc := ⟨120, 125⟩ }, { id := 13 }⟩ (.ident "T") .absent)
  .mk { id := 5 } ⟨false, false, false⟩ .absent (.ofList [
    Param.mk { id := 6 } ⟨false, false, none, false⟩ (.ofList [])
      (Binding.mk { id := 7 } (Pat.ident ⟨{ id := 8 }, { id := 9 }⟩ "x")) (.present keyofT) .absent])
    .absent (.present (FuncBody.block (.ofList [])))

/-- `function f(x: keyof T) {}` -/
def keyofDecl : Stmt :=
  Stmt.funcDecl { id := 2 } (FuncDecl.mk { id := 3 } ⟨false, false⟩
    (.present (Name.mk { id := 4 } "f")) keyofFunc)

def keyofUnit : SourceUnit := .mk { id := 1 } (.ofList [keyofDecl])

/-- The state at the start of the unit. -/
def keyofStart : Walker := { context := .start {} keyofUnit }

theorem failed_declaration_reported_twice_keyof :
    keyofStart.context.wasVisited 2 = false ∧ keyofStart.context.wasVisited 5 = false ∧
      funcPlanOf keyofStart.context.scope .function keyofFunc =
        .error ⟨"TypeOperator", ⟨100, 105⟩⟩ ∧
      [⟨"TypeOperator", ⟨100, 105⟩⟩, ⟨"TypeOperator", ⟨100, 105⟩⟩] <+:
        ((Stmt.walk keyofDecl).run keyofStart).2.errors := by
  have own : keyofStart.context.wasVisited 2 = false := by decide +kernel
  have fresh : keyofStart.context.wasVisited keyofFunc.mark.id = false := by decide +kernel
  have failed : funcPlanOf keyofStart.context.scope .function keyofFunc =
      .error ⟨"TypeOperator", ⟨100, 105⟩⟩ := rfl
  have run : (Stmt.walk keyofDecl).run keyofStart =
      (((Stmt.walk keyofDecl).run keyofStart).1, ((Stmt.walk keyofDecl).run keyofStart).2) :=
    (Prod.eta _).symm
  generalize ((Stmt.walk keyofDecl).run keyofStart).2 = w' at run ⊢
  exact ⟨own, fresh, failed, failed_declaration_reported_twice (m := { id := 2 }) own fresh
    (by decide) failed run⟩

/-- One type is in the way, and it is reported twice. -/
theorem unsupported_type_reported_twice :
    keyofUnit.Original ∧ (keyofUnit.marks.map Mark.id).Nodup ∧
      ((keyofUnit.subtrees Category.none .type).map TypeExpr.loc).Nodup ∧
      ((instrument keyofUnit).run { context := .start {} keyofUnit }).2.errors.map Unsupported.loc =
        [⟨100, 105⟩, ⟨100, 105⟩] := by
  refine ⟨by decide +kernel, by decide +kernel, by decide +kernel, by decide +kernel⟩

/-! ### Variables -/

/-- The first type without a reflection ends the plans, and its initializer is dropped. -/
theorem initPlansOf_error {s ds plans u} (h : initPlansOf s ds = (plans, .error u)) :
    ∃ before d after checks, ds = before ++ d :: after ∧
      Forall₂ (initPlanOf s · = .ok ·) before checks ∧ initPlanOf s d = .error u ∧
      plans = checks ++ [.drop] := by
  induction ds generalizing plans with
  | nil => cases h
  | cons d ds ih =>
    rw [initPlansOf] at h
    split at h
    case h_1 plan planned =>
      obtain ⟨rfl, rest⟩ := Prod.mk.inj h
      obtain ⟨before, e, after, checks, rfl, each, failed, plans⟩ := ih (Prod.ext rfl rest)
      exact ⟨d :: before, e, after, plan :: checks, rfl, .cons planned each, failed,
        congrArg (plan :: ·) plans⟩
    case h_2 v failed =>
      cases h
      exact ⟨[], d, ds, [], rfl, .nil, failed, rfl⟩

/-- A variable whose initializer stays, or is checked against the type of the variable. -/
inductive Declarator.Kept (s : Scope) : Declarator → Declarator → Prop where
  | same (d : Declarator) : Kept s d d
  | checked {mark binding type t init e} (typed : checked? type = some t)
      (reflected : s.reflect t = .ok e) :
      Kept s (.mk mark binding type (.present init))
        (.mk mark binding type (.present (checkedInit e init)))

theorem Declarator.kept_apply {s d plan} (h : initPlanOf s d = .ok plan) :
    Declarator.Kept s d (plan.applyDeclarator d) := by
  match d with
  | Declarator.mk mark binding type init =>
    rw [initPlanOf] at h
    split at h
    case h_1 t e typed given =>
      obtain ⟨reflection, reflected, rfl⟩ := map_eq_ok.1 h
      obtain rfl : init = .present e := by rw [← Tree.ofOption_toOption init, given]; rfl
      exact .checked typed reflected
    case h_2 =>
      obtain rfl := pure_eq_ok.1 h
      exact .same _

theorem applyInits_kept {s before checks} (h : Forall₂ (initPlanOf s · = .ok ·) before checks)
    (plans : List InitPlan) (after : List Declarator) :
    ∃ kept, Forall₂ (Declarator.Kept s) before kept ∧
      applyInits (checks ++ plans) (before ++ after) = kept ++ applyInits plans after := by
  induction h with
  | nil => exact ⟨[], .nil, rfl⟩
  | cons planned _ ih =>
    obtain ⟨kept, each, applied⟩ := ih
    exact ⟨_ :: kept, .cons (Declarator.kept_apply planned) each, congrArg (_ :: ·) applied⟩

/-- **A variable declaration that fails loses one initializer**, that of the first variable whose
type has no reflection.  The initializers before it stay or are checked, those behind it stay, and
no name is declared. -/
theorem failed_variable_loses_initializer {m mark : Mark} {form : VarForm} {ds : Many .declarator}
    {stmt : Stmt} {u : Unsupported} {w w' : Walker}
    (run : (checkStmt (Stmt.varDecl m (VarDecl.mk mark form ds))).run w = ((stmt, .error u), w')) :
    ∃ before kept own binding type t init after,
      ds.toList = before ++ Declarator.mk own binding type (.present init) :: after ∧
      Forall₂ (Declarator.Kept w.context.scope) before kept ∧
      checked? type = some t ∧ w.context.scope.reflect t = .error u ∧
      stmt = Stmt.varDecl m (VarDecl.mk mark form
        (.ofList (kept ++ Declarator.mk own binding type .absent :: after))) ∧
      w'.context = w.context ∧ w'.errors = w.errors := by
  obtain ⟨log, planned⟩ := run_planVar mark form ds w
  obtain ⟨⟨plan, r⟩, w₁, step, run⟩ := run_bind run
  obtain ⟨⟨plans, r⟩, w₂, var, step⟩ := run_bind step
  rw [planned] at var
  obtain ⟨answer, rfl⟩ := Prod.mk.inj var
  rw [answer] at step
  cases r with
  | ok _ =>
    cases step
    cases run
  | error v =>
    cases step
    cases run
    obtain ⟨before, d, after, checks, split, each, failed, rfl⟩ := initPlansOf_error answer
    obtain ⟨kept, keeps, applied⟩ := applyInits_kept each [.drop] (d :: after)
    match d with
    | Declarator.mk own binding type init =>
      rw [initPlanOf] at failed
      split at failed
      case h_1 t e typed given =>
        obtain rfl : init = .present e := by rw [← Tree.ofOption_toOption init, given]; rfl
        refine ⟨before, kept, own, binding, type, t, e, after, split, keeps, typed,
          map_eq_error.1 failed, ?_, rfl, rfl⟩
        change Stmt.varDecl m (VarDecl.mk mark form (.ofList (applyInits _ ds.toList))) = _
        rw [split, applied]
        rfl
      case h_2 => cases failed

/-- `name: type = init` -/
def typedVariable (name : String) (type : TypeExpr) (init : Expr) : Declarator :=
  .mk {} (Synthetic.binding {} name) (.present type) (.present init)

/-- `keyof any` -/
def keyofAny : TypeExpr := .operator {} .keyOf (Synthetic.any {})

/-- `a: string = x, b: keyof any = x, c: keyof any = x` -/
def failingSecond : List Declarator :=
  let x := Synthetic.ident {} "x"
  [typedVariable "a" (.keyword {} .string) x, typedVariable "b" keyofAny x,
    typedVariable "c" keyofAny x]

theorem failed_variable_loses_initializer_second :
    ∃ stmt w', (checkStmt (Stmt.varDecl {} (VarDecl.mk {} default (.ofList failingSecond)))).run
        { context := .start {} keyofUnit } = ((stmt, .error ⟨"TypeOperator", {}⟩), w') ∧
      ∃ kept own binding type after, stmt = Stmt.varDecl {} (VarDecl.mk {} default
        (.ofList (kept ++ Declarator.mk own binding type .absent :: after))) := by
  have run : (checkStmt (Stmt.varDecl {} (VarDecl.mk {} default (.ofList failingSecond)))).run
      { context := .start {} keyofUnit } = ((_, .error ⟨"TypeOperator", {}⟩), _) := rfl
  obtain ⟨_, kept, own, binding, type, _, _, after, -, -, -, -, same, -⟩ :=
    failed_variable_loses_initializer run
  exact ⟨_, _, run, kept, own, binding, type, after, same⟩

/-- `const f: keyof any = function (x: keyof T) {};` -/
def keyofVariable : SourceUnit :=
  (SourceUnit.mk {} (.ofList [Stmt.varDecl {} (VarDecl.mk {} default (.ofList [
    typedVariable "f" keyofAny (Expr.func {} .absent keyofFunc)]))])).numbered

/-- Only one type is reported: the function goes with its initializer. -/
theorem dropped_initializer_unreported :
    keyofVariable.Original ∧ (keyofVariable.marks.map Mark.id).Nodup ∧
      keyofVariable.funcs.length = 1 ∧
      let run := (instrument keyofVariable).run { context := .start {} keyofVariable }
      run.1.funcs.length = 0 ∧ run.2.errors = [⟨"TypeOperator", {}⟩] := by
  refine ⟨by decide +kernel, by decide +kernel, by decide +kernel, by decide +kernel,
    by decide +kernel⟩

end Reify
