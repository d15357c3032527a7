import Reify.Proofs.Check.Opening
import Reify.Proofs.Check.Request

/-!
# How a function is rewritten

The plan of a function leaves everything but the body as it is.  In a body that is a block, the
values returned are checked (`ChecksReturns`), and one run of statements is put in (`Inserts`): the
constants of the type parameters, the constant that holds the reflection of the result, and the
checks of the parameters (`Func.Opening`).  All of this is worked out before anything changes, so a
function one of whose types has no reflection stays as it is (`function_rewritten`).
-/

namespace Reify

open List

/-! ### Returned values -/

/-- Kinds of statements in which no statement of the same function stands. -/
def StmtForm.holdsNoStmt : StmtForm → Bool
  | breakTo _ | continueTo _ | empty | expr | importing | throwing | classDecl | funcDecl | varDecl
  | interfaceDecl | aliasDecl | enumDecl => true
  | _ => false

/-- **Checked returns**: the second tree is the first with each value that it returns from the
function around it checked against the constant `name`.  The rules follow the statements of that
function wherever they stand.  They never enter an expression, a declaration or a class, so what
other functions return stays as it is. -/
inductive ChecksReturns (name : String) : (c : Category) → Tree c → Tree c → Prop where
  | value {site e} :
      ChecksReturns name .stmt (Stmt.returning site (.present e))
        (Stmt.returning site (.present (checkedBy name site.form.loc e)))
  | bare {site} : ChecksReturns name .stmt (Stmt.returning site .absent) (Stmt.returning site .absent)
  | simple {form marks ts} (h : StmtForm.holdsNoStmt form = true) :
      ChecksReturns name .stmt (.node form marks ts) (.node form marks ts)
  | block {mark b b'} (body : ChecksReturns name .block b b') :
      ChecksReturns name .stmt (Stmt.block mark b) (Stmt.block mark b')
  | doWhile {site test s s'} (body : ChecksReturns name .stmt s s') :
      ChecksReturns name .stmt (Stmt.doWhile site test s) (Stmt.doWhile site test s')
  | whileLoop {site test s s'} (body : ChecksReturns name .stmt s s') :
      ChecksReturns name .stmt (Stmt.whileLoop site test s) (Stmt.whileLoop site test s')
  | forIn {site target source b b'} (body : ChecksReturns name .block b b') :
      ChecksReturns name .stmt (Stmt.forIn site target source b) (Stmt.forIn site target source b')
  | forOf {site await target source b b'} (body : ChecksReturns name .block b b') :
      ChecksReturns name .stmt (Stmt.forOf site await target source b)
        (Stmt.forOf site await target source b')
  | forLoop {site init test update b b'} (body : ChecksReturns name .block b b') :
      ChecksReturns name .stmt (Stmt.forLoop site init test update b)
        (Stmt.forLoop site init test update b')
  | ifElse {site test s s' no no'} (yes : ChecksReturns name .stmt s s')
      (else' : ChecksReturns name (.maybe .stmt) no no') :
      ChecksReturns name .stmt (Stmt.ifElse site test s no) (Stmt.ifElse site test s' no')
  | labeled {site label s s'} (body : ChecksReturns name .stmt s s') :
      ChecksReturns name .stmt (Stmt.labeled site label s) (Stmt.labeled site label s')
  | switch {site subject bs bs'} (branches : ChecksReturns name (.many .branch) bs bs') :
      ChecksReturns name .stmt (Stmt.switch site subject bs) (Stmt.switch site subject bs')
  | trying {site b b' h h' f f'} (body : ChecksReturns name .block b b')
      (handler : ChecksReturns name (.maybe .handler) h h')
      (finalizer : ChecksReturns name (.maybe .block) f f') :
      ChecksReturns name .stmt (Stmt.trying site b h f) (Stmt.trying site b' h' f')
  | braces {mark ss ss'} (stmts : ChecksReturns name (.many .stmt) ss ss') :
      ChecksReturns name .block (Block.mk mark ss) (Block.mk mark ss')
  | branch {mark test ss ss'} (stmts : ChecksReturns name (.many .stmt) ss ss') :
      ChecksReturns name .branch (Branch.mk mark test ss) (Branch.mk mark test ss')
  | handler {mark param type ss ss'} (stmts : ChecksReturns name (.many .stmt) ss ss') :
      ChecksReturns name .handler (Handler.mk mark param type ss) (Handler.mk mark param type ss')
  | absent {c} : ChecksReturns name (.maybe c) .absent .absent
  | present {c} {t t' : Tree c} (inner : ChecksReturns name c t t') :
      ChecksReturns name (.maybe c) (.present t) (.present t')
  | nil {c} : ChecksReturns name (.many c) (.ofList []) (.ofList [])
  | cons {c} {t t' : Tree c} {ts ts' : List (Tree c)} (head : ChecksReturns name c t t')
      (tail : ChecksReturns name (.many c) (.ofList ts) (.ofList ts')) :
      ChecksReturns name (.many c) (.ofList (t :: ts)) (.ofList (t' :: ts'))

section

variable {name : String}

/-- Each of the trees that is a statement or holds some has its returns checked. -/
def Children.EachChecked (name : String) : {cs : List Category} → Children cs → Prop
  | _, .nil => True
  | c :: _, .cons t ts =>
    (c.holdsStmts = true →
      ChecksReturns name c t (t.fold (X := Tree) (Form.mapReturns (checkedBy name)))) ∧
    ts.EachChecked name

theorem Children.EachChecked.many {c} (hc : c.holdsStmts = true) {n}
    {ts : Children (List.replicate n c)} (h : ts.EachChecked name) :
    ChecksReturns name (.many c) (.ofList ts.toList)
      (.ofList (ts.toList.map (Tree.fold (X := Tree) (Form.mapReturns (checkedBy name))))) := by
  induction n with
  | zero => exact .nil
  | succ n ih =>
    match ts, h with
    | .cons t ts, h => exact .cons (h.1 hc) (ih h.2)

mutual

/-- Changing the returned values checks them. -/
theorem Tree.checksReturns : {c : Category} → (t : Tree c) → c.holdsStmts = true →
    ChecksReturns name c t (t.fold (X := Tree) (Form.mapReturns (checkedBy name)))
  | c, .node form marks ts, hc => by
    have parts : ts.EachChecked name := ts.eachChecked
    cases c with
    | stmt =>
      cases form with
      | returning =>
        match marks, ts with
        | .two _, .cons (.present _) .nil => exact .value
        | .two _, .cons .absent .nil => exact .bare
      | block =>
        match marks, ts, parts with
        | .one _, .cons _ .nil, parts => exact .block (parts.1 rfl)
      | doWhile =>
        match marks, ts, parts with
        | .two _, .cons _ (.cons _ .nil), parts => exact .doWhile (parts.2.1 rfl)
      | whileLoop =>
        match marks, ts, parts with
        | .two _, .cons _ (.cons _ .nil), parts => exact .whileLoop (parts.2.1 rfl)
      | forIn =>
        match marks, ts, parts with
        | .two _, .cons _ (.cons _ (.cons _ .nil)), parts => exact .forIn (parts.2.2.1 rfl)
      | forOf =>
        match marks, ts, parts with
        | .two _, .cons _ (.cons _ (.cons _ .nil)), parts => exact .forOf (parts.2.2.1 rfl)
      | forLoop =>
        match marks, ts, parts with
        | .two _, .cons _ (.cons _ (.cons _ (.cons _ .nil))), parts =>
          exact .forLoop (parts.2.2.2.1 rfl)
      | ifElse =>
        match marks, ts, parts with
        | .two _, .cons _ (.cons _ (.cons _ .nil)), parts =>
          exact .ifElse (parts.2.1 rfl) (parts.2.2.1 rfl)
      | labeled =>
        match marks, ts, parts with
        | .two _, .cons _ .nil, parts => exact .labeled (parts.1 rfl)
      | switch =>
        match marks, ts, parts with
        | .two _, .cons _ (.cons _ .nil), parts => exact .switch (parts.2.1 rfl)
      | trying =>
        match marks, ts, parts with
        | .two _, .cons _ (.cons _ (.cons _ .nil)), parts =>
          exact .trying (parts.1 rfl) (parts.2.1 rfl) (parts.2.2.1 rfl)
      | expr | throwing =>
        match marks, ts with
        | .two _, .cons _ .nil => exact .simple rfl
      | breakTo | continueTo | empty =>
        match marks, ts with
        | .two _, .nil => exact .simple rfl
      | _ =>
        match marks, ts with
        | .one _, .cons _ .nil => exact .simple rfl
    | block =>
      match marks, ts, parts with
      | .one _, .cons _ .nil, parts => exact .braces (parts.1 rfl)
    | branch =>
      match marks, ts, parts with
      | .one _, .cons _ (.cons _ .nil), parts => exact .branch (parts.2.1 rfl)
    | handler =>
      match marks, ts, parts with
      | .one _, .cons _ (.cons _ (.cons _ .nil)), parts => exact .handler (parts.2.2.1 rfl)
    | maybe c =>
      match form, marks, ts, parts with
      | false, .none, .nil, _ => exact .absent
      | true, .none, .cons t .nil, parts =>
        have inner : c.holdsStmts = true := hc
        change ChecksReturns name (.maybe c) (.present t) (.present (if c.holdsStmts then _ else t))
        rw [if_pos inner]
        exact .present (parts.1 inner)
    | many c =>
      match marks with
      | .none =>
        have inner : c.holdsStmts = true := hc
        have changed : (Tree.ofList ts.toList).fold (X := Tree) (Form.mapReturns (checkedBy name)) =
            .ofList (ts.toList.map (Tree.fold (X := Tree) (Form.mapReturns (checkedBy name)))) :=
          replaceStmts_ofList _ inner ts.toList
        rw [← Tree.ofList_children ts, changed]
        exact parts.many inner
    | _ => cases hc

theorem Children.eachChecked : {cs : List Category} → (ts : Children cs) → ts.EachChecked name
  | _, .nil => trivial
  | _, .cons t ts => ⟨t.checksReturns, ts.eachChecked⟩

end

end

/-! ### The statements put in -/

/-- The types that have to be reflected for it. -/
def Func.checkedTypes (role : Role) : Func → List TypeExpr
  | Func.mk _ form typeParams params result _ =>
    typeParams.toLists.filterMap TypeParam.bound? ++ (resultCheck? role form result).toList ++
      params.toList.filterMap Param.checkedType?

variable {u : Unsupported} {plan : FuncPlan}

section

variable {s : Scope} {role : Role}

variable {mark : Mark} {p : TypeParam} {f : Func}

theorem typeParamConst_fails (h : typeParamConst s p = .error u) :
    ∃ t ∈ p.bound?, s.reflect t = .error u := by
  match p, h with
  | TypeParam.mk mark name .absent _, h => cases h
  | TypeParam.mk mark name (.present t) _, h =>
    replace h := bind_pure_eq_error.1 h
    exact ⟨t, rfl, bind_pure_eq_error.1 h⟩

theorem paramCheckOf_fails {p} (h : paramCheckOf s p = .error u) :
    ∃ t ∈ p.checkedType?, s.reflect t = .error u := by
  match p with
  | Param.mk mark form decorators binding type default =>
    rw [paramCheckOf] at h
    rw [Param.checkedType?]
    generalize Param.isReceiver _ = receiver, Reify.checked? type = type', Param.name? _ = name'
      at h ⊢
    rcases receiver, type', name' with ⟨_ | _, _ | t', _ | name'⟩
    case false.some.some =>
      exact ⟨t', rfl, bind_pure_eq_error.1 h⟩
    all_goals cases h

/-- A function has no plan only if one of its types has no reflection. -/
theorem bodyPlanOf_fails (h : bodyPlanOf s role f = .error u) :
    ∃ t ∈ f.checkedTypes role,
      (s.withGenerics (Func.typeParamNames f) .constant).reflect t = .error u := by
  match f, h with
  | Func.mk mark form typeParams params result body, h =>
    rw [bodyPlanOf] at h
    generalize s.withGenerics _ .constant = inside at h ⊢
    change ∃ t ∈ _ ++ _ ++ _, _
    rcases bind_eq_error.1 h with h | ⟨_, -, h⟩
    · obtain ⟨p, hp, failed⟩ := exists_of_mapM_error h
      obtain ⟨t, bound, failed⟩ := typeParamConst_fails failed
      have mem := mem_filterMap.2 ⟨p, hp, bound⟩
      exact ⟨t, mem_append_left _ (mem_append_left _ mem), failed⟩
    rcases bind_eq_error.1 h with h | ⟨_, -, h⟩
    · obtain ⟨t, ht, failed⟩ := exists_of_mapM_error h
      exact ⟨t, mem_append_left _ (mem_append_right _ ht), bind_pure_eq_error.1 failed⟩
    obtain ⟨p, hp, failed⟩ := exists_of_filterMapM_error (bind_pure_eq_error.1 h)
    obtain ⟨t, typed, failed⟩ := paramCheckOf_fails failed
    exact ⟨t, mem_append_right _ (mem_filterMap.2 ⟨p, hp, typed⟩), failed⟩

end

/-! ### Bodies -/

/-- The statements before and after the first call of `super` in a list.  Without one all of them
stand after it. -/
inductive AroundSuper : List Stmt → List Stmt → List Stmt → List Stmt → Prop where
  | call {before call after} (first : ∀ s ∈ before, Stmt.isSuperCall s = false)
      (super' : Stmt.isSuperCall call = true) :
      AroundSuper (before ++ call :: after) before [call] after
  | plain {ss} (none : ∀ s ∈ ss, Stmt.isSuperCall s = false) : AroundSuper ss [] [] ss

/-- **Statements put in**: the second list is the first with `added` put in at one place, in front,
or in a constructor right behind the first call of `super`. -/
inductive Inserts (role : Role) (added : List Stmt) : List Stmt → List Stmt → Prop where
  | front {ss} (other : role ≠ .constructor) : Inserts role added ss (added ++ ss)
  | behindSuper {ss before call after} (constructor : role = .constructor)
      (split : AroundSuper ss before call after) :
      Inserts role added ss (before ++ call ++ added ++ after)

/-- **How a body is rewritten**, given what is put in.  An expression stays an expression, unless
statements have to stand in front of it. -/
inductive RewritesBody (role : Role) (loc : Loc) (name : String) (consts asserts : List Stmt) :
    Option Expr → FuncBody → FuncBody → Prop where
  | block {ss ss'} (inserts : Inserts role (consts ++ asserts) ss.toList ss') :
      RewritesBody role loc name consts asserts none (FuncBody.block ss) (FuncBody.block (.ofList ss'))
  | checkedBlock {r ss returned ss'} (returns : ChecksReturns name (.many .stmt) ss returned)
      (inserts : Inserts role (consts ++ Synthetic.constStmt loc name r :: asserts) returned.toList
        ss') :
      RewritesBody role loc name consts asserts (some r) (FuncBody.block ss)
        (FuncBody.block (.ofList ss'))
  | expr {e} (bare : consts = [] ∧ asserts = []) :
      RewritesBody role loc name consts asserts none (FuncBody.expr e) (FuncBody.expr e)
  | checkedExpr {r e} (bare : consts = [] ∧ asserts = []) :
      RewritesBody role loc name consts asserts (some r) (FuncBody.expr e)
        (FuncBody.expr (assertion loc r [e]))
  | returned {e} (stmts : ¬(consts = [] ∧ asserts = [])) :
      RewritesBody role loc name consts asserts none (FuncBody.expr e)
        (FuncBody.block (.ofList (consts ++ asserts ++ [Synthetic.returnStmt loc e])))
  | checkedReturned {r e} (stmts : ¬(consts = [] ∧ asserts = [])) :
      RewritesBody role loc name consts asserts (some r) (FuncBody.expr e)
        (FuncBody.block (.ofList (consts ++ Synthetic.constStmt loc name r :: asserts ++
          [Synthetic.returnStmt loc (checkedBy name loc e)])))

/-- **How a function is rewritten**: all but the body stays. -/
inductive Func.Rewritten (s : Scope) (role : Role) : Func → Func → Prop where
  | mk {mark form typeParams params type body body' consts result asserts}
      (opening : (Func.mk mark form typeParams params type (.present body)).Opening
        (s.withGenerics (typeParams.toLists.map TypeParam.name) .constant) role consts result
        asserts)
      (rewrites : RewritesBody role mark.loc (s.options.localName "returnType") consts asserts
        result body body') :
      Func.Rewritten s role (Func.mk mark form typeParams params type (.present body))
        (Func.mk mark form typeParams params type (.present body'))

namespace AroundSuper

variable {ss before call after : List Stmt}

theorem eq (h : AroundSuper ss before call after) : ss = before ++ call ++ after := by
  cases h with
  | call => simp
  | plain => rfl

/-- Every list can be split so. -/
theorem «exists» (ss : List Stmt) : ∃ before call after, AroundSuper ss before call after := by
  induction ss with
  | nil => exact ⟨[], [], [], .plain nofun⟩
  | cons s ss ih =>
    cases super' : Stmt.isSuperCall s with
    | true =>
      have split : AroundSuper ([] ++ s :: ss) [] [s] ss := .call nofun super'
      exact ⟨[], [s], ss, split⟩
    | _ =>
      obtain ⟨before, call, after, split⟩ := ih
      cases split with
      | call first call' =>
        exact ⟨s :: before, _, after, .call (forall_mem_cons.2 ⟨super', first⟩) call'⟩
      | plain none => exact ⟨[], [], _, .plain (forall_mem_cons.2 ⟨super', none⟩)⟩

theorem superIndex?_call {call} (first : ∀ s ∈ before, Stmt.isSuperCall s = false)
    (super' : Stmt.isSuperCall call = true) :
    superIndex? (before ++ call :: after) = some before.length := by
  have none : before.findIdx? Stmt.isSuperCall = none := findIdx?_eq_none_iff.2 first
  rw [superIndex?, findIdx?_append, none, findIdx?_cons, super']
  simp

theorem superIndex?_plain (none : ∀ s ∈ ss, Stmt.isSuperCall s = false) : superIndex? ss = .none :=
  findIdx?_eq_none_iff.2 none

/-- Where the call of `super` ends. -/
theorem position (h : AroundSuper ss before call after) :
    ((superIndex? ss).map (· + 1)).getD 0 = (before ++ call).length := by
  cases h with
  | call first super' =>
    rw [superIndex?_call first super']
    simp
  | plain none =>
    rw [superIndex?_plain none]
    rfl

end AroundSuper

namespace FuncPlan

variable {p : FuncPlan}

theorem prologue_of_none (h : p.result = none) : p.prologue = p.typeConsts ++ p.asserts := by
  rw [prologue, h, Option.map_none, Option.toList_none, append_nil]

variable {r : Expr}

theorem prologue_of_some (h : p.result = some r) :
    p.prologue = p.typeConsts ++ Synthetic.constStmt p.loc p.resultName r :: p.asserts := by
  rw [prologue, h, Option.map_some, Option.toList_some, append_assoc, singleton_append]

/-- The prologue of a plan is put in at one place. -/
theorem inserts_applyStmts (p : FuncPlan) (ss : List Stmt) :
    Inserts p.role p.prologue (ss.map p.onStmt) (p.applyStmts ss) := by
  rw [applyStmts_eq]
  generalize ss.map p.onStmt = ss
  rw [position]
  split
  case h_1 constructor =>
    obtain ⟨before, call, after, split⟩ := AroundSuper.exists ss
    rw [split.position, split.eq, take_left, drop_left]
    rw [← split.eq]
    exact .behindSuper constructor split
  case h_2 other => exact .front other

theorem keepsExpression_iff (p : FuncPlan) :
    p.keepsExpression = true ↔ p.typeConsts = [] ∧ p.asserts = [] := by
  rw [keepsExpression, Bool.and_eq_true, List.isEmpty_iff, List.isEmpty_iff]

theorem checksReturns_onStmt (h : p.result = some r) (ss : Many .stmt) :
    ChecksReturns p.resultName (.many .stmt) ss (.ofList (ss.toList.map p.onStmt)) := by
  rw [onStmt_of_some h, ← mapReturns_ofList, Tree.ofList_toList]
  exact ss.checksReturns rfl

/-- Applying a plan to a body rewrites it with what the plan holds. -/
theorem rewritesBody (p : FuncPlan) (b : FuncBody) :
    RewritesBody p.role p.loc p.resultName p.typeConsts p.asserts p.result b (p.applyBody b) := by
  match b with
  | FuncBody.block ss =>
    have inserts := p.inserts_applyStmts ss.toList
    cases h : p.result with
    | none =>
      rw [prologue_of_none h, onStmt_of_none h, map_id] at inserts
      exact .block inserts
    | some r =>
      rw [prologue_of_some h, ← Tree.toList_ofList (ss.toList.map _)] at inserts
      exact .checkedBlock (checksReturns_onStmt h ss) inserts
  | FuncBody.expr e =>
    change RewritesBody _ _ _ _ _ _ _ (if _ then _ else _)
    cases h : p.result with
    | none =>
      rw [prologue_of_none h, checkedValue, h]
      split
      case isTrue keeps => exact .expr (p.keepsExpression_iff.1 keeps)
      case isFalse keeps => exact .returned (mt p.keepsExpression_iff.2 keeps)
    | some r =>
      rw [prologue_of_some h, checkedValue, h]
      split
      case isTrue keeps => exact .checkedExpr (p.keepsExpression_iff.1 keeps)
      case isFalse keeps => exact .checkedReturned (mt p.keepsExpression_iff.2 keeps)

end FuncPlan

/-- **A function is rewritten as a whole or not at all.**  Everything but the body stays.  A body
gets, in one run, the constants of the type parameters, that of the result and the checks of the
parameters, and each value that the function itself returns is checked.  Where a type has no
reflection nothing changes. -/
theorem function_rewritten (s : Scope) (role : Role) (f : Func) (log : List Log.Line)
    (body : f.hasBody = true) :
    (∀ u, ((planFunc s role f).run log).1 = .error u →
      applyFuncPlan (.error u) f = f ∧ ∃ t ∈ f.checkedTypes role,
        (s.withGenerics (Func.typeParamNames f) .constant).reflect t = .error u) ∧
    ∀ plan, ((planFunc s role f).run log).1 = .ok plan →
      f.Rewritten s role (applyFuncPlan (.ok plan) f) := by
  rw [Attempt.answers_planFunc s role f log]
  match f, body with
  | Func.mk _ _ _ _ _ .absent, body => cases body
  | Func.mk mark form typeParams params type (.present b), _ =>
    refine ⟨fun u failed => ⟨rfl, bodyPlanOf_fails (map_eq_error.1 failed)⟩, fun answer planned => ?_⟩
    obtain ⟨plan, worked, rfl⟩ := map_eq_ok.1 planned
    obtain ⟨hrole, hloc, hname⟩ := bodyPlanOf_fields worked
    have rewrites := plan.rewritesBody b
    rw [hrole, hloc, hname] at rewrites
    exact .mk (bodyPlanOf_opening worked) rewrites

/-- `function <T>(x: T): number { if (x) { return y; } return f(function () { return z; }); }` -/
def branchingFunction : Func :=
  .mk { id := 1 } ⟨false, false, false⟩
    (.present (.ofList [TypeParam.mk { id := 2 } "T" .absent .absent]))
    (.ofList [Param.mk { id := 3 } ⟨false, false, none, false⟩ (.ofList [])
      (Binding.mk { id := 4 } (Pat.ident ⟨{ id := 5 }, { id := 6 }⟩ "x"))
      (.present (TypeExpr.reference ⟨{ id := 7 }, { id := 8 }⟩ (.ident "T") .absent)) .absent])
    (.present (TypeExpr.keyword ⟨{ id := 9 }, { id := 10 }⟩ .number))
    (.present (FuncBody.block (.ofList [
      Stmt.ifElse ⟨{ id := 11 }, { id := 12 }⟩ (Synthetic.ident {} "x")
        (Stmt.block { id := 13 } (Block.mk { id := 14 } (.ofList [
          Stmt.returning ⟨{ id := 15 }, { id := 16 }⟩
            (.present (Synthetic.ident {} "y"))]))) .absent,
      Stmt.returning ⟨{ id := 17 }, { id := 18 }⟩
        (.present (Synthetic.call {} (Synthetic.ident {} "f")
          [Synthetic.function {} [Synthetic.returnStmt {} (Synthetic.ident {} "z")]]))])))

theorem function_rewritten_branches :
    branchingFunction.hasBody = true ∧
      ∃ plan, ((planFunc {} .function branchingFunction).run []).1 = .ok plan ∧
        branchingFunction.Rewritten {} .function (applyFuncPlan (.ok plan) branchingFunction) :=
  ⟨rfl, _, rfl, (function_rewritten {} .function branchingFunction [] rfl).2 _ rfl⟩

end Reify
