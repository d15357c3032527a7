import Reify.Proofs.Check.Growth
import Reify.Proofs.Reflection.Renumber

/-!
# Renumbering and checks

What is worked out for a renumbered statement is what is worked out for the statement, and adding
it commutes with the renumbering.  A plan is made of trees of the program's own, whose number 0 a
renumbering keeps.
-/

namespace Reify

open List Tree Synthetic

variable {f : Nat → Nat}

variable {reflection : Expr}

theorem assertion_renumber (hf : f 0 = 0) (made : reflection.Synthetic) (loc : Loc) (e : Expr) :
    assertion loc reflection [e.renumber f] = (assertion loc reflection [e]).renumber f := by
  have callee : (member loc reflection "assert").renumber f =
      member loc reflection "assert" := (synthetic_member.2 made).renumber hf
  have arg : (arg e).renumber f = arg (e.renumber f) := by
    change Arg.mk ((Mark.synthetic _).renumber f) false (e.renumber f) = _
    rw [Mark.renumber_synthetic hf, arg, Expr.loc_renumber]
  change _ = (Expr.call (.synthetic loc) false (member loc reflection "assert")
    (.ofList [Synthetic.arg e])).renumber f
  simp only [renumber_node, Children.renumber_cons, Children.renumber_nil,
    renumber_ofList, map_cons, map_nil, Marks.renumber_synthetic hf, callee, arg]
  rfl

theorem ConstructorPlan.isTarget_renumber (m : ClassMember) :
    ConstructorPlan.isTarget (m.renumber f) = ConstructorPlan.isTarget m := by
  rw [isTarget, isTarget, ClassMember.isConstructor_renumber, ClassMember.isImplementation_renumber]

section

variable (hf : f 0 = 0)

include hf

theorem checkedInit_renumber (made : reflection.Synthetic) (e : Expr) :
    checkedInit reflection (e.renumber f) = (checkedInit reflection e).renumber f := by
  rw [checkedInit, checkedInit, Expr.loc_renumber, assertion_renumber hf made]

end

/-! ### What is worked out -/

theorem checked?_renumber (t : Maybe .type) :
    checked? (t.renumber f) = (checked? t).map (Tree.renumber f) := by
  rw [checked?, checked?, toOption_renumber]
  cases t.toOption with
  | none => rfl
  | some t =>
    simp only [Option.map_some, Option.filter_some, TypeExpr.isAny_renumber]
    split <;> rfl

theorem resultCheck?_renumber (role : Role) (form : FuncForm) (result : Maybe .type) :
    resultCheck? role form (result.renumber f) =
      (resultCheck? role form result).map (Tree.renumber f) := by
  rw [resultCheck?, resultCheck?, checked?_renumber]
  split <;> rfl

theorem Func.typeParamNames_renumber : (g : Func) →
    Func.typeParamNames (g.renumber f) = Func.typeParamNames g
  | Func.mk _ _ typeParams _ _ _ => by
    change (typeParams.renumber f).toLists.map TypeParam.name = _
    rw [toLists_renumber, map_map]
    exact map_congr_left fun p _ => TypeParam.name_renumber p

theorem mapM_renumber {α : Type} {c} {act : Tree c → Except Unsupported α}
    (same : ∀ t, act (t.renumber f) = act t) (ts : List (Tree c)) :
    (ts.map (Tree.renumber f)).mapM act = ts.mapM act := by
  rw [mapM_map]
  exact congrArg (List.mapM · ts) (funext same)

theorem implementsChecks.isReference_renumber : (t : TypeExpr) →
    implementsChecks.isReference (t.renumber f) = implementsChecks.isReference t
  | .node (c := .type) form (.two site) ts => by
    cases form with
    | reference name =>
      match ts with
      | .cons _ .nil => rfl
    | _ => rfl

section

variable (hf : f 0 = 0) (s : Scope)

include hf

theorem typeParameterCall_renumber (loc : Loc) (name : String) (bound : Maybe .type) :
    typeParameterCall s loc name (bound.renumber f) = typeParameterCall s loc name bound := by
  rw [typeParameterCall, typeParameterCall, toOption_renumber]
  cases bound.toOption with
  | none => rfl
  | some t => simp only [Option.map_some, s.reflect_renumber hf]

theorem typeParamConst_renumber : (p : TypeParam) →
    typeParamConst s (p.renumber f) = typeParamConst s p
  | TypeParam.mk mark name bound _ => by
    change (do
      let call ← typeParameterCall s mark.loc name (bound.renumber f)
      return constStmt mark.loc name call) = _
    rw [typeParameterCall_renumber hf]
    rfl

theorem paramCheck_renumber (index : Nat) : (p : Param) →
    paramCheck s (p.renumber f, index) = paramCheck s (p, index)
  | Param.mk mark form decorators binding type default => by
    let p := Param.mk mark form decorators binding type default
    have receiver : Param.isReceiver (p.renumber f) = Param.isReceiver p :=
      Param.isReceiver_renumber p
    have name : Param.name? (p.renumber f) = Param.name? p := Param.name?_renumber p
    change paramCheck s (Param.mk (mark.renumber f) form (decorators.renumber f)
      (binding.renumber f) (type.renumber f) (default.renumber f), index) = _
    rw [paramCheck, paramCheck]
    change Param.isReceiver (Param.mk _ _ _ _ _ _) = _ at receiver
    change Param.name? (Param.mk _ _ _ _ _ _) = _ at name
    rw [receiver, name, checked?_renumber]
    generalize Param.isReceiver p = isReceiver, checked? type = t, Param.name? p = name
    rcases isReceiver, t, name with ⟨_ | _, _ | t, _ | name⟩
    case false.some.some => simp only [Option.map_some, s.reflect_renumber hf, Mark.renumber_loc]
    all_goals rfl

theorem paramChecks_renumber (params : List Param) (start : Nat) :
    ((params.map (Tree.renumber f)).zipIdx start).filterMapM (paramCheck s) =
      (params.zipIdx start).filterMapM (paramCheck s) := by
  induction params generalizing start with
  | nil => rfl
  | cons p params ih =>
    rw [map_cons, zipIdx_cons, zipIdx_cons, filterMapM_cons,
      filterMapM_cons, paramCheck_renumber hf, ih]

/-- The checks of a renumbered function are those of the function. -/
theorem planFunc_renumber (role : Role) : (g : Func) →
    planFunc s role (g.renumber f) = planFunc s role g
  | Func.mk mark form typeParams params result body => by
    let g := Func.mk mark form typeParams params result body
    have names : Func.typeParamNames (g.renumber f) = Func.typeParamNames g :=
      Func.typeParamNames_renumber g
    have notes (plan : FuncPlan) (b : FuncBody) : plan.notes (b.renumber f) = plan.notes b := by
      match b with
      | FuncBody.block _ | FuncBody.expr _ => rfl
    change planFunc s role (Func.mk (mark.renumber f) form (typeParams.renumber f)
      (params.renumber f) (result.renumber f) (body.renumber f)) = _
    rw [planFunc, planFunc]
    change Func.typeParamNames (Func.mk _ _ _ _ _ _) = _ at names
    rw [names, toOption_renumber, toLists_renumber, resultCheck?_renumber,
      toList_renumber]
    cases body.toOption with
    | none => rfl
    | some b =>
      dsimp only [Option.map_some]
      generalize s.withGenerics (Func.typeParamNames g) .constant = s
      rw [mapM_renumber (typeParamConst_renumber hf s), paramChecks_renumber hf]
      cases resultCheck? role form result with
      | none => simp only [Option.map_none, notes, Mark.renumber_loc]
      | some t => simp only [Option.map_some, s.reflect_renumber hf, notes, Mark.renumber_loc]

theorem planInits_renumber (ds : List Declarator) :
    planInits s (ds.map (Tree.renumber f)) = planInits s ds := by
  induction ds with
  | nil => rfl
  | cons d ds ih =>
    match d with
    | Declarator.mk mark binding type init =>
      change planInits s (Declarator.mk (mark.renumber f) (binding.renumber f) (type.renumber f)
        (init.renumber f) :: ds.map (Tree.renumber f)) = _
      rw [planInits, planInits, checked?_renumber, toOption_renumber, ih]
      rcases checked? type, init.toOption with ⟨_ | t, _ | init⟩
      case some.some =>
        simp only [Option.map_some, s.reflect_renumber hf]
        cases reflected : s.reflect t with
        | error u => rfl
        | ok r =>
          simp only [checkedInit_renumber hf (Scope.reflect_synthetic reflected),
            Expr.text_renumber]
      all_goals rfl

theorem implementsChecks_renumber (loc : Loc) (className : Option String) (names : List String)
    (ts : List TypeExpr) :
    implementsChecks s loc className names (ts.map (Tree.renumber f)) =
      implementsChecks s loc className names ts := by
  have kept : implementsChecks.isReference ∘ Tree.renumber f = implementsChecks.isReference :=
    funext implementsChecks.isReference_renumber
  rw [implementsChecks, implementsChecks, filter_map, kept, mapM_renumber fun t => ?_]
  rw [Scope.reflect_renumber hf]

theorem paramStmts_renumber (loc : Loc) (className : String) (typeParams : List TypeParam)
    (baseArgs : List TypeExpr) :
    paramStmts s loc className (typeParams.map (Tree.renumber f)) (baseArgs.map (Tree.renumber f)) =
      paramStmts s loc className typeParams baseArgs := by
  rw [paramStmts, paramStmts, TypeParam.names_renumber, isEmpty_map,
    mapM_renumber (Scope.reflect_renumber hf _), mapM_renumber fun p => ?_]
  match p with
  | TypeParam.mk mark name bound default =>
    change (do
      let call ← typeParameterCall _ loc name (bound.renumber f)
      return (name, call)) = _
    rw [typeParameterCall_renumber hf]
    rfl

theorem planFinish_renumber (reflection : Expr) : (d : ClassDecl) →
    planFinish s reflection (d.renumber f) = planFinish s reflection d
  | ClassDecl.mk mark form decorators name typeParams base baseArgs implemented members => by
    let d := ClassDecl.mk mark form decorators name typeParams base baseArgs implemented members
    have className : ClassDecl.name? (d.renumber f) = ClassDecl.name? d :=
      ClassDecl.name?_renumber d
    change planFinish s reflection (ClassDecl.mk (mark.renumber f) form (decorators.renumber f)
      (name.renumber f) (typeParams.renumber f) (base.renumber f) (baseArgs.renumber f)
      (implemented.renumber f) (members.renumber f)) = _
    rw [planFinish, planFinish]
    change ClassDecl.name? (ClassDecl.mk _ _ _ _ _ _ _ _ _) = _ at className
    rw [className, toLists_renumber, toList_renumber, TypeParam.names_renumber,
      implementsChecks_renumber hf, toLists_renumber]
    simp only [paramStmts_renumber hf, Mark.renumber_loc]
    rfl

end

end Reify
