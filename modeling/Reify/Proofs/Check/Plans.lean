import Reify.Proofs.Check.Statement
import Reify.Proofs.Reflection.Locals
import Reify.Proofs.Reflection.Synthetic

/-!
# What is worked out

What the plan of a function puts into its body (`Func.Opening`), and what is put into the constructor
of a class (`ClassDecl.KeepsParams`, `ClassDecl.ChecksImplemented`), each with the types that are
reflected for it.  Whatever else is said of plans follows from this.
-/

namespace Reify

open List

theorem checked?_eq_some {type t} (h : checked? type = some t) : type = .present t := by
  match type, h with
  | .present u, h =>
    obtain ⟨same, -⟩ := Option.filter_eq_some_iff.1 h
    rw [Option.some.inj same]

theorem Scope.options_withGenerics (s : Scope) (names : List String) (access : ParamAccess) :
    (s.withGenerics names access).options = s.options := by
  unfold Scope.withGenerics
  split <;> rfl

theorem Scope.libraryCall_withGenerics (s : Scope) (names : List String) (access : ParamAccess) :
    (s.withGenerics names access).libraryCall = s.libraryCall := by
  funext loc name args
  rw [libraryCall, libraryCall, options_withGenerics]

/-! ### Functions -/

/-- The name and the type of a parameter that is checked: one that is an identifier, has a type
other than `any` and does not stand for the receiver. -/
def Param.checked? : Param → Option (String × TypeExpr)
  | p@(Param.mk _ _ _ _ type _) =>
    if p.isReceiver then none else p.name?.bind fun name => (Reify.checked? type).map (name, ·)

/-- `lib.param("x", reflection).assert(x);` -/
def Param.check (s : Scope) (name : String) (reflection : Expr) : Param → Stmt
  | Param.mk mark form _ _ _ _ =>
    Synthetic.exprStmt mark.loc (assertion mark.loc
      (Reflection.parameter s mark.loc name reflection form.rest form.optional)
      [Synthetic.ident mark.loc name])

theorem paramCheckOf_of_checked {s p name t check} (typed : p.checked? = some (name, t))
    (h : paramCheckOf s p = .ok check) :
    ∃ e, s.reflect t = .ok e ∧ check = some (p.check s name e) := by
  match p with
  | Param.mk mark form decorators binding type default =>
    rw [paramCheckOf] at h
    rw [Param.checked?] at typed
    generalize Param.isReceiver _ = receiver, Reify.checked? type = type', Param.name? _ = name'
      at typed h
    rcases receiver, type', name' with ⟨_ | _, _ | t', _ | name'⟩ <;> cases typed
    obtain ⟨e, he, h⟩ := bind_eq_ok.1 h
    exact ⟨e, he, (pure_eq_ok.1 h).symm⟩

/-- The parameters of a function. -/
def Func.params : Func → List Param
  | Func.mk _ _ _ params _ _ => params.toList

/-- The type parameters of a function. -/
def Func.typeParams : Func → List TypeParam
  | Func.mk _ _ typeParams _ _ _ => typeParams.toLists

/-- `lib.typeParameter("T")`, with the reflection of the bound behind the name if there is a bound. -/
def TypeParam.IsReflection (s : Scope) (loc : Loc) (p : TypeParam) (e : Expr) : Prop :=
  ∃ bounds, Forall₂ (fun t b => s.reflect t = .ok b) p.bound?.toList bounds ∧
    e = s.libraryCall loc "typeParameter" (Synthetic.str loc p.name :: bounds)

/-- `const T = lib.typeParameter("T");` -/
def TypeParam.IsConst (s : Scope) (p : TypeParam) (stmt : Stmt) : Prop :=
  ∃ e, p.IsReflection s p.mark.loc e ∧ stmt = Synthetic.constStmt p.mark.loc p.name e

/-- The values that a function returns are checked against the type `t`. -/
def Func.ReturnsChecked (role : Role) (t : TypeExpr) : Func → Prop
  | Func.mk _ form _ _ result _ =>
    form.async = false ∧ form.generator = false ∧ role ≠ .constructor ∧ role ≠ .setter ∧
      result = .present t ∧ TypeExpr.isAny t = false

/-- `lib.param("x", reflection).assert(x);` for the type of the parameter. -/
def Param.IsCheck (s : Scope) (p : Param) (stmt : Stmt) : Prop :=
  ∃ name t e, p.checked? = some (name, t) ∧ s.reflect t = .ok e ∧ stmt = p.check s name e

/-- **What is put into a function**, in three parts: a constant for each type parameter, the
reflection that returned values are checked against, and a check for each parameter that has one.
The scope is the one inside the function. -/
structure Func.Opening (s : Scope) (role : Role) (f : Func) (consts : List Stmt)
    (result : Option Expr) (asserts : List Stmt) : Prop where
  consts : Forall₂ (TypeParam.IsConst s) f.typeParams consts
  checked : ∀ t, f.ReturnsChecked role t →
    ∃ e, s.reflect t = .ok e ∧ result = some (s.libraryCall f.mark.loc "return" [e])
  unchecked : (∀ t, ¬f.ReturnsChecked role t) → result = none
  asserts : Forall₂ (Param.IsCheck s) (f.params.filter (·.checked?.isSome)) asserts

theorem Func.Opening.returned {s role f consts result asserts}
    (h : Func.Opening s role f consts result asserts) {r} (hr : r ∈ result) :
    ∃ t e, f.ReturnsChecked role t ∧ s.reflect t = .ok e ∧
      r = s.libraryCall f.mark.loc "return" [e] := by
  by_cases typed : ∃ t, f.ReturnsChecked role t
  · obtain ⟨t, returns⟩ := typed
    obtain ⟨e, reflected, rfl⟩ := h.checked t returns
    exact ⟨t, e, returns, reflected, (Option.some.inj hr).symm⟩
  · rw [h.unchecked (not_exists.1 typed)] at hr
    cases hr

theorem Func.Opening.check {s role f consts result asserts}
    (h : Func.Opening s role f consts result asserts) {p} (hp : p ∈ f.params) {name t}
    (typed : p.checked? = some (name, t)) : ∃ e, s.reflect t = .ok e ∧ p.check s name e ∈ asserts := by
  have checked : p ∈ f.params.filter (·.checked?.isSome) := mem_filter.2 ⟨hp, by rw [typed]; rfl⟩
  obtain ⟨_, mem, _, _, e, same, reflected, rfl⟩ := exists_of_forall₂ h.asserts.flip checked
  rw [typed] at same
  cases same
  exact ⟨e, reflected, mem⟩

section

variable {s : Scope} {role : Role} {mark : Mark} {p : TypeParam} {f : Func} {plan : FuncPlan}

theorem typeParameterCall_isReflection {loc e name bound default}
    (hp : p = TypeParam.mk mark name bound default)
    (h : typeParameterCall s loc name bound = .ok e) : p.IsReflection s loc e := by
  subst hp
  match bound, h with
  | .absent, h => exact ⟨[], .nil, (pure_eq_ok.1 h).symm⟩
  | .present t, h =>
    obtain ⟨b, reflected, rfl⟩ := bind_pure_eq_ok.1 h
    exact ⟨[b], .cons reflected .nil, rfl⟩

theorem typeParamConst_isConst {stmt} (h : typeParamConst s p = .ok stmt) : p.IsConst s stmt := by
  match p, h with
  | TypeParam.mk mark name bound default, h =>
    obtain ⟨call, made, h⟩ := bind_eq_ok.1 h
    exact ⟨call, typeParameterCall_isReflection rfl made, (pure_eq_ok.1 h).symm⟩

theorem resultCheck?_eq_some {form typeParams params result body t} :
    resultCheck? role form result = some t ↔
      (Func.mk mark form typeParams params result body).ReturnsChecked role t := by
  change _ ↔ _ ∧ _ ∧ _ ∧ _ ∧ _ ∧ _
  rw [resultCheck?]
  split
  case isTrue skipped =>
    simp only [reduceCtorEq, false_iff]
    rintro ⟨async, generator, constructor, setter, -, -⟩
    simp [async, generator, constructor, setter] at skipped
  case isFalse plain =>
    simp only [Bool.or_eq_true, decide_eq_true_eq, not_or, Bool.not_eq_true] at plain
    obtain ⟨⟨⟨async, generator⟩, constructor⟩, setter⟩ := plain
    constructor
    · intro h
      obtain rfl := checked?_eq_some h
      obtain ⟨-, typed⟩ := Option.filter_eq_some_iff.1 h
      exact ⟨async, generator, constructor, setter, rfl, by simpa using typed⟩
    · rintro ⟨-, -, -, -, rfl, typed⟩
      exact Option.filter_eq_some_iff.2 ⟨rfl, by simp [typed]⟩

theorem paramCheckOf_of_unchecked {p check} (h : p.checked? = none)
    (made : paramCheckOf s p = .ok check) : check = none := by
  match p with
  | Param.mk mark form decorators binding type default =>
    rw [paramCheckOf] at made
    rw [Param.checked?] at h
    generalize Param.isReceiver _ = receiver, Reify.checked? type = type', Param.name? _ = name'
      at h made
    rcases receiver, type', name' with ⟨_ | _, _ | t', _ | name'⟩ <;> cases h <;>
      exact (pure_eq_ok.1 made).symm

theorem paramChecks_areChecks {params : List Param} {checks}
    (h : params.mapM (paramCheckOf s) = .ok checks) :
    Forall₂ (Param.IsCheck s) (params.filter (·.checked?.isSome)) (checks.filterMap id) := by
  rw [mapM_eq_ok] at h
  induction h with
  | nil => exact .nil
  | @cons p check params checks made _ ih =>
    cases typed : p.checked? with
    | none =>
      obtain rfl := paramCheckOf_of_unchecked typed made
      simpa [typed] using ih
    | _ =>
      obtain ⟨e, reflected, rfl⟩ := paramCheckOf_of_checked typed made
      simpa [typed] using ⟨⟨_, _, e, typed, reflected, rfl⟩, ih⟩

/-- The plan of a function holds the parts of its opening. -/
theorem bodyPlanOf_opening (h : bodyPlanOf s role f = .ok plan) :
    f.Opening (s.withGenerics (Func.typeParamNames f) .constant) role plan.typeConsts plan.result
      plan.asserts := by
  match f, h with
  | Func.mk mark form typeParams params result body, h =>
    rw [bodyPlanOf] at h
    generalize s.withGenerics _ .constant = inside at h ⊢
    obtain ⟨typeConsts, consts, h⟩ := bind_eq_ok.1 h
    obtain ⟨results, reflected, h⟩ := bind_eq_ok.1 h
    obtain ⟨asserts, checks, rfl⟩ := bind_pure_eq_ok.1 h
    obtain ⟨checks, made, rfl⟩ := filterMapM_eq_ok.1 checks
    refine ⟨(mapM_eq_ok.1 consts).imp fun _ _ => typeParamConst_isConst, ?_, ?_,
      paramChecks_areChecks made⟩
    · intro t returns
      rw [resultCheck?_eq_some.2 returns, Option.toList_some, mapM_eq_ok] at reflected
      obtain ⟨call, _, made, none, rfl⟩ := forall₂_cons_left_iff.1 reflected
      obtain ⟨e, known, rfl⟩ := bind_pure_eq_ok.1 made
      exact ⟨e, known, rfl⟩
    · intro returns
      cases hr : resultCheck? role form result with
      | some t => exact (returns t (resultCheck?_eq_some.1 hr)).elim
      | none =>
        rw [hr] at reflected
        obtain rfl := pure_eq_ok.1 reflected
        rfl

/-- The rest of the plan says what it is for. -/
theorem bodyPlanOf_fields (h : bodyPlanOf s role f = .ok plan) :
    plan.role = role ∧ plan.loc = f.mark.loc ∧
      plan.resultName = s.options.localName "returnType" := by
  match f, h with
  | Func.mk _ _ _ _ _ _, h =>
    obtain ⟨_, -, h⟩ := bind_eq_ok.1 h
    obtain ⟨_, -, h⟩ := bind_eq_ok.1 h
    obtain ⟨_, -, rfl⟩ := bind_pure_eq_ok.1 h
    refine ⟨rfl, rfl, ?_⟩
    change Options.localName (s.withGenerics _ _).options _ = _
    rw [s.options_withGenerics]

end

/-! ### Constructors -/

namespace ClassDecl

/-- The names of the type parameters of a class. -/
def typeParamNames : ClassDecl → List String
  | ClassDecl.mk _ _ _ _ typeParams _ _ _ _ => typeParams.toLists.map TypeParam.name

/-- The type arguments for the class that a class extends. -/
def baseArgs : ClassDecl → List TypeExpr
  | ClassDecl.mk _ _ _ _ _ _ baseArgs _ _ => baseArgs.toLists

/-- The type references among what a class implements. -/
def references : ClassDecl → List TypeExpr
  | ClassDecl.mk _ _ _ _ _ _ _ implemented _ =>
    implemented.toList.filter implementsChecks.isReference

end ClassDecl

/-- `this[C[lib.TypeParametersSymbol]] = <ns>typeParameters;` -/
def storeStmt (s : Scope) (loc : Loc) (className : String) : Stmt :=
  Synthetic.exprStmt loc (Synthetic.assign loc
    (Synthetic.index loc (Synthetic.this loc)
      (Synthetic.index loc (Synthetic.ident loc className) (parametersSymbol s loc)))
    (Synthetic.ident loc (s.options.localName "typeParameters")))

/-- `lib.bindTypeParameters(this, args…);` -/
def bindStmt (s : Scope) (loc : Loc) (args : List Expr) : Stmt :=
  Synthetic.exprStmt loc (s.libraryCall loc "bindTypeParameters" (Synthetic.this loc :: args))

/-- **The statements that keep the type parameters of a class**, before the call of `super` and
after it: there are none unless the class has a name and type parameters. -/
inductive ClassDecl.KeepsParams (s : Scope) (decl : ClassDecl) : List Stmt → List Stmt → Prop where
  | plain (none : decl.generic? = none) : ClassDecl.KeepsParams s decl [] []
  | generic {name entries args} (generic : decl.generic? = some name)
      (params : Forall₂ (fun p entry => entry.1 = p.name ∧
        p.IsReflection (s.withGenerics decl.typeParamNames .erased) decl.mark.loc entry.2)
        decl.typeParams entries)
      (base : Forall₂ (fun t e =>
        (s.withGenerics decl.typeParamNames .ofConstructor).reflect t = .ok e) decl.baseArgs args) :
      ClassDecl.KeepsParams s decl
        [Synthetic.constStmt decl.mark.loc (s.options.localName "typeParameters")
          (Synthetic.object decl.mark.loc entries)]
        (storeStmt s decl.mark.loc name ::
          if args.isEmpty then [] else [bindStmt s decl.mark.loc args])

/-- `T.assert(this);` for each type reference that the class implements, in order. -/
def ClassDecl.ChecksImplemented (s : Scope) (decl : ClassDecl) (checks : List Stmt) : Prop :=
  Forall₂ (fun t stmt => ∃ e,
    (s.withGenerics decl.typeParamNames (memberAccess decl.name? false true)).reflect t = .ok e ∧
      stmt = Synthetic.exprStmt decl.mark.loc
        (assertion decl.mark.loc e [Synthetic.this decl.mark.loc])) decl.references checks

section

variable {s : Scope} {decl : ClassDecl} {reflection : Expr} {finish : ClassFinish} {mark : Mark}
  {form : ClassForm} {decorators : Many .decorator} {name : Maybe .name}
  {typeParams : Maybe (.many .typeParam)} {base : Maybe .expr} {baseArgs : Maybe (.many .type)}
  {implemented : Many .type} {members : Many .classMember}

theorem paramStmts_keeps {className ps}
    (hd : decl = ClassDecl.mk mark form decorators name typeParams base baseArgs implemented members)
    (generic : decl.generic? = some className)
    (h : paramStmts s mark.loc className typeParams.toLists baseArgs.toLists = .ok ps) :
    decl.KeepsParams s [ps.before] ps.after := by
  subst hd
  obtain ⟨entries, params, h⟩ := bind_eq_ok.1 h
  obtain ⟨args, bound, rfl⟩ := bind_pure_eq_ok.1 h
  have reflected := mapM_eq_ok.1 bound
  have empty : baseArgs.toLists.isEmpty = args.isEmpty := by
    rw [Bool.eq_iff_iff, isEmpty_iff_length_eq_zero, isEmpty_iff_length_eq_zero,
      reflected.length_eq]
  dsimp only
  rw [empty]
  refine .generic generic ((mapM_eq_ok.1 params).imp fun p entry made => ?_) reflected
  match p, made with
  | TypeParam.mk _ _ _ _, made =>
    obtain ⟨call, reflected, rfl⟩ := bind_pure_eq_ok.1 made
    exact ⟨rfl, typeParameterCall_isReflection rfl reflected⟩

/-- What is worked out for the constructor. -/
theorem planFinish_constructor (h : planFinish s reflection decl = .ok finish) :
    decl.KeepsParams s (finish.constructor.params.toList.map ParamStmts.before)
        (finish.constructor.params.toList.flatMap ParamStmts.after) ∧
      decl.ChecksImplemented s finish.constructor.implemented ∧
      finish.constructor.loc = decl.mark.loc ∧
      finish.symbol = decl.generic?.map (symbolMember s decl.mark.loc) := by
  match decl, h with
  | ClassDecl.mk mark form decorators name typeParams base baseArgs implemented members, h =>
    obtain ⟨checks, params, implements, kept, rfl⟩ := planFinish_ok rfl h
    refine ⟨?_, (mapM_eq_ok.1 implements).imp fun t stmt made => ?_, rfl, rfl⟩
    · cases generic : ClassDecl.generic? _ with
      | none =>
        rw [generic] at kept
        obtain rfl := pure_eq_ok.1 kept
        exact .plain generic
      | some className =>
        rw [generic, Option.toList_some, mapM_eq_ok] at kept
        obtain ⟨ps, _, made, none, rfl⟩ := forall₂_cons_left_iff.1 kept
        simpa using paramStmts_keeps rfl generic made
    · obtain ⟨e, reflected, made⟩ := bind_eq_ok.1 made
      exact ⟨e, reflected, (pure_eq_ok.1 made).symm⟩

end

end Reify
