import Reify.Proofs.Check.Contents
import Reify.Proofs.Reflection.Reference

/-!
# What is reflected for a statement

Working out what is added to a statement or a function reflects the types that are listed here
(`Stmt.requests`, `Func.requests`).  If all goes well every one of them is answered, and the answer
occurs in what is added (`Planned.answers`).
-/

namespace Reify

open List

/-! ### Answers -/

theorem Scope.withGenerics_eq (s : Scope) (names : List String) (access : ParamAccess) :
    s.withGenerics names access = s.reaching (Generics.under names access s.generics) := by
  rw [withGenerics, reaching, Generics.under]
  split <;> rfl

/-- The types of some parts, all with the same type parameters in reach. -/
def Reflection.Parts.requests (gs : List Generics) (parts : Reflection.Parts) : List Request :=
  parts.map fun p => ⟨gs, p.1, p.2⟩

/-- Types outside of any factory. -/
def Request.plain (gs : List Generics) (types : List TypeExpr) : List Request :=
  types.map fun t => ⟨gs, [], t⟩

/-- Every request is answered by one of the expressions. -/
def Answered (s : Scope) (qs : List Request) (exprs : List Expr) : Prop :=
  ∀ q ∈ qs, ∃ e ∈ exprs, q.Reflects s e

variable {gs : List Generics} {t : TypeExpr} {name : String} {typeParams : List TypeParam}
  {decl : ClassDecl} {merged : List TypeMember}

namespace Answered

variable {s : Scope} {qs qs' : List Request} {exprs exprs' : List Expr}

theorem mono (h : Answered s qs exprs) (sub : ∀ e ∈ exprs, e ∈ exprs') : Answered s qs exprs' := by
  intro q hq
  obtain ⟨e, he, answer⟩ := h q hq
  exact ⟨e, sub e he, answer⟩

theorem append (h : Answered s qs exprs) (h' : Answered s qs' exprs) :
    Answered s (qs ++ qs') exprs :=
  forall_mem_append.2 ⟨h, h'⟩

theorem nil : Answered s [] exprs := nofun

theorem of_emits {parts} (h : Reflection.Emits (s.reaching gs).reflectUnder parts exprs) :
    Answered s (parts.requests gs) exprs := by
  intro q hq
  obtain ⟨⟨bound, t⟩, hp, rfl⟩ := mem_map.1 hq
  obtain ⟨e, he, reflected⟩ := h _ hp
  exact ⟨e, he, t.height, reflected⟩

theorem of_reflect {types} (h : ∀ t ∈ types, ∃ e ∈ exprs, (s.reaching gs).reflect t = .ok e) :
    Answered s (Request.plain gs types) exprs := by
  intro q hq
  obtain ⟨t, ht, rfl⟩ := mem_map.1 hq
  obtain ⟨e, he, reflected⟩ := h t ht
  exact ⟨e, he, t.height, reflected⟩

end Answered

/-! ### Functions -/

/-- The type that a parameter is checked against. -/
def Param.checkedType? : Param → Option TypeExpr
  | p@(Param.mk _ _ _ _ type _) =>
    if Param.isReceiver p || (Param.name? p).isNone then none else Reify.checked? type

/-- The types that are reflected for a function: the bounds of its type parameters, the result type
and the types of its parameters.  A function without a body needs none of them. -/
def Func.requests (gs : List Generics) (role : Role) : Func → List Request
  | f@(Func.mk _ form typeParams params result body) =>
    if body.toOption.isNone then []
    else Request.plain (Generics.under (Func.typeParamNames f) .constant gs)
      (typeParams.toLists.filterMap TypeParam.bound? ++ (resultCheck? role form result).toList ++
        params.toList.filterMap Param.checkedType?)

/-- The expressions that a plan adds to a function. -/
def FuncPlan.exprs (p : FuncPlan) : List Expr :=
  p.typeConsts.flatMap Tree.exprs ++ p.result.toList.flatMap Tree.exprs ++
    p.asserts.flatMap Tree.exprs

section

variable {s : Scope}

theorem TypeParam.IsReflection.occurs {p loc call} (h : TypeParam.IsReflection s loc p call)
    (ht : p.bound? = some t) : ∃ e ∈ call.exprs, s.reflect t = .ok e := by
  obtain ⟨bounds, reflected, rfl⟩ := h
  obtain ⟨e, he, reflected⟩ := exists_of_forall₂ reflected.flip (Option.mem_toList.2 ht)
  exact ⟨e, mem_exprs_libraryCall (mem_cons_of_mem _ he) e.mem_exprs_self, reflected⟩

theorem Param.checked?_of_checkedType? {p} (h : Param.checkedType? p = some t) :
    ∃ name, p.checked? = some (name, t) := by
  match p, h with
  | Param.mk _ _ _ _ type _, h =>
    rw [Param.checkedType?] at h
    rw [Param.checked?]
    generalize Param.isReceiver _ = receiver, Param.name? _ = name at h ⊢
    rcases receiver, name with ⟨_ | _, _ | name⟩
    case false.some => exact ⟨name, by simpa using h⟩
    all_goals cases h

/-- What is reflected for a function is found in its plan. -/
theorem Param.mem_exprs_check {name e} : (p : Param) → e ∈ (p.check s name e).exprs
  | Param.mk _ _ _ _ _ _ =>
    mem_exprs_exprStmt (mem_exprs_assertion (mem_exprs_parameter e.mem_exprs_self))

theorem funcPlanOf_answers {role f plan} (h : funcPlanOf s role f = .ok plan) :
    Answered s (f.requests s.generics role) (plan.toList.flatMap FuncPlan.exprs) := by
  match f, h with
  | Func.mk mark form typeParams params result body, h =>
    rw [funcPlanOf] at h
    rw [Func.requests]
    cases hb : body.toOption with
    | none => exact .nil
    | _ =>
      rw [hb] at h
      obtain ⟨plan, planned, rfl⟩ := map_eq_ok.1 h
      have opening := bodyPlanOf_opening planned
      rw [Scope.withGenerics_eq] at opening
      refine .of_reflect fun t ht => ?_
      simp only [mem_append, or_assoc] at ht
      simp only [Option.toList_some, flatMap_singleton, FuncPlan.exprs, mem_append]
      rcases ht with ht | ht | ht
      · obtain ⟨p, hp, ht⟩ := mem_filterMap.1 ht
        obtain ⟨_, hs, e, reflection, rfl⟩ := exists_of_forall₂ opening.consts.flip hp
        obtain ⟨e, he, reflected⟩ := reflection.occurs ht
        exact ⟨e, .inl (.inl (mem_flatMap.2 ⟨_, hs, mem_exprs_constStmt he⟩)), reflected⟩
      · obtain ⟨e, reflected, same⟩ :=
          opening.checked t (resultCheck?_eq_some.1 (Option.mem_toList.1 ht))
        refine ⟨e, .inl (.inr ?_), reflected⟩
        rw [same, Option.toList_some, flatMap_singleton]
        exact mem_exprs_libraryCall (mem_singleton.2 rfl) e.mem_exprs_self
      · obtain ⟨p, hp, ht⟩ := mem_filterMap.1 ht
        obtain ⟨name, typed⟩ := Param.checked?_of_checkedType? ht
        obtain ⟨e, reflected, check⟩ := opening.check hp typed
        exact ⟨e, .inr (mem_flatMap.2 ⟨_, check, p.mem_exprs_check⟩), reflected⟩

end

/-! ### Named types and classes -/

namespace Reflection

/-- The types of a declaration that may have type parameters: their bounds, then those of its
body. -/
def namedParts (typeParams : List TypeParam) (body : List String → Parts) : Parts :=
  typeParamParts [] typeParams ++ body (bindParams [] typeParams)

/-- The types that declarations of an interface are made of together. -/
def interfaceParts (p : Pending) : Parts :=
  namedParts (p.typeParams.getD []) fun bound =>
    membersParts bound (p.members.map MemberEntry.ofMember) ++ p.bases.map (bound, ·)

/-- The types that a class is made of: the arguments of its base class and its members, followed by
the members of interfaces of the same name. -/
def classParts (merged : List TypeMember) : ClassDecl → Parts
  | ClassDecl.mk _ _ _ _ typeParams base baseArgs _ members =>
    namedParts typeParams.toLists fun bound =>
      (base.toOption.toList.flatMap fun _ => baseArgs.toLists.map (bound, ·)) ++
        membersParts bound (classEntries members.toList ++ merged.map MemberEntry.ofMember)

end Reflection

section

open Reflection

variable {s : Scope} {bound : List String} {loc : Loc} {e : Expr}

theorem draws_namedType {body parts}
    (hb : ∀ bound, Draws s.reflectUnder (parts bound) Tree.exprs (body bound)) :
    Draws s.reflectUnder (namedParts typeParams parts) Tree.exprs
      (s.namedType loc name typeParams body) := by
  rw [Scope.namedType]
  split
  case isTrue none =>
    rw [List.isEmpty_iff] at none
    subst none
    exact (hb []).map fun r x hx => mem_exprs_libraryCall (by simp) hx
  case isFalse =>
    exact (draws_factory (hb _)).map fun r x hx => mem_exprs_libraryCall (by simp) hx

theorem draws_interfaceBody {bases members} :
    Draws s.reflectUnder (membersParts bound (members.map MemberEntry.ofMember) ++
      bases.map (bound, ·)) Tree.exprs (s.interfaceBody bound loc bases members) := by
  refine .bind (draws_members _) (fun ms _ => ?_) fun ms e made x hx => ?_
  · dsimp only
    split
    case isTrue none =>
      rw [List.isEmpty_iff] at none
      subst none
      exact .pure
    case isFalse =>
      refine (Draws.types bases).map fun bs x hx => ?_
      obtain ⟨a, ha, hx⟩ := mem_flatMap.1 hx
      exact mem_exprs_libraryCall (mem_append_left _ ha) hx
  · have object : x ∈ (s.libraryCall loc "object" ms).exprs := mem_exprs_arguments hx
    dsimp only at made
    split at made
    · obtain rfl := pure_eq_ok.1 made
      exact object
    · obtain ⟨bs, -, rfl⟩ := bind_pure_eq_ok.1 made
      exact mem_exprs_libraryCall (mem_append_right _ mem_cons_self) object

theorem draws_classBody {mark form decorators name typeParams base baseArgs implemented members}
    (hd : decl = ClassDecl.mk mark form decorators name typeParams base baseArgs implemented members) :
    Draws s.reflectUnder ((base.toOption.toList.flatMap fun _ => baseArgs.toLists.map (bound, ·)) ++
      membersParts bound (classEntries members.toList ++ merged.map MemberEntry.ofMember))
      (·.flatMap Tree.exprs) (s.classParts bound loc decl merged) := by
  rw [Scope.classParts_eq hd]
  refine .bind (.mapM Tree.exprs (fun b => (Draws.types _).map fun args x hx => ?_) _)
    (fun hs _ => (draws_members _).map fun ms x hx => ?_) fun hs es made x hx => ?_
  · obtain ⟨a, ha, hx⟩ := mem_flatMap.1 hx
    exact mem_exprs_libraryCall (mem_cons_of_mem _ ha) hx
  · rw [flatMap_append]
    exact mem_append_right _ hx
  · obtain ⟨ms, -, rfl⟩ := bind_pure_eq_ok.1 made
    rw [flatMap_append]
    exact mem_append_left _ hx

theorem draws_reflectClass :
    Draws s.reflectUnder (classParts merged decl) Tree.exprs (s.reflectClass loc decl merged) := by
  match decl with
  | ClassDecl.mk mark form decorators name typeParams base baseArgs implemented members =>
    rw [Scope.reflectClass_eq rfl, classParts]
    dsimp only
    split
    case isTrue none =>
      rw [List.isEmpty_iff] at none
      rw [none]
      refine (draws_classBody rfl).map fun parts x hx => ?_
      obtain ⟨a, ha, hx⟩ := mem_flatMap.1 hx
      exact mem_exprs_libraryCall (mem_cons_of_mem _ ha) hx
    case isFalse =>
      refine (draws_factory ((draws_classBody rfl).map fun parts x hx => ?_)).map fun body x hx =>
        mem_exprs_libraryCall (by simp) hx
      obtain ⟨a, ha, hx⟩ := mem_flatMap.1 hx
      exact mem_exprs_array ha hx

end

/-- The type that a property of a class is checked against. -/
def ClassMember.requests (gs : List Generics) (className : Option String) (names : List String) :
    ClassMember → List Request
  | m@(ClassMember.mk _ _ _ _ type (MemberVal.property _)) =>
    Request.plain (Generics.under names (ClassMember.access className m) gs) (checked? type).toList
  | _ => []

/-- The expressions that a plan adds to a class member. -/
def MemberPlan.exprs : MemberPlan → List Expr
  | keep => []
  | check plan => plan.exprs
  | decorate d => d.exprs

section

variable {className : Option String} {names : List String} {w w' : Walker}

theorem PlansMember.answers {m plan} (h : PlansMember className names w m plan w') :
    Answered w.context.scope (m.requests w.context.scope.generics className names) plan.exprs := by
  cases h with
  | func hm =>
    subst hm
    exact .nil
  | @property mark form decorators key type value _ t e hm typed reflected =>
    subst hm
    rw [Scope.withGenerics_eq] at reflected
    have request : ClassMember.requests w.context.scope.generics className names
        (ClassMember.mk mark form decorators key type (MemberVal.property value)) =
        Request.plain _ (checked? type).toList := rfl
    rw [request, typed]
    refine .of_reflect (forall_mem_singleton.2 ⟨e, ?_, reflected⟩)
    exact mem_exprs_decorator (mem_exprs_libraryCall (mem_singleton.2 rfl)
      (mem_exprs_deferred e.mem_exprs_self))
  | @untyped mark form decorators key type value untyped =>
    have request : ClassMember.requests w.context.scope.generics className names
        (ClassMember.mk mark form decorators key type (MemberVal.property value)) =
        Request.plain _ (checked? type).toList := rfl
    rw [request, untyped]
    exact .nil
  | _ => exact .nil

theorem PlansMembers.answers {ms plans} (h : PlansMembers className names w ms plans w') :
    Answered w.context.scope
      (ms.flatMap (ClassMember.requests w.context.scope.generics className names))
      (plans.flatMap MemberPlan.exprs) := by
  induction h with
  | nil => exact .nil
  | cons head tail ih =>
    rw [head.scope_eq] at ih
    rw [flatMap_cons, flatMap_cons]
    exact (head.answers.mono fun e he => mem_append_left _ he).append
      (ih.mono fun e he => mem_append_right _ he)

end

/-! ### Constructors -/

/-- Whether a member has a body of statements. -/
def ClassMember.hasBlock : ClassMember → Bool
  | ClassMember.mk _ _ _ _ _ (MemberVal.function _ _
      (Func.mk _ _ _ _ _ (.present (FuncBody.block _)))) => true
  | _ => false

/-- Whether the constructor of a class can take statements: its body is not a mere expression. -/
def takesStmts (members : List ClassMember) : Bool :=
  (members.find? ConstructorPlan.isTarget).all ClassMember.hasBlock

/-- The types that are reflected for the constructor of a class: the references that the class
implements and, in a generic class, the bounds of the type parameters and the arguments of the base
class. -/
def ClassDecl.constructorRequests (gs : List Generics) : ClassDecl → List Request
  | decl@(ClassDecl.mk _ _ _ _ typeParams _ baseArgs implemented members) =>
    let names := typeParams.toLists.map TypeParam.name
    if takesStmts members.toList then
      Request.plain (Generics.under names (memberAccess (ClassDecl.name? decl) false true) gs)
        (implemented.toList.filter implementsChecks.isReference) ++
      (ClassDecl.generic? decl).toList.flatMap fun _ =>
        Request.plain (Generics.under names .erased gs)
          (typeParams.toLists.filterMap TypeParam.bound?) ++
        Request.plain (Generics.under names .ofConstructor gs) baseArgs.toLists
    else []

/-- The expressions in the statements that keep type parameters. -/
def ParamStmts.exprs (p : ParamStmts) : List Expr :=
  p.before.exprs ++ p.after.flatMap Tree.exprs

/-- The expressions that a plan adds to a constructor. -/
def ConstructorPlan.exprs (p : ConstructorPlan) : List Expr :=
  p.params.toList.flatMap ParamStmts.exprs ++ p.implemented.flatMap Tree.exprs

theorem ClassDecl.KeepsParams.answers {s before after} (h : decl.KeepsParams s before after) :
    Answered s (decl.generic?.toList.flatMap fun _ =>
        Request.plain (Generics.under decl.typeParamNames .erased s.generics)
          (decl.typeParams.filterMap TypeParam.bound?) ++
        Request.plain (Generics.under decl.typeParamNames .ofConstructor s.generics) decl.baseArgs)
      ((before ++ after).flatMap Tree.exprs) := by
  cases h with
  | plain none =>
    rw [none]
    exact .nil
  | generic generic params base =>
    rw [generic, Option.toList_some, flatMap_singleton, singleton_append, flatMap_cons, flatMap_cons]
    refine .append (.of_reflect fun t ht => ?_) (.of_reflect fun t ht => ?_)
    · obtain ⟨p, hp, ht⟩ := mem_filterMap.1 ht
      obtain ⟨entry, mem, -, reflection⟩ := exists_of_forall₂ params.flip hp
      obtain ⟨e, he, reflected⟩ := reflection.occurs ht
      rw [Scope.withGenerics_eq] at reflected
      exact ⟨e, mem_append_left _ (mem_exprs_constStmt (mem_exprs_object mem he)), reflected⟩
    · obtain ⟨e, he, reflected⟩ := exists_of_forall₂ base.flip ht
      rw [Scope.withGenerics_eq] at reflected
      refine ⟨e, mem_append_right _ (mem_append_right _ ?_), reflected⟩
      rw [if_neg (by simpa using ne_nil_of_mem he), flatMap_singleton]
      refine mem_exprs_exprStmt (mem_exprs_libraryCall (mem_cons_of_mem _ he) e.mem_exprs_self)

/-- What is reflected for the constructor of a class is found in what is added to it. -/
theorem planFinish_answers {s reflection finish} (h : planFinish s reflection decl = .ok finish) :
    Answered s (decl.constructorRequests s.generics) finish.constructor.exprs := by
  obtain ⟨keeps, checks, -, -⟩ := planFinish_constructor h
  match decl, keeps.answers, checks with
  | ClassDecl.mk mark form decorators name typeParams base baseArgs implemented members, kept,
      checks =>
    rw [ClassDecl.constructorRequests]
    split
    case isFalse => exact .nil
    case isTrue =>
      refine .append (.of_reflect fun t ht => ?_) (kept.mono fun e he => mem_append_left _ ?_)
      · obtain ⟨_, hs, e, reflected, rfl⟩ := exists_of_forall₂ checks.flip ht
        rw [Scope.withGenerics_eq] at reflected
        exact ⟨e, mem_append_right _ (mem_flatMap.2 ⟨_, hs,
          mem_exprs_exprStmt (mem_exprs_assertion e.mem_exprs_self)⟩), reflected⟩
      · cases params : finish.constructor.params with
        | none => simp [params] at he
        | some ps => simpa [params, ParamStmts.exprs] using he

/-- The types that are reflected for a class, beside those of its functions.  An ambient class needs
none. -/
def ClassDecl.requests (gs : List Generics) (merged : List TypeMember) : ClassDecl → List Request
  | decl@(ClassDecl.mk _ form _ _ typeParams _ _ _ members) =>
    if form.ambient then []
    else (Reflection.classParts merged decl).requests gs ++
      members.toList.flatMap (ClassMember.requests gs (ClassDecl.name? decl)
        (typeParams.toLists.map TypeParam.name)) ++
      decl.constructorRequests gs

/-! ### Variables -/

/-- The type that an initializer is checked against. -/
def Declarator.checkedType? : Declarator → Option TypeExpr
  | Declarator.mk _ _ type init => if init.toOption.isSome then checked? type else none

/-- The types that are reflected for a variable declaration. -/
def VarDecl.requests (gs : List Generics) : VarDecl → List Request
  | VarDecl.mk _ _ ds => Request.plain gs (ds.toList.filterMap Declarator.checkedType?)

/-- The expressions that a plan adds to an initializer. -/
def InitPlan.exprs : InitPlan → List Expr
  | check reflection => reflection.exprs
  | _ => []

theorem initPlanOf_occurs {s d plan} (h : initPlanOf s d = .ok plan)
    (ht : Declarator.checkedType? d = some t) : ∃ e ∈ plan.exprs, s.reflect t = .ok e := by
  match d, h, ht with
  | Declarator.mk mark binding type init, h, ht =>
    rw [Declarator.checkedType?] at ht
    split at ht
    case isFalse => cases ht
    case isTrue some =>
      obtain ⟨value, hv⟩ := Option.isSome_iff_exists.1 some
      rw [initPlanOf, ht, hv] at h
      obtain ⟨e, he, rfl⟩ := map_eq_ok.1 h
      exact ⟨e, e.mem_exprs_self, he⟩

theorem initPlans_answers {s mark form ds plans} (h : ds.toList.mapM (initPlanOf s) = .ok plans) :
    Answered s ((VarDecl.mk mark form ds).requests s.generics) (plans.flatMap InitPlan.exprs) := by
  refine .of_reflect fun t ht => ?_
  obtain ⟨d, hd, ht⟩ := mem_filterMap.1 ht
  obtain ⟨plan, hp, planned⟩ := mem_of_mapM h hd
  obtain ⟨e, he, reflected⟩ := initPlanOf_occurs planned ht
  exact ⟨e, mem_flatMap.2 ⟨plan, hp, he⟩, reflected⟩

/-! ### Statements -/

/-- The types that are reflected for a statement, beside those of its functions.  An interface is
reflected at the last of its declarations, with what all of them declare (`whole`); the members of
interfaces belong to a class of the same name (`merged`). -/
def Stmt.requests (gs : List Generics) (whole : Option Pending) (merged : List TypeMember) :
    Stmt → List Request
  | Stmt.classDecl _ decl => ClassDecl.requests gs merged decl
  | Stmt.varDecl _ decl => VarDecl.requests gs decl
  | Stmt.aliasDecl _ (AliasDecl.mk _ form typeParams type) =>
    if form.ambient then []
    else (Reflection.namedParts typeParams.toLists fun bound => [(bound, type)]).requests gs
  | Stmt.interfaceDecl _ _ =>
    whole.toList.flatMap fun p => (Reflection.interfaceParts p).requests gs
  | _ => []

end Reify
