import Reify.Proofs.Check.Emission
import Reify.Proofs.Check.Rewriting
import Reify.Proofs.Check.Wrapping
import Reify.Proofs.Reflection.Locals

/-!
# The constructor of a class

Three things are put into the constructor of a class: what its own parameters need, the statements
that keep the type parameters, and the checks of what the class implements.  Each is put in without
regard to the others.  `constructor_layout` says where all of them end up: around the first call of
`super`, in this order, with the checks at the end.  A class without a constructor gets one.
-/

namespace Reify

open List

namespace ClassDecl

/-- Whether a class is only declared. -/
def isAmbient : ClassDecl → Bool
  | ClassDecl.mk _ form _ _ _ _ _ _ _ => form.ambient

/-- Whether a class extends another. -/
def isDerived : ClassDecl → Bool
  | ClassDecl.mk _ _ _ _ _ base _ _ _ => base.toOption.isSome

end ClassDecl

/-! ### What is added -/

/-- **The constructor that takes the statements**, between the members before and after it, and what
its own parameters need.  It is the first one with a body.  If there is none, one is made: in a
derived class it passes its arguments on, otherwise it is empty. -/
inductive ClassDecl.Constructor (s : Scope) (decl : ClassDecl) :
    List ClassMember → ClassMember → List ClassMember → List Stmt → Prop where
  | own {ms m ms' f consts asserts} (members : decl.memberList = ms ++ m :: ms')
      (first : ∀ n ∈ ms, ConstructorPlan.isTarget n = false)
      (target : ConstructorPlan.isTarget m = true) (func : m.func? = some f)
      (opening : f.Opening
        ((s.withGenerics decl.typeParamNames (memberAccess decl.name? false true)).withGenerics
          (Func.typeParamNames f) .constant) .constructor consts none asserts) :
      ClassDecl.Constructor s decl ms m ms' (consts ++ asserts)
  | forwarding (missing : ∀ n ∈ decl.memberList, ConstructorPlan.isTarget n = false)
      (derived : decl.isDerived = true) :
      ClassDecl.Constructor s decl []
        (Synthetic.constructor decl.mark.loc [Synthetic.restAnyParam decl.mark.loc "args"]
          [Synthetic.exprStmt decl.mark.loc
            (Synthetic.callWith decl.mark.loc (Synthetic.super decl.mark.loc)
              [Synthetic.spreadArg (Synthetic.ident decl.mark.loc "args")])])
        decl.memberList []
  | empty (missing : ∀ n ∈ decl.memberList, ConstructorPlan.isTarget n = false)
      (derived : decl.isDerived = false) :
      ClassDecl.Constructor s decl [] (Synthetic.constructor decl.mark.loc [] []) decl.memberList []

/-- The statements in the body of a member. -/
def ClassMember.stmts (m : ClassMember) : List Stmt := (m.func?.bind Func.stmts?).getD []

/-- A member of which only the decorators and the body of the function have changed. -/
def ClassMember.IsChecked (m m' : ClassMember) : Prop := ∃ plan : MemberPlan, m' = plan.apply m

variable {finish : ClassFinish} {reflection : Expr} {plans : List MemberPlan} {plan : ClassPlan}

section

variable {s : Scope} {decl : ClassDecl} {mark : Mark} {form : ClassForm}
  {decorators : Many .decorator} {name : Maybe .name} {typeParams : Maybe (.many .typeParam)}
  {base : Maybe .expr} {baseArgs : Maybe (.many .type)} {implemented : Many .type}
  {members : Many .classMember}

/-- Something is worked out for the constructor of a class that has type parameters or implements a
reference. -/
theorem planFinish_needed (h : planFinish s reflection decl = .ok finish)
    (needed : decl.generic?.isSome = true ∨ decl.references ≠ []) :
    finish.constructor.isEmpty = false := by
  obtain ⟨keeps, checks, -, -⟩ := planFinish_constructor h
  rw [ConstructorPlan.isEmpty, Bool.and_eq_false_iff]
  rcases needed with generic | references
  · left
    cases params : finish.constructor.params with
    | some => rfl
    | none =>
      rw [params] at keeps
      cases keeps with
      | plain none =>
        rw [none] at generic
        cases generic
  · right
    rw [isEmpty_eq_false_iff]
    rintro none
    rw [none] at checks
    exact references (forall₂_nil_right_iff.1 checks)

end

/-! ### Statements -/

namespace AroundSuper

variable {ss before call after : List Stmt}

/-- What is put behind the call of `super` stays behind it. -/
theorem insert (h : AroundSuper ss before call after) {added}
    (plain : ∀ s ∈ added, Stmt.isSuperCall s = false) :
    AroundSuper (before ++ call ++ added ++ after) before call (added ++ after) := by
  cases h with
  | @call _ s _ first super' =>
    have split : AroundSuper (before ++ s :: (added ++ after)) before [s] (added ++ after) :=
      .call first super'
    simpa using split
  | plain none => exact .plain (forall_mem_append.2 ⟨plain, none⟩)

/-- In a constructor the statements of a plan are put behind the call of `super`. -/
theorem funcPlan_applyStmts (h : AroundSuper ss before call after) {p : FuncPlan}
    (role : p.role = .constructor) (unchecked : p.result = none) :
    p.applyStmts ss = before ++ call ++ (p.typeConsts ++ p.asserts) ++ after := by
  rw [FuncPlan.applyStmts_eq, FuncPlan.onStmt_of_none unchecked, map_id, FuncPlan.position, role]
  dsimp only
  rw [h.position, FuncPlan.prologue_of_none unchecked, h.eq, take_left, drop_left]

theorem paramStmts_apply (h : AroundSuper ss before call after) (p : ParamStmts) :
    p.apply ss = before ++ [p.before] ++ call ++ p.after ++ after := by
  cases h with
  | @call _ s _ first super' =>
    rw [ParamStmts.apply, superIndex?_call first super']
    simp
  | plain none =>
    rw [ParamStmts.apply, superIndex?_plain none]
    simp

/-- The plan of a constructor puts its statements around the call of `super`, and the checks to the
end. -/
theorem constructorPlan_applyStmts (h : AroundSuper ss before call after) (p : ConstructorPlan) :
    p.applyStmts ss = before ++ p.params.toList.map ParamStmts.before ++ call ++
      p.params.toList.flatMap ParamStmts.after ++ after ++ p.implemented := by
  rw [ConstructorPlan.applyStmts]
  cases p.params with
  | none => simp [← h.eq]
  | some ps => simp [h.paramStmts_apply]

end AroundSuper

theorem isSuperCall_check (s : Scope) (name : String) (reflection : Expr) (p : Param) :
    Stmt.isSuperCall (p.check s name reflection) = false := by
  match p with
  | Param.mk _ _ _ _ _ _ => rfl

/-- What is put into a function calls no `super`. -/
theorem Func.Opening.isSuperCall {s role} {f : Func} {consts asserts result}
    (h : f.Opening s role consts result asserts) :
    ∀ stmt ∈ consts ++ asserts, Stmt.isSuperCall stmt = false := by
  intro stmt hs
  rcases mem_append.1 hs with hs | hs
  · obtain ⟨p, -, e, -, rfl⟩ := exists_of_forall₂ h.consts hs
    rfl
  · obtain ⟨p, -, name, t, e, -, -, rfl⟩ := exists_of_forall₂ h.asserts hs
    exact isSuperCall_check _ name e p

/-! ### Members -/

theorem ClassMember.IsChecked.isTarget {m m'} (h : m.IsChecked m') :
    ConstructorPlan.isTarget m' = ConstructorPlan.isTarget m := by
  obtain ⟨plan, rfl⟩ := h
  exact (plan.stands m).1

theorem applyMembers_areChecked (plans : List MemberPlan) (ms : List ClassMember) :
    Forall₂ ClassMember.IsChecked ms (applyMembers plans ms) := by
  induction ms generalizing plans with
  | nil =>
    cases plans <;> exact .nil
  | cons m ms ih =>
    cases plans with
    | nil => exact forall₂_same.2 fun _ _ => ⟨.keep, rfl⟩
    | cons p plans => exact .cons ⟨p, rfl⟩ (ih plans)

theorem ClassMember.isTarget_of_areChecked {ms ms'} (h : Forall₂ ClassMember.IsChecked ms ms')
    (first : ∀ n ∈ ms, ConstructorPlan.isTarget n = false) :
    ∀ n ∈ ms', ConstructorPlan.isTarget n = false := by
  induction h with
  | nil => exact first
  | cons head _ ih =>
    rw [forall_mem_cons] at first ⊢
    exact ⟨head.isTarget.trans first.1, ih first.2⟩

theorem applyMembers_append {ms} (h : plans.length = ms.length) (p : MemberPlan)
    (plans' : List MemberPlan) (m : ClassMember) (ms' : List ClassMember) :
    applyMembers (plans ++ p :: plans') (ms ++ m :: ms') =
      applyMembers plans ms ++ p.apply m :: applyMembers plans' ms' := by
  induction plans generalizing ms with
  | nil =>
    obtain rfl := eq_nil_of_length_eq_zero h.symm
    rfl
  | cons q plans ih =>
    cases ms with
    | nil => cases h
    | cons n ms => exact congrArg (q.apply n :: ·) (ih (Nat.succ.inj h))

section

variable {className : Option String} {names : List String} {w w' : Walker}

/-- A member is dealt with in the scope of the class, and as fresh as it was before if the members
in front of it have other functions. -/
theorem PlansMembers.split {ms ms' m} (h : PlansMembers className names w (ms ++ m :: ms') plans w')
    {f : Func} (fresh : w.context.wasVisited f.mark.id = false)
    (other : ∀ n ∈ ms, ∀ g ∈ n.func?, g.mark.id ≠ f.mark.id) :
    ∃ early plan late w₁ w₂, plans = early ++ plan :: late ∧ early.length = ms.length ∧
      PlansMember className names w₁ m plan w₂ ∧ w₁.context.scope = w.context.scope ∧
      w₁.context.wasVisited f.mark.id = false := by
  induction ms generalizing w plans with
  | nil =>
    cases h with
    | cons head _ => exact ⟨[], _, _, w, _, rfl, rfl, head, rfl, fresh⟩
  | cons n ms ih =>
    cases h with
    | @cons _ w₁ _ _ _ p _ head tail =>
    rw [forall_mem_cons] at other
    obtain ⟨early, plan, late, w₂, w₃, rfl, same, planned, scope, fresh⟩ :=
      ih tail (head.keeps_fresh fresh other.1) other.2
    exact ⟨p :: early, plan, late, w₂, w₃, rfl, congrArg (· + 1) same, planned,
      scope.trans head.scope_eq, fresh⟩

end

theorem ClassMember.mapBlock_eq (g : List Stmt → List Stmt) : (m : ClassMember) →
    m.mapBlock g = m.mapBlock fun _ => g m.stmts
  | ClassMember.mk _ _ _ _ _ (MemberVal.function _ _
      (Func.mk _ _ _ _ _ (.present (FuncBody.block _))))
  | ClassMember.mk _ _ _ _ _ (MemberVal.function _ _
      (Func.mk _ _ _ _ _ (.present (FuncBody.expr _))))
  | ClassMember.mk _ _ _ _ _ (MemberVal.function _ _ (Func.mk _ _ _ _ _ .absent))
  | ClassMember.mk _ _ _ _ _ (MemberVal.property _)
  | ClassMember.mk _ _ _ _ _ (MemberVal.index _ _ _ _) => rfl

theorem ClassMember.mapBlock_mapBlock (g h : List Stmt → List Stmt) : (m : ClassMember) →
    (m.mapBlock g).mapBlock h = m.mapBlock fun ss => h (g ss)
  | ClassMember.mk mark form decorators key type (MemberVal.function fm kind
      (Func.mk fmark fform typeParams params result (.present (FuncBody.block ss)))) =>
    congrArg (fun ts => ClassMember.mk mark form decorators key type (MemberVal.function fm kind
      (Func.mk fmark fform typeParams params result (.present (FuncBody.block (.ofList (h ts)))))))
      (Tree.toList_ofList (g ss.toList))
  | ClassMember.mk _ _ _ _ _ (MemberVal.function _ _
      (Func.mk _ _ _ _ _ (.present (FuncBody.expr _))))
  | ClassMember.mk _ _ _ _ _ (MemberVal.function _ _ (Func.mk _ _ _ _ _ .absent))
  | ClassMember.mk _ _ _ _ _ (MemberVal.property _)
  | ClassMember.mk _ _ _ _ _ (MemberVal.index _ _ _ _) => rfl

theorem ClassMember.mapBlock_id : (m : ClassMember) → m.mapBlock (fun ss => ss) = m
  | ClassMember.mk mark form decorators key type (MemberVal.function fm kind
      (Func.mk fmark fform typeParams params result (.present (FuncBody.block ss)))) =>
    congrArg (fun ts => ClassMember.mk mark form decorators key type (MemberVal.function fm kind
      (Func.mk fmark fform typeParams params result (.present (FuncBody.block ts)))))
      (Tree.ofList_toList ss)
  | ClassMember.mk _ _ _ _ _ (MemberVal.function _ _
      (Func.mk _ _ _ _ _ (.present (FuncBody.expr _))))
  | ClassMember.mk _ _ _ _ _ (MemberVal.function _ _ (Func.mk _ _ _ _ _ .absent))
  | ClassMember.mk _ _ _ _ _ (MemberVal.property _)
  | ClassMember.mk _ _ _ _ _ (MemberVal.index _ _ _ _) => rfl

namespace ConstructorPlan

variable {p : ConstructorPlan} {ms ms' : List ClassMember} {m : ClassMember}

theorem applyStmts_of_isEmpty (empty : p.isEmpty = true) (ss : List Stmt) : p.applyStmts ss = ss := by
  rw [isEmpty, Bool.and_eq_true, Option.isNone_iff_eq_none, List.isEmpty_iff] at empty
  rw [applyStmts, empty.1, empty.2]
  exact append_nil ss

theorem apply_own (p : ConstructorPlan) (derived : Bool) (first : ∀ n ∈ ms, isTarget n = false)
    (target : isTarget m = true) :
    p.apply derived (ms ++ m :: ms') = ms ++ p.applyMember m :: ms' := by
  have index : (ms ++ m :: ms').findIdx? isTarget = some ms.length := by
    rw [findIdx?_append, findIdx?_eq_none_iff.2 first, findIdx?_cons, target]
    simp
  rw [apply]
  split
  case isTrue empty =>
    rw [applyMember_eq, funext (p.applyStmts_of_isEmpty empty)]
    exact congrArg (ms ++ · :: ms') (ClassMember.mapBlock_id m).symm
  case isFalse =>
    rw [ensure, index]
    dsimp only
    rw [modify_eq_take_drop, take_left, drop_left, modifyHead_cons]

theorem apply_made (derived : Bool) (some : p.isEmpty = false)
    (missing : ∀ n ∈ ms, isTarget n = false) :
    p.apply derived ms = p.applyMember (defaultConstructor p.loc derived) :: ms := by
  rw [apply, some, if_neg Bool.false_ne_true, ensure, findIdx?_eq_none_iff.2 missing]
  rfl

end ConstructorPlan

/-! ### The layout -/

/-- **The layout of a class**: the symbol of the type parameters comes first, and every other member
stays where it is, with checks of its own.  In the constructor all that is added stands around the
first call of `super`, except for the checks of what the class implements, which come last. -/
def ClassDecl.LaidOut (s : Scope) (decl decl' : ClassDecl) : Prop :=
  ∃ before after checks opening ms m ms' front call rest early late,
    decl.KeepsParams s before after ∧ decl.ChecksImplemented s checks ∧
    decl.Constructor s ms m ms' opening ∧ AroundSuper m.stmts front call rest ∧
    Forall₂ ClassMember.IsChecked ms early ∧ Forall₂ ClassMember.IsChecked ms' late ∧
    decl'.memberList = (decl.generic?.map (symbolMember s decl.mark.loc)).toList ++ early ++
      m.mapBlock (fun _ => front ++ before ++ call ++ after ++ opening ++ rest ++ checks) :: late

/-- A class whose constructor, if it has one, can take statements and is fresh: its function was not
visited before, and is none of those of the members in front of it. -/
def ClassDecl.FreshConstructor (w : Walker) (decl : ClassDecl) : Prop :=
  ∀ ms m ms', decl.memberList = ms ++ m :: ms' → (∀ n ∈ ms, ConstructorPlan.isTarget n = false) →
    ConstructorPlan.isTarget m = true → m.hasBlock = true ∧
      ∀ f ∈ m.func?, w.context.wasVisited f.mark.id = false ∧
        ∀ n ∈ ms, ∀ g ∈ n.func?, g.mark.id ≠ f.mark.id

theorem ClassMember.func?_of_hasBlock {m : ClassMember} (h : m.hasBlock = true) :
    ∃ f, m.func? = some f := by
  match m, h with
  | ClassMember.mk _ _ _ _ _ (MemberVal.function _ _ f), _ => exact ⟨f, rfl⟩

/-- The constructor that is made where there is none. -/
theorem ClassDecl.constructor_of_missing (s : Scope) (decl : ClassDecl)
    (missing : ∀ n ∈ decl.memberList, ConstructorPlan.isTarget n = false) :
    ∃ front call rest, decl.Constructor s []
        (ConstructorPlan.defaultConstructor decl.mark.loc decl.isDerived) decl.memberList [] ∧
      AroundSuper (ConstructorPlan.defaultConstructor decl.mark.loc decl.isDerived).stmts front call
        rest := by
  cases derived : decl.isDerived with
  | true =>
    have split (call : Stmt) (super' : Stmt.isSuperCall call = true) :
        AroundSuper ([] ++ [call]) [] [call] [] := .call nofun super'
    exact ⟨_, _, _, .forwarding missing derived, split _ rfl⟩
  | false => exact ⟨_, _, _, .empty missing derived, .plain nofun⟩

section

variable {className : Option String} {names : List String} {w w' : Walker}

variable {decl : ClassDecl} {m : ClassMember}

/-- What is worked out for a class, and the members that it ends up with. -/
theorem planClass_members (run : (planClass decl).run w = ((plan, .ok ()), w'))
    (ambient : decl.isAmbient = false) :
    ∃ plans finish reflection w₁,
      PlansMembers decl.name? decl.typeParamNames w decl.memberList plans w₁ ∧
      planFinish w.context.scope reflection decl = .ok finish ∧
      (plan.apply decl).memberList = finish.symbol.toList ++
        finish.constructor.apply decl.isDerived (applyMembers plans decl.memberList) := by
  cases planClass_ok (m := decl.mark) run with
  | ambientClass hd isAmbient =>
    subst hd
    rw [ClassDecl.isAmbient, isAmbient] at ambient
    cases ambient
  | classDecl hd _ _ planned finished =>
    rw [planned.scope_eq] at finished
    subst hd
    refine ⟨_, _, _, _, planned, finished, ?_⟩
    rw [ClassPlan.apply]
    dsimp only
    rw [ClassDecl.memberList, Tree.toList_ofList]
    rfl

theorem ClassMember.access_of_isTarget (h : ConstructorPlan.isTarget m = true)
    (className : Option String) :
    ClassMember.access className m = memberAccess className false true ∧
      ClassMember.role m = .constructor := by
  match m, h with
  | ClassMember.mk _ form _ _ _ _, target =>
    rw [ConstructorPlan.isTarget, Bool.and_eq_true] at target
    have constructor := target.1
    have static : form.static = false := by
      rw [ClassMember.isConstructor, Bool.and_eq_true, Bool.and_eq_true] at constructor
      simpa using constructor.1.1
    refine ⟨?_, if_pos constructor⟩
    rw [ClassMember.access, constructor]
    exact congrArg (memberAccess className · true) static

/-- What comes of a fresh constructor: its own statements stand right behind the call of `super`. -/
theorem PlansMember.constructor {m plan} (h : PlansMember className names w m plan w')
    (target : ConstructorPlan.isTarget m = true) (block : m.hasBlock = true)
    (fresh : ∀ f ∈ m.func?, w.context.wasVisited f.mark.id = false) :
    ∃ f consts asserts, m.func? = some f ∧
      f.Opening ((w.context.scope.withGenerics names (memberAccess className false true)).withGenerics
        (Func.typeParamNames f) .constant) .constructor consts none asserts ∧
      ∀ before call after, AroundSuper m.stmts before call after →
        plan.apply m = m.mapBlock fun _ => before ++ call ++ (consts ++ asserts) ++ after := by
  obtain ⟨access, role⟩ := ClassMember.access_of_isTarget target className
  cases h with
  | visited hv =>
    rw [fresh _ rfl] at hv
    cases hv
  | @func _ mark form decorators key type fm kind f _ plan hm _ planned =>
    rw [access, role] at planned
    match f, hm, planned with
    | Func.mk fmark fform typeParams params result .absent, hm, _
    | Func.mk fmark fform typeParams params result (.present (FuncBody.expr _)), hm, _ =>
      subst hm
      cases block
    | Func.mk fmark fform typeParams params result (.present (FuncBody.block ss)), hm, planned =>
      subst hm
      obtain ⟨plan, worked, rfl⟩ := map_eq_ok.1 planned
      have opening := bodyPlanOf_opening worked
      have unchecked : plan.result = none :=
        opening.unchecked fun _ ⟨_, _, constructor, _⟩ => constructor rfl
      rw [unchecked] at opening
      refine ⟨_, plan.typeConsts, plan.asserts, rfl, opening, fun before call after split => ?_⟩
      have stmts := split.funcPlan_applyStmts (bodyPlanOf_fields worked).1 unchecked
      exact congrArg (fun ss => ClassMember.mk mark form decorators key type
        (MemberVal.function fm kind (Func.mk fmark fform typeParams params result
          (.present (FuncBody.block (.ofList ss)))))) stmts
  | property hm =>
    subst hm
    cases block
  | untyped | index => cases block

/-- A class with a constructor of its own. -/
theorem ClassDecl.laidOut_own (run : (planClass decl).run w = ((plan, .ok ()), w'))
    (ambient : decl.isAmbient = false) (fresh : decl.FreshConstructor w)
    (found : decl.memberList.find? ConstructorPlan.isTarget = some m) :
    decl.LaidOut w.context.scope (plan.apply decl) := by
  obtain ⟨plans, finish, reflection, w₁, planned, finished, layout⟩ := planClass_members run ambient
  obtain ⟨keeps, checks, -, symbol⟩ := planFinish_constructor finished
  rw [LaidOut, layout, symbol]
  obtain ⟨target, ms, ms', members, first⟩ := find?_eq_some_iff_append.1 found
  replace first : ∀ n ∈ ms, ConstructorPlan.isTarget n = false := by simpa using first
  obtain ⟨block, fresh⟩ := fresh ms m ms' members first target
  obtain ⟨f, hf⟩ := ClassMember.func?_of_hasBlock block
  obtain ⟨fresh, other⟩ := fresh f hf
  rw [members] at planned
  obtain ⟨early, p, late, w₂, w₃, rfl, same, planned, scope, fresh⟩ := planned.split fresh other
  obtain ⟨g, consts, asserts, func, opening, stmts⟩ :=
    planned.constructor target block fun g hg => by cases hf.symm.trans hg; exact fresh
  rw [scope] at opening
  obtain ⟨front, call, rest, split⟩ := AroundSuper.exists m.stmts
  have checked := applyMembers_areChecked early ms
  refine ⟨_, _, _, _, ms, m, ms', front, call, rest, _, _, keeps, checks,
    .own members first target func opening, split, checked, applyMembers_areChecked late ms', ?_⟩
  rw [members, applyMembers_append same, finish.constructor.apply_own _
      (ClassMember.isTarget_of_areChecked checked first) ((p.stands m).1.trans target),
    stmts _ _ _ split, ConstructorPlan.applyMember_eq, ClassMember.mapBlock_mapBlock,
    (split.insert opening.isSuperCall).constructorPlan_applyStmts]
  simp

/-- A class that a constructor is made for. -/
theorem ClassDecl.laidOut_made (run : (planClass decl).run w = ((plan, .ok ()), w'))
    (ambient : decl.isAmbient = false) (needed : decl.generic?.isSome = true ∨ decl.references ≠ [])
    (missing : ∀ n ∈ decl.memberList, ConstructorPlan.isTarget n = false) :
    decl.LaidOut w.context.scope (plan.apply decl) := by
  obtain ⟨plans, finish, reflection, w₁, -, finished, layout⟩ := planClass_members run ambient
  obtain ⟨keeps, checks, loc, symbol⟩ := planFinish_constructor finished
  rw [LaidOut, layout, symbol]
  have checked := applyMembers_areChecked plans decl.memberList
  obtain ⟨front, call, rest, constructor, split⟩ :=
    decl.constructor_of_missing w.context.scope missing
  refine ⟨_, _, _, _, _, _, _, front, call, rest, [], _, keeps, checks, constructor, split, .nil,
    checked, ?_⟩
  rw [ConstructorPlan.apply_made _ (planFinish_needed finished needed)
      (ClassMember.isTarget_of_areChecked checked missing), loc,
    ConstructorPlan.applyMember_eq, ClassMember.mapBlock_eq, split.constructorPlan_applyStmts]
  simp

/-- A class that has type parameters and a name or implements a reference ends up laid out. -/
theorem constructor_layout {decl : ClassDecl} {plan : ClassPlan}
    (run : (planClass decl).run w = ((plan, .ok ()), w')) (ambient : decl.isAmbient = false)
    (needed : decl.generic?.isSome = true ∨ decl.references ≠ [])
    (fresh : decl.FreshConstructor w) : decl.LaidOut w.context.scope (plan.apply decl) := by
  cases found : decl.memberList.find? ConstructorPlan.isTarget with
  | none =>
    refine decl.laidOut_made run ambient needed ?_
    simpa using List.find?_eq_none.1 found
  | some m => exact decl.laidOut_own run ambient fresh found

end

/-- `m() {}` -/
def emptyMethod : ClassMember :=
  .mk { id := 3 } ⟨false, false, false, none⟩ (.ofList []) (MemberKey.direct { id := 4 } "m") .absent
    (MemberVal.function { id := 5 } .method (Func.mk { id := 6 } ⟨false, false, false⟩ .absent
      (.ofList []) .absent (.present (FuncBody.block (.ofList [])))))

/-- `constructor(x: T) { f(); super(); g(); }` -/
def typedConstructor : ClassMember :=
  .mk { id := 7 } ⟨false, false, false, none⟩ (.ofList [])
    (MemberKey.direct { id := 8 } "constructor") .absent
    (MemberVal.function { id := 9 } .method (Func.mk { id := 10 } ⟨false, false, false⟩ .absent
      (.ofList [Param.mk { id := 11 } ⟨false, false, none, false⟩ (.ofList [])
        (Binding.mk { id := 12 } (Pat.ident ⟨{ id := 13 }, { id := 14 }⟩ "x"))
        (.present (TypeExpr.reference ⟨{ id := 15 }, { id := 16 }⟩ (.ident "T") .absent)) .absent])
      .absent (.present (FuncBody.block (.ofList [
        Stmt.expr ⟨{ id := 17 }, { id := 18 }⟩ (Synthetic.call {} (Synthetic.ident {} "f") []),
        Stmt.expr ⟨{ id := 19 }, { id := 20 }⟩ (Synthetic.call {} (Synthetic.super {}) []),
        Stmt.expr ⟨{ id := 21 }, { id := 22 }⟩ (Synthetic.call {} (Synthetic.ident {} "g") [])])))))

/-- `class C<T> extends B<T> implements I { m() {} constructor(x: T) { f(); super(); g(); } }` -/
def genericDerivedClass : ClassDecl :=
  .mk { id := 1 } ⟨false, false, false, false⟩ (.ofList []) (.present (Name.mk { id := 2 } "C"))
    (.present (.ofList [TypeParam.mk { id := 23 } "T" .absent .absent]))
    (.present (Synthetic.ident {} "B"))
    (.present (.ofList [TypeExpr.reference ⟨{ id := 24 }, { id := 25 }⟩ (.ident "T") .absent]))
    (.ofList [TypeExpr.reference ⟨{ id := 26 }, { id := 27 }⟩ (.ident "I") .absent])
    (.ofList [emptyMethod, typedConstructor])

/-- The state at the start of a unit with this class. -/
def genericDerivedStart : Walker :=
  { context := .start {} (SourceUnit.mk { id := 28 } (.ofList [
      Stmt.classDecl { id := 29 } genericDerivedClass])) }

theorem constructor_layout_genericDerived :
    ∃ plan w', (planClass genericDerivedClass).run genericDerivedStart = ((plan, .ok ()), w') ∧
      genericDerivedClass.isAmbient = false ∧ genericDerivedClass.generic?.isSome = true ∧
      genericDerivedClass.FreshConstructor genericDerivedStart ∧
      genericDerivedClass.LaidOut genericDerivedStart.context.scope
        (plan.apply genericDerivedClass) := by
  have fresh : genericDerivedClass.FreshConstructor genericDerivedStart := by
    intro ms m ms' members first target
    have both : [emptyMethod, typedConstructor] = ms ++ m :: ms' := members
    rcases ms with _ | ⟨n, _ | ⟨n', ms⟩⟩
    · obtain ⟨rfl, -⟩ := List.cons.inj both
      cases target
    · obtain ⟨rfl, rest⟩ := List.cons.inj both
      obtain ⟨rfl, -⟩ := List.cons.inj rest
      refine ⟨rfl, fun f hf => ?_⟩
      obtain rfl := Option.some.inj hf
      refine ⟨rfl, fun n hn g hg => ?_⟩
      obtain rfl := List.mem_singleton.1 hn
      obtain rfl := Option.some.inj hg
      decide
    · simp at both
  have succeeds : ((planClass genericDerivedClass).run genericDerivedStart).1.2.isOk = true := by
    decide +kernel
  rcases run : (planClass genericDerivedClass).run genericDerivedStart with ⟨⟨plan, r⟩, w'⟩
  rw [run] at succeeds
  cases r with
  | error u => cases succeeds
  | ok _ => exact ⟨plan, w', rfl, rfl, rfl, fresh, constructor_layout run rfl (.inl rfl) fresh⟩

end Reify
