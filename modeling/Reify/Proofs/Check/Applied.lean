import Reify.Proofs.Check.Rework
import Reify.Proofs.Syntax.Outline

/-!
# What plans do

Each plan reworks the tree that it is applied to, and adds what it says (`reworked_apply`).
-/

namespace Reify

open List

variable {A : Addition} {around : List Around}

variable {i : Nat} {ms : List ClassMember}

/-- Around the first call of `super`. -/
theorem superIndex_eq_some {ss} (h : superIndex? ss = some i) :
    ∃ s, Stmt.isSuperCall s = true ∧ ss.drop i = s :: ss.drop (i + 1) ∧
      ss.take (i + 1) = ss.take i ++ [s] := by
  obtain ⟨hi, super', -⟩ := findIdx?_eq_some_iff_getElem.1 h
  exact ⟨ss[i], super', drop_eq_getElem_cons hi, (take_append_getElem hi).symm⟩

/-! ### Functions -/

namespace FuncPlan

/-- Everything that the plan adds may be added. -/
structure Adds (A : Addition) (around : List Around) (p : FuncPlan) : Prop where
  prologue : ∀ s ∈ p.prologue, A around .stmt s
  result : ∀ r ∈ p.result, A around .expr r
  name : p.result.isSome → ∀ loc, A around .expr (Synthetic.ident loc p.resultName)

variable {p : FuncPlan}

theorem gap_position (p : FuncPlan) (ss : List Stmt) :
    Gap (ss.take (p.position ss)) (ss.drop (p.position ss)) := by
  rw [position]
  split
  · cases h : superIndex? ss with
    | none => exact .start
    | some i =>
      obtain ⟨s, super', -, upTo⟩ := superIndex_eq_some h
      exact .afterSuper (s := s) (by simp [upTo]) super'
  · exact .start

/-- What the plan does to each statement of a body. -/
def onStmt (p : FuncPlan) (s : Stmt) : Stmt :=
  if p.result.isSome then Stmt.mapReturns p.checkedValue s else s

theorem applyStmts_eq (p : FuncPlan) (ss : List Stmt) :
    p.applyStmts ss = (ss.map p.onStmt).take (p.position (ss.map p.onStmt)) ++ p.prologue ++
      (ss.map p.onStmt).drop (p.position (ss.map p.onStmt)) := by
  have stmts : (if p.result.isSome then ss.map (Stmt.mapReturns p.checkedValue) else ss) =
      ss.map p.onStmt := by
    unfold onStmt
    split <;> simp
  unfold applyStmts
  rw [stmts]

theorem onStmt_returnStmt (loc : Loc) (e : Expr) :
    p.onStmt (Synthetic.returnStmt loc e) = Synthetic.returnStmt loc (p.checkedValue loc e) := by
  unfold onStmt checkedValue
  cases p.result <;> rfl

theorem onStmt_of_none (h : p.result = none) : p.onStmt = id :=
  funext fun s => by rw [onStmt, h]; rfl

theorem onStmt_of_some {r} (h : p.result = some r) :
    p.onStmt = Stmt.mapReturns (checkedBy p.resultName) := by
  have values : p.checkedValue = checkedBy p.resultName :=
    funext fun loc => funext fun e => by rw [checkedValue, h]; rfl
  exact funext fun s => by rw [onStmt, h, values]; rfl

theorem Adds.reworked_onStmts (h : p.Adds A around) (ss : List Stmt) :
    Reworked A around (.tree (.many .stmt)) (.ofList ss) (.ofList (ss.map p.onStmt)) := by
  cases hr : p.result with
  | none =>
    rw [onStmt_of_none hr, map_id]
    exact .refl
  | some r =>
    rw [onStmt_of_some hr]
    exact .returns (h.name (by rw [hr]; rfl))

theorem Adds.reworked_applyStmts (h : p.Adds A around) (ss : List Stmt) :
    Reworked A around (.tree (.many .stmt)) (.ofList ss) (.ofList (p.applyStmts ss)) := by
  refine (h.reworked_onStmts ss).trans ?_
  rw [applyStmts_eq]
  have put := Reworked.inserted (p.gap_position (ss.map p.onStmt)) h.prologue
  rwa [take_append_drop] at put

theorem Adds.reworked_applyBody (h : p.Adds A around) (b : FuncBody) :
    Reworked A around (.tree .funcBody) b (p.applyBody b) := by
  match b with
  | FuncBody.block ss =>
    have stmts := h.reworked_applyStmts ss.toList
    rw [Tree.ofList_toList] at stmts
    exact .node rfl rfl (.partsCons stmts .refl)
  | FuncBody.expr value =>
    change Reworked _ _ _ _ (if p.keepsExpression then _ else _)
    split
    · cases hr : p.result with
      | none => exact .refl
      | some r => exact .node rfl rfl (.partsCons (.checked (h.result r hr)) .refl)
    · have value' := h.reworked_onStmts [Synthetic.returnStmt p.loc value]
      rw [map_singleton, onStmt_returnStmt] at value'
      refine .trans .returned (.node rfl rfl (.partsCons (value'.trans ?_) .refl))
      exact .inserted .start h.prologue

theorem Adds.reworked_apply (h : p.Adds A around) (f : Func) :
    Reworked A around (.tree .func) f (p.apply f) := by
  match f with
  | Func.mk mark form typeParams params result .absent => exact .refl
  | Func.mk mark form typeParams params result (.present b) =>
    exact .node rfl rfl (.partsCons .refl (.partsCons .refl (.partsCons .refl (.partsCons
      (.node rfl rfl (.partsCons (h.reworked_applyBody b) .refl)) .refl))))

end FuncPlan

/-! ### Members of classes -/

namespace MemberPlan

/-- Everything that the plan adds to a member may be added. -/
def Adds (A : Addition) (around : List Around) : MemberPlan → Prop
  | keep => True
  | check plan => plan.Adds A around
  | decorate d => A around .decorator d

theorem Adds.reworked_apply {p : MemberPlan} {m : ClassMember} (h : p.Adds A (m.around around)) :
    Reworked A around (.tree .classMember) m (p.apply m) := by
  cases p with
  | keep => exact .refl
  | check plan =>
    match m, h with
    | ClassMember.mk mark form decorators key type (MemberVal.function fm kind f), h =>
      have func := FuncPlan.Adds.reworked_apply h f
      refine .node rfl (by cases kind <;> rfl) (.partsCons .refl (.partsCons .refl (.partsCons .refl
        (.partsCons (.node rfl rfl (.partsCons func .refl)) .refl))))
    | ClassMember.mk _ _ _ _ _ (MemberVal.property _), _
    | ClassMember.mk _ _ _ _ _ (MemberVal.index _ _ _ _), _ => exact .refl
  | decorate d =>
    match m, h with
    | ClassMember.mk mark form decorators key type val, h =>
      exact .node rfl rfl (.partsCons (.addFront (by decide) h decorators) .refl)

end MemberPlan

/-- Everything that plans add to members may be added. -/
def AddsAll (A : Addition) (around : List Around) : List MemberPlan → List ClassMember → Prop
  | p :: ps, m :: ms => p.Adds A (m.around around) ∧ AddsAll A around ps ms
  | _, _ => True

theorem AddsAll.reworked_applyMembers {plans} (h : AddsAll A around plans ms) :
    Reworked A around (.list .classMember) ms (applyMembers plans ms) := by
  induction plans generalizing ms with
  | nil => exact .refl
  | cons p plans ih =>
    cases ms with
    | nil => exact .refl
    | cons m ms => exact .listCons h.1.reworked_apply (ih h.2)

/-! ### Constructors -/

/-- The statements around the call of `super` may be added. -/
structure ParamStmts.Adds (A : Addition) (around : List Around) (p : ParamStmts) : Prop where
  before : A around .stmt p.before
  after : ∀ s ∈ p.after, A around .stmt s

theorem ParamStmts.Adds.reworked_apply {p : ParamStmts} (h : p.Adds A around) (ss : List Stmt) :
    Reworked A around (.tree (.many .stmt)) (.ofList ss) (.ofList (p.apply ss)) := by
  rw [apply]
  cases index : superIndex? ss with
  | none =>
    have put : Reworked A around (.tree (.many .stmt)) (.ofList ([] ++ ss))
        (.ofList ([] ++ (p.before :: p.after) ++ ss)) :=
      .inserted .start (forall_mem_cons.2 ⟨h.before, h.after⟩)
    exact put
  | some i =>
    obtain ⟨s, super', rest, -⟩ := superIndex_eq_some index
    have first : Reworked A around (.tree (.many .stmt)) (.ofList (ss.take i ++ ss.drop i))
        (.ofList (ss.take i ++ [p.before] ++ ss.drop i)) :=
      .inserted (.beforeSuper (s := s) (by simp [rest]) super') (by simpa using h.before)
    have second : Reworked A around (.tree (.many .stmt))
        (.ofList (ss.take i ++ [p.before] ++ [s] ++ ss.drop (i + 1)))
        (.ofList (ss.take i ++ [p.before] ++ [s] ++ p.after ++ ss.drop (i + 1))) :=
      .inserted (.afterSuper (s := s) (by simp) super') h.after
    rw [take_append_drop, rest, append_cons _ s] at first
    dsimp only
    rw [rest, take_succ_cons, take_zero]
    exact first.trans second

namespace ConstructorPlan

/-- Everything that the plan adds to the constructor may be added. -/
structure Adds (A : Addition) (around : List Around) (p : ConstructorPlan) : Prop where
  params : ∀ ps ∈ p.params, ps.Adds A around
  implemented : ∀ s ∈ p.implemented, A around .stmt s

variable {p : ConstructorPlan}

theorem Adds.reworked_applyStmts (h : p.Adds A around) (ss : List Stmt) :
    Reworked A around (.tree (.many .stmt)) (.ofList ss) (.ofList (p.applyStmts ss)) := by
  have last (ss : List Stmt) : Reworked A around (.tree (.many .stmt)) (.ofList ss)
      (.ofList (ss ++ p.implemented)) := by
    have put : Reworked A around (.tree (.many .stmt)) (.ofList (ss ++ []))
        (.ofList (ss ++ p.implemented ++ [])) :=
      .inserted .stop h.implemented
    rwa [append_nil, append_nil] at put
  rw [applyStmts]
  cases hp : p.params with
  | none => exact last ss
  | some ps => exact ((h.params ps hp).reworked_apply ss).trans (last _)

variable {m : ClassMember}

theorem Adds.reworked_applyMember (h : p.Adds A (m.around around)) :
    Reworked A around (.tree .classMember) m (p.applyMember m) := by
  match m, h with
  | ClassMember.mk mark form decorators key type (MemberVal.function fm kind
      (Func.mk fmark fform typeParams params result (.present (FuncBody.block ss)))), h =>
    have stmts := h.reworked_applyStmts ss.toList
    rw [Tree.ofList_toList] at stmts
    have func : Reworked A _ (.tree .func)
        (Func.mk fmark fform typeParams params result (.present (FuncBody.block ss)))
        (Func.mk fmark fform typeParams params result
          (.present (FuncBody.block (.ofList (p.applyStmts ss.toList))))) :=
      .node rfl rfl (.partsCons .refl (.partsCons .refl (.partsCons .refl (.partsCons
        (.node rfl rfl (.partsCons (.node rfl rfl (.partsCons stmts .refl)) .refl)) .refl))))
    exact .node rfl (by cases kind <;> rfl) (.partsCons .refl (.partsCons .refl (.partsCons .refl
      (.partsCons (.node rfl rfl (.partsCons func .refl)) .refl))))
  | ClassMember.mk _ _ _ _ _ (MemberVal.function _ _ (Func.mk _ _ _ _ _ .absent)), _
  | ClassMember.mk _ _ _ _ _ (MemberVal.function _ _
      (Func.mk _ _ _ _ _ (.present (FuncBody.expr _)))), _
  | ClassMember.mk _ _ _ _ _ (MemberVal.property _), _
  | ClassMember.mk _ _ _ _ _ (MemberVal.index _ _ _ _), _ => exact .refl

theorem reworked_modify {g} (hg : ∀ m ∈ ms[i]?, Reworked A around (.tree .classMember) m (g m)) :
    Reworked A around (.list .classMember) ms (ms.modify i g) := by
  induction ms generalizing i with
  | nil =>
    rw [modify_nil]
    exact .refl
  | cons m ms ih =>
    cases i with
    | zero => exact .listCons (hg m rfl) .refl
    | succ i => exact .listCons .refl (ih hg)

theorem around_of_constructor (h : m.isConstructor = true) (around : List Around) :
    m.around around = .ofMember false true :: around := by
  have static : m.isStatic = false := by
    match m, h with
    | ClassMember.mk _ form _ _ _ _, h =>
      rw [ClassMember.isConstructor, Bool.and_eq_true, Bool.and_eq_true, Bool.not_eq_true'] at h
      exact h.1.1
  change Around.ofMember m.isStatic m.isConstructor :: around = _
  rw [static, h]

theorem Adds.reworked_apply (h : p.Adds A (.ofMember false true :: around)) {derived}
    (made : A around .classMember (defaultConstructor p.loc derived)) (ms : List ClassMember) :
    Reworked A around (.tree (.many .classMember)) (.ofList ms) (.ofList (p.apply derived ms)) := by
  have change' (m : ClassMember) (hm : m.isConstructor = true) :
      Reworked A around (.tree .classMember) m (p.applyMember m) := by
    rw [← around_of_constructor hm] at h
    exact h.reworked_applyMember
  rw [apply]
  split
  · exact .refl
  · rw [ensure]
    cases found : ms.findIdx? isTarget with
    | some i =>
      refine .many (by decide) (reworked_modify fun m hm => change' m ?_)
      obtain ⟨hi, target, -⟩ := findIdx?_eq_some_iff_getElem.1 found
      rw [getElem?_eq_getElem hi] at hm
      obtain rfl := Option.some.inj hm
      rw [isTarget, Bool.and_eq_true] at target
      exact target.1
    | none =>
      refine .trans (.front (by decide) made) (.many (by decide) (reworked_modify fun m hm => ?_))
      obtain rfl := Option.some.inj hm
      exact change' _ (by cases derived <;> rfl)

end ConstructorPlan

/-! ### Classes -/

/-- Everything that the plan adds to a class may be added. -/
structure ClassPlan.Adds (A : Addition) (around : List Around) (p : ClassPlan) (decl : ClassDecl) :
    Prop where
  members : AddsAll A (decl.around around) p.members decl.memberList
  reflection : ∀ f ∈ p.finish, A (decl.around around) .decorator f.reflection
  symbol : ∀ f ∈ p.finish, ∀ m ∈ f.symbol, A (decl.around around) .classMember m
  made : ∀ f ∈ p.finish, ∀ derived, A (decl.around around) .classMember
    (ConstructorPlan.defaultConstructor f.constructor.loc derived)
  constructor : ∀ f ∈ p.finish, f.constructor.Adds A (.ofMember false true :: decl.around around)

theorem ClassFinish.reworked_members {f : ClassFinish} {derived}
    (constructor : f.constructor.Adds A (.ofMember false true :: around))
    (made : A around .classMember (ConstructorPlan.defaultConstructor f.constructor.loc derived))
    (symbol : ∀ m ∈ f.symbol, A around .classMember m) (ms : List ClassMember) :
    Reworked A around (.tree (.many .classMember)) (.ofList ms)
      (.ofList (f.symbol.toList ++ f.constructor.apply derived ms)) := by
  have first := constructor.reworked_apply made ms
  cases hs : f.symbol with
  | none => exact first
  | some m => exact first.trans (.front (by decide) (symbol m hs))

theorem ClassPlan.Adds.reworked_apply {p : ClassPlan} {decl} (h : p.Adds A around decl) :
    Reworked A around (.tree .classDecl) decl (p.apply decl) := by
  match decl, h with
  | ClassDecl.mk mark form decorators name typeParams base baseArgs implemented members, h =>
    have plans : AddsAll A _ p.members members.toList := h.members
    have kept := Reworked.many (by decide) plans.reworked_applyMembers
    rw [Tree.ofList_toList] at kept
    rw [apply]
    dsimp only
    cases hf : p.finish with
    | none =>
      exact .node rfl rfl (.partsCons .refl (.partsCons .refl (.partsCons .refl (.partsCons .refl
        (.partsCons .refl (.partsCons .refl (.partsCons kept .refl)))))))
    | some f =>
      have front := Reworked.addFront (by decide) (h.reflection f hf) decorators
      have all := kept.trans (ClassFinish.reworked_members (h.constructor f hf)
        (h.made f hf base.toOption.isSome) (h.symbol f hf) _)
      exact .node rfl rfl (.partsCons front (.partsCons .refl (.partsCons .refl (.partsCons .refl
        (.partsCons .refl (.partsCons .refl (.partsCons all .refl)))))))

/-! ### Variables -/

/-- Everything that the plan adds may be added, and it drops nothing. -/
def InitPlan.Adds (A : Addition) (around : List Around) : InitPlan → Prop
  | keep => True
  | check reflection => A around .expr reflection
  | drop => False

theorem InitPlan.Adds.reworked_apply {p : InitPlan} (h : p.Adds A around) (d : Declarator) :
    Reworked A around (.tree .declarator) d (p.applyDeclarator d) := by
  match p, d, h with
  | .keep, Declarator.mk _ _ _ _, _ => exact .refl
  | .check _, Declarator.mk _ _ _ .absent, _ => exact .refl
  | .check _, Declarator.mk _ _ _ (.present _), h =>
    exact .node rfl rfl (.partsCons .refl (.partsCons .refl (.partsCons
      (.node rfl rfl (.partsCons (.checked h) .refl)) .refl)))

theorem reworked_applyInits {plans} (h : ∀ p ∈ plans, p.Adds A around) (ds : List Declarator) :
    Reworked A around (.list .declarator) ds (applyInits plans ds) := by
  induction plans generalizing ds with
  | nil => exact .refl
  | cons p plans ih =>
    rw [forall_mem_cons] at h
    cases ds with
    | nil => exact .refl
    | cons d ds => exact .listCons (h.1.reworked_apply d) (ih h.2 ds)

theorem VarDecl.reworked_applyInits {plans} (h : ∀ p ∈ plans, p.Adds A around) (d : VarDecl) :
    Reworked A around (.tree .varDecl) d (d.applyInits plans) := by
  match d with
  | VarDecl.mk mark form ds =>
    have inits := Reworked.many (by decide) (Reify.reworked_applyInits h ds.toList)
    rw [Tree.ofList_toList] at inits
    exact .node rfl rfl (.partsCons inits .refl)

/-! ### Statements -/

/-- Everything that the plan adds to a statement may be added. -/
def StmtPlan.Adds (A : Addition) (around : List Around) : StmtPlan → Stmt → Prop
  | keep, _ => True
  | func plan, _ => plan.Adds A around
  | inits plans, _ => ∀ p ∈ plans, p.Adds A around
  | classDecl plan, Stmt.classDecl _ decl => plan.Adds A around decl
  | classDecl _, _ => True

/-- **What a plan does** to a statement whose parts have been walked. -/
theorem StmtPlan.Adds.reworked_apply {p : StmtPlan} {s} (h : p.Adds A around s) :
    Reworked A around (.tree .stmt) s (p.apply s) := by
  match s with
  | .node (c := .stmt) form marks ts =>
    cases p with
    | keep => exact .refl
    | func plan =>
      cases form with
      | funcDecl =>
        match marks, ts with
        | .one mark, .cons (FuncDecl.mk m form name f) .nil =>
          have func := FuncPlan.Adds.reworked_apply h f
          exact .node rfl rfl (.partsCons (.node rfl rfl (.partsCons .refl (.partsCons func .refl)))
            .refl)
      | _ => exact .refl
    | inits plans =>
      cases form with
      | varDecl =>
        match marks, ts with
        | .one mark, .cons decl .nil =>
          exact .node rfl rfl (.partsCons (VarDecl.reworked_applyInits h decl) .refl)
      | _ => exact .refl
    | _ =>
      cases form with
      | classDecl =>
        match marks, ts, h with
        | .one mark, .cons decl .nil, h =>
          exact .node rfl rfl (.partsCons (ClassPlan.Adds.reworked_apply h) .refl)
      | _ => exact .refl

/-! ### Surroundings of walked trees -/

theorem Alike.around_classDecl {d d' : ClassDecl} (h : Alike (.tree .classDecl) d d')
    (around : List Around) : d'.around around = d.around around := by
  match d, h with
  | ClassDecl.mk _ _ _ _ _ _ _ _ _, h =>
    obtain ⟨ts', rfl, parts⟩ := h.node_inv rfl
    match parts with
    | .partsCons _ (.partsCons names (.partsCons typeParams (.partsCons _ (.partsCons _
        (.partsCons _ (.partsCons _ .partsNil)))))) =>
      exact congrArg₂ (fun name params => Around.ofClass name params :: around) names.name?_eq
        typeParams.typeParamNames_eq

theorem Alike.around_member {m m' : ClassMember} (h : Alike (.tree .classMember) m m')
    (around : List Around) : m'.around around = m.around around :=
  congrArg₂ (fun static constructor => Around.ofMember static constructor :: around) h.isStatic_eq
    h.isConstructor_eq

/-- A walked tree surrounds its parts as the tree did. -/
theorem SameRoot.around_eq {c} {t t' : Tree c} (h : SameRoot t t') (around : List Around) :
    t'.around around = t.around around := by
  have alike := Alike.of_root h
  cases h with
  | @mk form marks ts ts' _ =>
    cases c with
    | classDecl => exact alike.around_classDecl around
    | classMember => exact alike.around_member around
    | expr =>
      cases form with
      | classExpr =>
        match marks, ts, ts' with
        | .two _, .cons _ (.cons _ (.cons _ (.cons _ .nil))),
          .cons _ (.cons _ (.cons _ (.cons _ .nil))) => rfl
      | _ => rfl
    | _ => rfl

end Reify
