import Reify.Proofs.Check.Applied
import Reify.Proofs.Check.Passing
import Reify.Proofs.Check.Request

/-!
# What plans add is found in the result

Reworking keeps the expressions that occur in a tree (`Reworked.exprs_subset`), so applying a plan
does.  It adds those of the plan, provided that the tree has room for them: a function has a body, a
class as many members as there are plans.
Walked trees have the outline of what the plans were made for, so nothing is lost.
-/

namespace Reify

open List Tree

/-! ### Returned values -/

theorem Children.Related.exprs {cs} {ts ts' : Children cs}
    (h : ts.Related (fun _ t t' => t.exprs ⊆ t'.exprs) ts') : ts.exprs ⊆ ts'.exprs := by
  induction h with
  | nil => exact List.Subset.refl _
  | cons head _ ih => exact Children.exprs_mono head ih

/-- Changing the values that are returned keeps what occurs, if the change does. -/
theorem relatesReturns_exprs {f : Loc → Expr → Expr} (hf : ∀ loc e, e.exprs ⊆ (f loc e).exprs) :
    RelatesReturns f (fun _ t t' => t.exprs ⊆ t'.exprs) where
  same _ := List.Subset.refl _
  value site e := by
    refine exprs_mono rfl (Children.exprs_mono ?_ (List.Subset.refl _))
    simpa only [exprs_present] using hf _ e
  node {c} _ _ _ _ hc parts := by
    refine exprs_mono ?_ parts.exprs
    cases c with
    | expr => cases hc
    | _ => rfl

/-! ### What occurs stays -/

/-- The expressions that occur in a thing of a shape. -/
def Shape.exprs : (k : Shape) → k.Of → List Expr
  | .tree _, t => t.exprs
  | .parts _, ts => ts.exprs
  | .list _, ts => ts.flatMap Tree.exprs

theorem flatMap_cons_mono {α β γ : Type} {f} {g : β → List γ} {x y} {xs : List α} {ys}
    (head : f x ⊆ g y) (tail : xs.flatMap f ⊆ ys.flatMap g) :
    (x :: xs).flatMap f ⊆ (y :: ys).flatMap g := by
  rw [flatMap_cons, flatMap_cons]
  exact append_subset.2 ⟨subset_append_of_subset_left _ head,
    subset_append_of_subset_right _ tail⟩

/-- **What occurs in a tree occurs in what it is reworked into.** -/
theorem Reworked.exprs_subset {A around k x x'} (h : Reworked A around k x x') :
    k.exprs x ⊆ k.exprs x' := by
  induction h with
  | refl => exact List.Subset.refl _
  | trans _ _ ih ih' => exact List.Subset.trans ih ih'
  | @node _ c form marks ts ts' hc _ _ ih =>
    have own : (Tree.node form marks ts).ownExprs = [] := by
      cases c with
      | expr => cases hc
      | _ => rfl
    exact exprs_mono own ih
  | many _ _ ih => exact exprs_ofList_mono ih
  | inserted _ _ =>
    refine exprs_ofList_mono ?_
    simp only [flatMap_append]
    exact append_subset.2 ⟨by simp, by simp⟩
  | front _ _ => exact exprs_ofList_mono (subset_append_right _ _)
  | checked _ => exact fun a ha => mem_exprs_checked ha
  | @returned _ loc e =>
    intro a ha
    rw [Shape.exprs, show (FuncBody.expr e).exprs = e.exprs from append_nil _] at ha
    exact mem_exprs_block (mem_singleton.2 rfl) (mem_exprs_returnStmt ha)
  | partsCons _ _ head tail => exact Children.exprs_mono head tail
  | listCons _ _ head tail => exact flatMap_cons_mono head tail
  | _ =>
    refine exprs_ofList_mono fun e he => ?_
    obtain ⟨s, hs, he⟩ := mem_flatMap.1 he
    refine mem_flatMap.2 ⟨_, mem_map_of_mem hs, ?_⟩
    exact (relatesReturns_exprs fun _ _ _ ha => mem_exprs_checked ha).tree s rfl he

/-- Whatever is added. -/
def Addition.any : Addition := fun _ _ _ => True

/-! ### Functions -/

namespace FuncPlan

theorem prologue_subset (p : FuncPlan) (ss : List Stmt) : p.prologue ⊆ p.applyStmts ss := by
  rw [applyStmts_eq]
  exact fun s hs => mem_append_left _ (mem_append_right _ hs)

theorem exprs_prologue (p : FuncPlan) : p.exprs ⊆ p.prologue.flatMap Tree.exprs := by
  intro e he
  rw [exprs, mem_append, mem_append] at he
  rw [prologue, flatMap_append, flatMap_append, mem_append, mem_append]
  refine he.imp_left (Or.imp_right fun he => ?_)
  obtain ⟨r, hr, he⟩ := mem_flatMap.1 he
  rw [Option.mem_toList.1 hr]
  exact mem_flatMap.2 ⟨_, mem_singleton.2 rfl, mem_exprs_constStmt he⟩

/-- What the plan adds occurs in the body. -/
theorem mem_exprs_applyBody (p : FuncPlan) (b : FuncBody) : p.exprs ⊆ (p.applyBody b).exprs := by
  obtain ⟨form, ⟨⟩, ts⟩ := b
  cases form with
  | block =>
    obtain _ | ⟨ss, _ | _⟩ := ts
    intro e he
    obtain ⟨s, hs, he⟩ := mem_flatMap.1 (p.exprs_prologue he)
    exact mem_exprs_block (p.prologue_subset ss.toList hs) he
  | _ =>
    obtain _ | ⟨value, _ | _⟩ := ts
    change _ ⊆ Tree.exprs (if p.keepsExpression then _ else _)
    split
    case isTrue keeps =>
      rw [keepsExpression, Bool.and_eq_true, List.isEmpty_iff, List.isEmpty_iff] at keeps
      rw [exprs, keeps.1, keeps.2]
      cases p.result with
      | none => exact nil_subset _
      | some r =>
        refine fun e he => mem_exprs_of_parts (Children.mem_exprs_head (mem_exprs_assertion ?_))
        simpa using he
    case isFalse =>
      intro e he
      obtain ⟨s, hs, he⟩ := mem_flatMap.1 (p.exprs_prologue he)
      exact mem_exprs_block (mem_append_left _ hs) he

/-- What is added to a function that has a body occurs in it. -/
theorem mem_exprs_apply (p : FuncPlan) {mark form typeParams params result} {b : FuncBody} :
    p.exprs ⊆ (p.apply (Func.mk mark form typeParams params result (.present b))).exprs :=
  fun _ he => Func.mem_exprs_body (mem_exprs_present (p.mem_exprs_applyBody b he))

end FuncPlan

variable {s : Scope} {f' : Func} {role : Role} {ms : List ClassMember} {m' : ClassMember}
  {d : Declarator} {ds : List Declarator} {decl : ClassDecl} {merged : List TypeMember}
  {whole : Option Pending} {gs : List Generics}

/-- A function that something is planned for has a body, and keeps it. -/
theorem funcPlanOf_hasBody {f plan} (planned : funcPlanOf s role f = .ok (some plan))
    (alike : Alike (.tree .func) f f') :
    ∃ mark form typeParams params result b,
      f' = Func.mk mark form typeParams params result (.present b) := by
  match f, planned, alike with
  | Func.mk mark form typeParams params result .absent, planned, _ => cases planned
  | Func.mk mark form typeParams params result (.present b), _, alike =>
    obtain ⟨typeParams', params', result', body', rfl, body⟩ := alike.func_inv
    rcases body.maybe_inv with ⟨absent, -⟩ | ⟨b, b', -, rfl, -⟩
    · cases absent
    · exact ⟨_, _, _, _, _, _, rfl⟩

/-! ### Members of classes -/

/-- A member that is a function with a body. -/
inductive ClassMember.HasBody : ClassMember → Prop where
  | mk {mark form decorators key type fm kind fmark fform typeParams params result body} :
      HasBody (ClassMember.mk mark form decorators key type (MemberVal.function fm kind
        (Func.mk fmark fform typeParams params result (.present body))))

namespace MemberPlan

/-- The member has room for what the plan adds. -/
def Fits : MemberPlan → ClassMember → Prop
  | check _, m => m.HasBody
  | _, _ => True

theorem Fits.exprs_subset {p : MemberPlan} {m} (h : p.Fits m) : p.exprs ⊆ (p.apply m).exprs := by
  intro e he
  cases p with
  | keep => cases he
  | check plan =>
    cases h with
    | mk =>
      exact mem_exprs_of_parts (Children.mem_exprs_tail (Children.mem_exprs_tail
        (Children.mem_exprs_tail (Children.mem_exprs_head (mem_exprs_of_parts
          (Children.mem_exprs_head (plan.mem_exprs_apply he)))))))
  | decorate d =>
    match m with
    | ClassMember.mk mark form decorators key type val =>
      exact mem_exprs_of_parts (Children.mem_exprs_head
        (mem_exprs_ofList mem_cons_self he))

end MemberPlan

theorem mem_exprs_applyMembers {plans} (h : Forall₂ MemberPlan.Fits plans ms) :
    plans.flatMap MemberPlan.exprs ⊆ (applyMembers plans ms).flatMap Tree.exprs := by
  induction h with
  | nil => exact List.Subset.refl _
  | cons fits _ ih => exact flatMap_cons_mono fits.exprs_subset ih

/-! ### Constructors -/

/-- The statements that keep type parameters are among those of the constructor. -/
theorem ParamStmts.subset_apply (p : ParamStmts) (ss : List Stmt) :
    p.before :: p.after ⊆ p.apply ss := by
  intro s hs
  rw [apply]
  cases superIndex? ss with
  | none => exact mem_append_left _ hs
  | some i =>
    simp only [mem_append, mem_singleton]
    rcases mem_cons.1 hs with rfl | hs
    · exact .inl (.inl (.inl (.inr rfl)))
    · exact .inl (.inr hs)

namespace ConstructorPlan

variable (p : ConstructorPlan)

theorem adds_any (around : List Around) : p.Adds .any around :=
  ⟨fun _ _ => ⟨trivial, fun _ _ => trivial⟩, fun _ _ => trivial⟩

theorem exprs_apply (derived : Bool) (ms : List ClassMember) :
    ms.flatMap Tree.exprs ⊆ (p.apply derived ms).flatMap Tree.exprs := by
  have reworked : Reworked .any [] (.tree (.many .classMember)) (.ofList ms)
      (.ofList (p.apply derived ms)) :=
    (p.adds_any _).reworked_apply trivial ms
  rw [← exprs_ofList, ← exprs_ofList]
  exact reworked.exprs_subset

theorem mem_exprs_applyStmts (ss : List Stmt) :
    p.exprs ⊆ (p.applyStmts ss).flatMap Tree.exprs := by
  rw [applyStmts, exprs]
  cases p.params with
  | none =>
    rw [flatMap_append]
    exact subset_append_right _ _
  | some ps =>
    rw [flatMap_append, Option.toList_some, flatMap_singleton]
    have added : ps.exprs ⊆ (ps.apply ss).flatMap Tree.exprs := by
      intro e he
      obtain ⟨s, hs, he⟩ := mem_flatMap.1
        (show e ∈ (ps.before :: ps.after).flatMap Tree.exprs from he)
      exact mem_flatMap.2 ⟨s, ps.subset_apply ss hs, he⟩
    exact append_subset.2
      ⟨subset_append_of_subset_left _ added, subset_append_right _ _⟩

theorem mem_exprs_applyMember {m} (h : m.hasBlock = true) : p.exprs ⊆ (p.applyMember m).exprs := by
  match m, h with
  | ClassMember.mk mark form decorators key type (MemberVal.function fm kind
      (Func.mk fmark fform typeParams params result (.present (FuncBody.block ss)))), _ =>
    intro e he
    obtain ⟨s, hs, he⟩ := mem_flatMap.1 (p.mem_exprs_applyStmts ss.toList he)
    have body := mem_exprs_block hs he
    exact mem_exprs_of_parts (Children.mem_exprs_tail (Children.mem_exprs_tail
      (Children.mem_exprs_tail (Children.mem_exprs_head (mem_exprs_of_parts
        (Children.mem_exprs_head (Func.mem_exprs_body (mem_exprs_present body))))))))

/-- Where the constructor can take statements, or has to be made, what the plan adds occurs in it. -/
theorem mem_exprs_apply (derived : Bool) (h : takesStmts ms = true) :
    p.exprs ⊆ (p.apply derived ms).flatMap Tree.exprs := by
  rw [apply]
  split
  case isTrue empty =>
    rw [isEmpty, Bool.and_eq_true, Option.isNone_iff_eq_none, List.isEmpty_iff] at empty
    rw [exprs, empty.1, empty.2]
    exact nil_subset _
  case isFalse =>
    have made : ∃ m, (p.ensure derived ms).1[(p.ensure derived ms).2]? = some m ∧
        m.hasBlock = true := by
      rw [ensure]
      cases found : ms.findIdx? isTarget with
      | none => cases derived <;> exact ⟨_, rfl, rfl⟩
      | _ =>
        obtain ⟨hi, rfl⟩ := findIdx?_eq_some_iff_findIdx_eq.1 found
        rw [takesStmts, find?_eq_getElem?_findIdx] at h
        rw [getElem?_eq_getElem hi] at h ⊢
        exact ⟨_, rfl, h⟩
    obtain ⟨m, hm, block⟩ := made
    have there := getElem?_modify p.applyMember (p.ensure derived ms).2
      (p.ensure derived ms).1 (p.ensure derived ms).2
    rw [hm] at there
    intro e he
    refine mem_flatMap.2 ⟨_, mem_of_getElem? there, ?_⟩
    dsimp only
    rw [if_pos rfl]
    exact p.mem_exprs_applyMember block he

end ConstructorPlan

/-! ### Classes -/

/-- A member that is the constructor if the other is, with statements in its body if the other has
them. -/
def ClassMember.Stands (m m' : ClassMember) : Prop :=
  ConstructorPlan.isTarget m' = ConstructorPlan.isTarget m ∧ (m.hasBlock = true → m'.hasBlock = true)

theorem Alike.stands {m : ClassMember} (h : Alike (.tree .classMember) m m') : m.Stands m' := by
  refine ⟨h.isTarget_eq, fun block => ?_⟩
  match m, block, h with
  | ClassMember.mk mark form decorators key type (MemberVal.function fm kind
      (Func.mk fmark fform typeParams params result (.present (FuncBody.block ss)))), _, h =>
    obtain ⟨decorators', key', type', val', rfl, -, val⟩ := h.member_inv
    obtain ⟨f', rfl, func⟩ := val.function_inv
    obtain ⟨typeParams', params', result', body', rfl, body⟩ := func.func_inv
    rcases body.maybe_inv with ⟨absent, -⟩ | ⟨b, b', present, rfl, bodies⟩
    · cases absent
    · cases present
      rcases bodies.body_inv with ⟨_, ss', -, rfl⟩ | ⟨e, block⟩
      · rfl
      · cases block

theorem MemberPlan.stands (p : MemberPlan) (m : ClassMember) : m.Stands (p.apply m) := by
  match p, m with
  | .keep, m => exact ⟨rfl, id⟩
  | .decorate _, ClassMember.mk _ _ _ _ _ (MemberVal.property _)
  | .decorate _, ClassMember.mk _ _ _ _ _ (MemberVal.index _ _ _ _)
  | .check _, ClassMember.mk _ _ _ _ _ (MemberVal.property _)
  | .check _, ClassMember.mk _ _ _ _ _ (MemberVal.index _ _ _ _)
  | .check _, ClassMember.mk _ _ _ _ _ (MemberVal.function _ _ (Func.mk _ _ _ _ _ .absent)) =>
    exact ⟨rfl, id⟩
  | .decorate _, ClassMember.mk _ _ _ _ _ (MemberVal.function _ kind (Func.mk _ _ _ _ _ body)) =>
    exact ⟨by cases kind <;> rfl, match body with
      | .absent | .present (FuncBody.block _) | .present (FuncBody.expr _) => id⟩
  | .check _, ClassMember.mk _ _ _ _ _ (MemberVal.function _ kind
      (Func.mk _ _ _ _ _ (.present (FuncBody.block _)))) =>
    exact ⟨by cases kind <;> rfl, fun _ => rfl⟩
  | .check _, ClassMember.mk _ _ _ _ _ (MemberVal.function _ kind
      (Func.mk _ _ _ _ _ (.present (FuncBody.expr _)))) =>
    exact ⟨by cases kind <;> rfl, nofun⟩

theorem takesStmts_of_stands {ms'} (h : Forall₂ ClassMember.Stands ms ms')
    (takes : takesStmts ms = true) : takesStmts ms' = true := by
  induction h with
  | nil => rfl
  | @cons m m' ms ms' stands _ ih =>
    rw [takesStmts, find?_cons] at takes ⊢
    rw [stands.1]
    cases target : ConstructorPlan.isTarget m with
    | true =>
      rw [target] at takes
      exact stands.2 takes
    | false =>
      rw [target] at takes
      exact ih takes

theorem takesStmts_applyMembers (plans : List MemberPlan) (takes : takesStmts ms = true) :
    takesStmts (applyMembers plans ms) = true := by
  refine takesStmts_of_stands ?_ takes
  clear takes
  induction plans generalizing ms with
  | nil => exact forall₂_same.2 fun _ _ => ⟨rfl, id⟩
  | cons p plans ih =>
    cases ms with
    | nil => exact .nil
    | cons m ms => exact .cons (p.stands m) ih

theorem PlansMember.fits {className names w w' m plan} (h : PlansMember className names w m plan w')
    (alike : Alike (.tree .classMember) m m') : plan.Fits m' := by
  cases h with
  | @func _ mark form decorators key type fm kind f _ plan hm _ planned =>
    subst hm
    cases plan with
    | none => trivial
    | _ =>
      obtain ⟨decorators', key', type', val', rfl, -, val⟩ := alike.member_inv
      obtain ⟨f', rfl, func⟩ := val.function_inv
      obtain ⟨_, _, _, _, _, _, rfl⟩ := funcPlanOf_hasBody planned func
      exact .mk
  | _ => trivial

theorem PlansMembers.fits {className names w w'} {ms ms' : List ClassMember} {plans}
    (h : PlansMembers className names w ms plans w')
    (alike : Forall₂ (Alike (.tree .classMember)) ms ms') : Forall₂ MemberPlan.Fits plans ms' := by
  induction h generalizing ms' with
  | nil =>
    cases alike
    exact .nil
  | cons head _ ih =>
    cases alike with
    | cons first rest => exact .cons (head.fits first) (ih rest)

namespace ClassPlan

variable {plans : List MemberPlan} {f : ClassFinish} {mark : Mark} {form : ClassForm}
  {decorators : Many .decorator} {name : Maybe .name} {typeParams : Maybe (.many .typeParam)}
  {base : Maybe .expr} {baseArgs : Maybe (.many .type)} {implemented : Many .type}
  {members : Many .classMember}

theorem mem_exprs_reflection :
    f.reflection.exprs ⊆ (apply { members := plans, finish := some f } (ClassDecl.mk mark form
      decorators name typeParams base baseArgs implemented members)).exprs :=
  fun _ he => mem_exprs_of_parts (Children.mem_exprs_head
    (mem_exprs_ofList mem_cons_self he))

/-- What occurs in the members that the plan leads to occurs in the class. -/
theorem mem_exprs_members {e}
    (h : e ∈ (f.constructor.apply base.toOption.isSome (applyMembers plans members.toList)).flatMap
      Tree.exprs) :
    e ∈ (apply { members := plans, finish := some f } (ClassDecl.mk mark form decorators name
      typeParams base baseArgs implemented members)).exprs := by
  have all : e ∈ (Tree.ofList (f.symbol.toList ++ f.constructor.apply base.toOption.isSome
      (applyMembers plans members.toList))).exprs := by
    rw [exprs_ofList, flatMap_append]
    exact mem_append_right _ h
  exact mem_exprs_of_parts (Children.mem_exprs_tail (Children.mem_exprs_tail
    (Children.mem_exprs_tail (Children.mem_exprs_tail (Children.mem_exprs_tail
      (Children.mem_exprs_tail (Children.mem_exprs_head all)))))))

end ClassPlan

/-! ### Variables -/

namespace InitPlan

/-- The variable has an initializer, if the plan checks one. -/
def Fits : InitPlan → Declarator → Prop
  | check _, Declarator.mk _ _ _ init => init.toOption.isSome
  | _, _ => True

theorem Fits.exprs_subset {p : InitPlan} (h : p.Fits d) :
    p.exprs ⊆ (p.applyDeclarator d).exprs := by
  intro e he
  match p, d, h with
  | .check r, Declarator.mk mark binding type (.present init), _ =>
    exact mem_exprs_of_parts (Children.mem_exprs_tail (Children.mem_exprs_tail
      (Children.mem_exprs_head (mem_exprs_present (mem_exprs_assertion he)))))
  | .check r, Declarator.mk mark binding type .absent, h => cases h
  | .keep, _, _ => cases he
  | .drop, _, _ => cases he

end InitPlan

theorem mem_exprs_applyInits {plans} (h : Forall₂ InitPlan.Fits plans ds) :
    plans.flatMap InitPlan.exprs ⊆ (applyInits plans ds).flatMap Tree.exprs := by
  induction h with
  | nil => exact List.Subset.refl _
  | cons fits _ ih => exact flatMap_cons_mono fits.exprs_subset ih

theorem initPlanOf_fits {d' : Declarator} {plan} (h : initPlanOf s d = .ok plan)
    (alike : Alike (.tree .declarator) d d') : plan.Fits d' := by
  match d, h, alike with
  | Declarator.mk mark binding type .absent, h, _ =>
    have keep : plan = .keep := by
      rw [initPlanOf] at h
      cases ht : checked? type with
      | _ => exact (pure_eq_ok.1 (by rwa [ht] at h)).symm
    rw [keep]
    trivial
  | Declarator.mk mark binding type (.present init), h, alike =>
    obtain ⟨binding', type', init', rfl, inits⟩ := alike.declarator_inv
    rcases inits.maybe_inv with ⟨absent, -⟩ | ⟨e, e', -, rfl, -⟩
    · cases absent
    · cases plan <;> trivial

theorem initPlans_fit {ds' : List Declarator} {plans} (h : ds.mapM (initPlanOf s) = .ok plans)
    (alike : Forall₂ (Alike (.tree .declarator)) ds ds') : Forall₂ InitPlan.Fits plans ds' := by
  rw [mapM_eq_ok] at h
  induction h generalizing ds' with
  | nil =>
    cases alike
    exact .nil
  | cons head _ ih =>
    cases alike with
    | cons first rest => exact .cons (initPlanOf_fits head first) (ih rest)

namespace VarDecl

/-- What is reflected for a variable declaration is found in the walked declaration. -/
theorem answers {mark form ds} {d' : VarDecl} {plans}
    (h : ds.toList.mapM (initPlanOf s) = .ok plans)
    (alike : Alike (.tree .varDecl) (VarDecl.mk mark form ds) d') :
    Answered s ((VarDecl.mk mark form ds).requests s.generics) (d'.applyInits plans).exprs := by
  obtain ⟨ds', rfl, declarators⟩ := alike.varDecl_inv
  refine (initPlans_answers h).mono fun e he => ?_
  refine mem_exprs_of_parts (Children.mem_exprs_head ?_)
  rw [exprs_ofList]
  exact mem_exprs_applyInits (initPlans_fit h declarators) he

end VarDecl

/-! ### Statements -/

/-- What is reflected for a class is found in the walked class. -/
theorem ClassDecl.answers {w w₁} {decl' : ClassDecl}
    {reflection plans finish mark form decorators name typeParams base baseArgs implemented members}
    (hd : decl = ClassDecl.mk mark form decorators name typeParams base baseArgs implemented members)
    (reflected : w.context.scope.reflectClass mark.loc decl merged = .ok reflection)
    (planned : PlansMembers (ClassDecl.name? decl) (typeParams.toLists.map TypeParam.name) w
      members.toList plans w₁) (finished : planFinish w₁.context.scope reflection decl = .ok finish)
    (alike : Alike (.tree .classDecl) decl decl') :
    Answered w.context.scope (decl.requests w.context.scope.generics merged)
      (ClassPlan.apply { members := plans, finish := some finish } decl').exprs := by
  rw [planned.scope_eq] at finished
  have construct := planFinish_answers finished
  obtain ⟨checks, params, -, -, rfl⟩ := planFinish_ok hd finished
  subst hd
  obtain ⟨decorators', name', typeParams', base', baseArgs', implemented', members', rfl, alikes⟩ :=
    alike.classDecl_inv
  rw [ClassDecl.requests]
  split
  case isTrue => exact .nil
  case isFalse =>
    refine .append (.append (.of_emits ?_) ?_) ?_
    · refine (draws_reflectClass.emits reflected).mono fun e he => ClassPlan.mem_exprs_reflection ?_
      exact mem_exprs_decorator (mem_exprs_libraryCall (mem_singleton.2 rfl) he)
    · refine planned.answers.mono fun e he => ClassPlan.mem_exprs_members ?_
      exact ConstructorPlan.exprs_apply _ _ _ (mem_exprs_applyMembers (planned.fits alikes) he)
    · rw [ClassDecl.constructorRequests] at construct ⊢
      dsimp only at construct ⊢
      split
      case isFalse => exact .nil
      case isTrue takes =>
        rw [if_pos takes] at construct
        refine construct.mono fun e he => ClassPlan.mem_exprs_members ?_
        refine ConstructorPlan.mem_exprs_apply _ _ (takesStmts_applyMembers _ ?_) he
        exact takesStmts_of_stands (alikes.imp fun _ _ => Alike.stands) takes

/-- What is added to a statement and what follows it. -/
def StmtPlan.output (p : StmtPlan) (s : Stmt) (followers : List Stmt) : List Expr :=
  (p.apply s).exprs ++ followers.flatMap Tree.exprs

section

variable {w w' : Walker} {plan : StmtPlan} {fs : List Stmt}

theorem Stmt.requests_of_other {form : StmtForm} (h : form.isDeclaration = false)
    (marks : Marks (Form.width (c := .stmt) form)) (ts : Children (Form.arity (c := .stmt) form))
    (gs : List Generics) (whole : Option Pending) (merged : List TypeMember) :
    Stmt.requests gs whole merged (.node (c := .stmt) form marks ts) = [] := by
  cases form with
  | classDecl | funcDecl | varDecl | interfaceDecl | aliasDecl | enumDecl => cases h
  | _ => rfl

variable {m : Mark}

theorem Stmt.requests_interface {decl} :
    (Stmt.interfaceDecl m decl).requests gs whole merged =
      whole.toList.flatMap fun p => (Reflection.interfaceParts p).requests gs := rfl

theorem Stmt.requests_alias {mark form typeParams type} :
    (Stmt.aliasDecl m (AliasDecl.mk mark form typeParams type)).requests gs whole merged =
      if form.ambient then []
      else (Reflection.namedParts typeParams.toLists fun bound => [(bound, type)]).requests gs := rfl

/-- **What is reflected for a statement** is found in what comes out for it. -/
theorem Planned.emits {s s' : Stmt} (h : Planned w s plan fs w') (root : SameRoot s s') :
    Answered w.context.scope (s.requests w.context.scope.generics (w.context.frame.whole s)
      (w.context.frame.joined s)) (plan.output s' fs) := by
  cases h with
  | ambientClass hd ambient =>
    subst hd
    change Answered _ (if _ then _ else _) _
    rw [if_pos ambient]
    exact .nil
  | classDecl hd _ reflected planned finished =>
    cases root with
    | mk parts =>
    match parts with
    | .partsCons alike .partsNil =>
      refine (ClassDecl.answers hd reflected planned finished alike).mono fun e he => ?_
      exact mem_append_left _ (mem_exprs_of_parts (Children.mem_exprs_head he))
  | varDecl planned =>
    cases root with
    | mk parts =>
    match parts with
    | .partsCons alike .partsNil =>
      refine (VarDecl.answers planned alike).mono fun e he => ?_
      exact mem_append_left _ (mem_exprs_of_parts (Children.mem_exprs_head he))
  | ambientInterface ambient =>
    rw [Stmt.requests_interface, Frame.whole_interface rfl, ambient]
    exact .nil
  | classInterface ambient class' =>
    rw [Stmt.requests_interface, Frame.whole_interface rfl, ambient, class']
    exact .nil
  | mergedInterface ambient class' merged =>
    rw [Context.isMerged] at merged
    rw [Stmt.requests_interface, Frame.whole_interface rfl, ambient, class', merged]
    exact .nil
  | pendingInterface hd ambient class' merged pending =>
    rw [Context.isMerged] at merged
    rw [Stmt.requests_interface, Frame.whole_interface hd, ambient, class', merged, pending]
    exact .nil
  | @interfaceDecl _ m mark form _ _ _ decl p value hd ambient class' merged last reflected =>
    rw [Context.isMerged] at merged
    have emitted : Reflection.Emits w.context.scope.reflectUnder (Reflection.interfaceParts p)
        value.exprs :=
      (draws_namedType fun _ => draws_interfaceBody).emits reflected
    rw [Stmt.requests_interface, Frame.whole_interface hd, ambient, class', merged, last]
    refine (Answered.append (.of_emits emitted) .nil).mono fun e he => ?_
    refine mem_append_right _ (mem_flatMap.2 ⟨_, mem_singleton.2 rfl, ?_⟩)
    exact mem_exprs_constStmt he
  | @ambientAlias _ m mark form _ _ ambient =>
    rw [Stmt.requests_alias, if_pos ambient]
    exact .nil
  | @aliasDecl _ m mark form typeParams type value ambient reflected =>
    have emitted : Reflection.Emits w.context.scope.reflectUnder
        (Reflection.namedParts typeParams.toLists fun bound => [(bound, type)]) value.exprs :=
      (draws_namedType fun _ => .one).emits reflected
    rw [Stmt.requests_alias, if_neg (by simp [ambient])]
    refine (Answered.of_emits emitted).mono fun e he => ?_
    refine mem_append_right _ (mem_flatMap.2 ⟨_, mem_singleton.2 rfl, ?_⟩)
    exact mem_exprs_constStmt he
  | @other form marks ts h =>
    rw [Stmt.requests_of_other h]
    exact .nil
  | _ => exact .nil

end

/-! ### Functions that are dealt with early -/

/-- What is reflected for a function is found in the walked function. -/
theorem funcPlanOf_emits {f plan} (planned : funcPlanOf s role f = .ok plan)
    (alike : Alike (.tree .func) f f') :
    Answered s (f.requests s.generics role) (applyFuncPlan (.ok plan) f').exprs := by
  refine (funcPlanOf_answers planned).mono fun e he => ?_
  cases plan with
  | none => cases he
  | some plan =>
    obtain ⟨_, _, _, _, _, _, rfl⟩ := funcPlanOf_hasBody planned alike
    rw [Option.toList_some, flatMap_singleton] at he
    rw [applyFuncPlan_some]
    exact plan.mem_exprs_apply he

/-- The function of a class member. -/
def ClassMember.func? : ClassMember → Option Func
  | ClassMember.mk _ _ _ _ _ (MemberVal.function _ _ f) => some f
  | _ => none

/-- The types that are reflected for the function of a class member. -/
def ClassMember.funcRequests (gs : List Generics) (className : Option String) (names : List String)
    (m : ClassMember) : List Request :=
  m.func?.toList.flatMap
    (Func.requests (Generics.under names (ClassMember.access className m) gs) (ClassMember.role m))

section

variable {className : Option String} {names : List String} {w w' : Walker}

theorem PlansMember.answers_func {m plan} (h : PlansMember className names w m plan w')
    (fresh : ∀ f ∈ m.func?, w.context.wasVisited f.mark.id = false) :
    Answered w.context.scope (m.funcRequests w.context.scope.generics className names)
      plan.exprs := by
  cases h with
  | visited hv =>
    rw [fresh _ rfl] at hv
    cases hv
  | @func _ mark form decorators key type fm kind f _ plan hm _ planned =>
    subst hm
    rw [Scope.withGenerics_eq] at planned
    have answered := funcPlanOf_answers planned
    refine .append (answered.mono fun e he => ?_) .nil
    cases plan with
    | none => cases he
    | some plan => simpa [MemberPlan.exprs] using he
  | property hm =>
    subst hm
    exact .nil
  | _ => exact .nil

variable {f : Func} {name : Maybe .name}

/-- Later members are as fresh as they were, if their functions have other numbers. -/
theorem PlansMember.keeps_fresh {m plan} (h : PlansMember className names w m plan w')
    (fresh : w.context.wasVisited f.mark.id = false)
    (other : ∀ g ∈ m.func?, g.mark.id ≠ f.mark.id) : w'.context.wasVisited f.mark.id = false := by
  cases h with
  | func hm _ _ effect =>
    subst hm
    rw [← Bool.not_eq_true, Context.wasVisited_iff] at fresh ⊢
    rw [effect.visited, mem_singleton]
    rintro (zero | seen | same)
    · exact fresh (.inl zero)
    · exact fresh (.inr seen)
    · exact other _ rfl same.symm
  | _ => exact fresh

/-- What is reflected for the function of a member is found in its plan. -/
theorem PlansMembers.answers_func {ms plans} (h : PlansMembers className names w ms plans w')
    (distinct : ((ms.filterMap ClassMember.func?).map (·.mark.id)).Nodup) :
    ∀ m ∈ ms, (∀ f ∈ m.func?, w.context.wasVisited f.mark.id = false) →
      Answered w.context.scope (m.funcRequests w.context.scope.generics className names)
        (plans.flatMap MemberPlan.exprs) := by
  induction h with
  | nil => exact nofun
  | @cons w w₁ w₂ m₀ ms plan plans head tail ih =>
    intro m hm fresh
    rw [flatMap_cons]
    rcases mem_cons.1 hm with rfl | later
    · exact (head.answers_func fresh).mono fun e he => mem_append_left _ he
    · have rest : ((ms.filterMap ClassMember.func?).map (·.mark.id)).Nodup :=
        distinct.sublist (((sublist_cons_self m₀ ms).filterMap _).map _)
      -- The function of the first member is not that of a later one.
      have other : ∀ f ∈ m.func?, ∀ g ∈ m₀.func?, g.mark.id ≠ f.mark.id := by
        intro f hf g hg same
        rw [filterMap_cons_some hg, map_cons, nodup_cons] at distinct
        refine distinct.1 (mem_map.2 ⟨f, ?_, same.symm⟩)
        exact mem_filterMap.2 ⟨m, later, hf⟩
      have answered := ih rest m later fun f hf => head.keeps_fresh (fresh f hf) (other f hf)
      rw [head.scope_eq] at answered
      exact answered.mono fun e he => mem_append_right _ he

variable {plan : StmtPlan} {fs : List Stmt} {s' : Stmt} {m mark : Mark}

theorem Planned.emits_func {form}
    (h : Planned w (Stmt.funcDecl m (FuncDecl.mk mark form name f)) plan fs w')
    (fresh : w.context.wasVisited f.mark.id = false)
    (root : SameRoot (Stmt.funcDecl m (FuncDecl.mk mark form name f)) s') :
    Answered w.context.scope (f.requests w.context.scope.generics .function)
      (plan.output s' fs) := by
  cases h with
  | funcVisited hv =>
    rw [fresh] at hv
    cases hv
  | @funcDecl _ _ _ _ _ _ plan _ planned =>
    cases root with
    | mk parts =>
    cases parts with
    | partsCons alike parts =>
    cases parts
    obtain ⟨name', f', rfl, func⟩ := alike.funcDecl_inv
    refine (funcPlanOf_emits planned func).mono fun e he => mem_append_left _ ?_
    have inside : e ∈ (Stmt.funcDecl m (FuncDecl.mk mark form name'
        (applyFuncPlan (.ok plan) f'))).exprs :=
      mem_exprs_of_parts (Children.mem_exprs_head (mem_exprs_of_parts
        (Children.mem_exprs_tail (Children.mem_exprs_head he))))
    cases plan with
    | _ => exact inside
  | other h => cases h

theorem Planned.emits_member {form decorators typeParams base baseArgs implemented members}
    (h : Planned w (Stmt.classDecl m decl) plan fs w')
    (hd : decl = ClassDecl.mk mark form decorators name typeParams base baseArgs implemented members)
    (ambient : form.ambient = false)
    (distinct : ((members.toList.filterMap ClassMember.func?).map (·.mark.id)).Nodup)
    (root : SameRoot (Stmt.classDecl m decl) s') :
    ∀ member ∈ members.toList,
      (∀ f ∈ ClassMember.func? member, w.context.wasVisited f.mark.id = false) →
      Answered w.context.scope (ClassMember.funcRequests w.context.scope.generics
        (ClassDecl.name? decl) (typeParams.toLists.map TypeParam.name) member)
        (plan.output s' fs) := by
  intro member hm fresh
  cases h with
  | ambientClass hd' ambient' =>
    rw [hd] at hd'
    cases hd'
    rw [ambient] at ambient'
    cases ambient'
  | classDecl hd' _ _ planned finished =>
    rw [hd] at hd'
    cases hd'
    cases root with
    | mk parts =>
    match parts with
    | .partsCons alike .partsNil =>
      subst hd
      obtain ⟨_, _, _, _, _, _, members', rfl, alikes⟩ := alike.classDecl_inv
      obtain ⟨checks, params, -, -, rfl⟩ := planFinish_ok rfl finished
      refine (planned.answers_func distinct member hm fresh).mono fun e he => ?_
      refine mem_append_left _ (mem_exprs_of_parts (Children.mem_exprs_head ?_))
      refine ClassPlan.mem_exprs_members (ConstructorPlan.exprs_apply _ _ _ ?_)
      exact mem_exprs_applyMembers (planned.fits alikes) he
  | other h => cases h

end

end Reify
