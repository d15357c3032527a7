import Mathlib.Data.List.Perm.Subperm
import Reify.Proofs.Check.Emission
import Reify.Proofs.Check.Opening

/-!
# Names bound by plans

The plan of a function puts constants at the start of its body, and that of a generic class one more
into the constructor.  Nothing else that a plan adds binds a name in a scope of the source.  So where
no scope binds a name twice, none does once the plan has been applied, if the names of those
constants are counted (`ClassPlan.distinct_apply`).
-/

namespace Reify

open List Tree Option

/-! ### Distinct names -/

/-- The tree opens no block scope that binds a name twice, and it is no list of type parameters with
a name twice. -/
def Tree.Distinct (c : Category) (t : Tree c) : Prop :=
  (∀ names ∈ Tree.ownScopes c t, names.Nodup) ∧ ∀ names ∈ Tree.ownParamNames c t, names.Nodup

variable {c : Category} {t : Tree c} {ss stmts : List Stmt} {cs : List Category}
  {ts' ts : Children cs} {R : (c : Category) → Tree c → Tree c → Prop} {loc : Loc} {f : Func}
  {ms ms' : List ClassMember} {role : Role} {plan : FuncPlan} {finish : ClassFinish}
  {reflection : Expr} {plans : List MemberPlan} {room : ClassMember → List String}

theorem Tree.everywhere_distinct :
    t.Everywhere Tree.Distinct ↔
      (∀ names ∈ t.scopes, names.Nodup) ∧ ∀ names ∈ t.paramNames, names.Nodup :=
  everywhere_and.trans (and_congr forall_gather.symm forall_gather.symm)

theorem Tree.ownParamNames_of_other (h : c ≠ .many .typeParam) (t : Tree c) :
    Tree.ownParamNames c t = [] := by
  cases c with
  | many c =>
    cases c with
    | typeParam => exact (h rfl).elim
    | _ => rfl
  | _ => rfl

/-- What opens no block scope and is no list of type parameters is distinct by itself. -/
theorem Tree.distinct_of_plain (opens : t.form.opensBlock = false) (hc : c ≠ .many .typeParam) :
    Tree.Distinct c t := by
  rw [Tree.Distinct, ownScopes_of_plain opens, ownParamNames_of_other hc]
  exact ⟨nofun, nofun⟩

theorem Expr.distinct (e : Expr) : Tree.Distinct .expr e :=
  distinct_of_plain rfl nofun

theorem FuncBody.distinct_block {ss} :
    Tree.Distinct .funcBody (FuncBody.block ss) ↔ ss.bindings.Nodup :=
  (and_iff_left nofun).trans forall_mem_singleton

instance : Routine Tree.Distinct where
  made {c} t h := by
    refine Tree.distinct_of_plain ?_ ?_
    · cases c with
      | unit | block | handler => cases h
      | funcBody | stmt => exact Bool.not_inj h
      | _ => rfl
    · rintro rfl
      cases h
  member loc object name _ := Expr.distinct _
  noParams := by
    refine ⟨nofun, forall_mem_singleton.2 ?_⟩
    exact nodup_nil
  block params stmts h names := by
    rw [FuncBody.distinct_block, Tree.bindings_ofList, names]
    have listed := forall_mem_singleton.1 h.2
    rwa [Tree.toList_ofList] at listed
  detach t h := by
    rw [Tree.Distinct, Tree.detach_eq, Tree.ownScopes_renumber, Tree.ownParamNames_renumber]
    exact h

theorem FuncBody.everywhere_distinct :
    (FuncBody.block (.ofList ss)).Everywhere Tree.Distinct ↔
      (ss.flatMap Tree.bindings).Nodup ∧ ∀ s ∈ ss, s.Everywhere Tree.Distinct := by
  rw [everywhere_node, FuncBody.distinct_block, bindings_ofList]
  simp

/-- Expressions for type parameters bind nothing. -/
theorem Scope.suits_distinct (s : Scope) : s.Suits Tree.Distinct := by
  intro bound loc name e h
  unfold Reflection.typeParam? at h
  split at h
  · obtain rfl := Option.some.inj h
    exact everywhere_ident
  · obtain ⟨access, -, rfl⟩ := map_eq_some_iff.1 h
    cases access with
    | constant => exact everywhere_ident
    | ofConstructor => exact (everywhere_member rfl).2 everywhere_ident
    | erased => simp
    | _ =>
      refine everywhere_node.2 ⟨Expr.distinct _, Children.everywhere_cons.2 ⟨?_, by simp⟩⟩
      exact everywhere_index.2 ⟨everywhere_this,
        everywhere_index.2 ⟨everywhere_ident, everywhere_parametersSymbol⟩⟩

theorem Scope.suitsBeside_distinct (s : Scope) : s.SuitsBeside Tree.Distinct :=
  fun _ _ _ => suits_distinct _

/-! ### Returned values -/

theorem Children.Related.bindings (names : ∀ {c t t'}, R c t t' → t'.bindings = t.bindings)
    (h : ts.Related R ts') : ts'.bindings = ts.bindings := by
  induction h with
  | nil => rfl
  | cons head _ ih => exact congrArg₂ (· ++ ·) (names head) ih

theorem Tree.ownScopes_related (names : ∀ {c t t'}, R c t t' → t'.bindings = t.bindings)
    (hc : c.holdsStmts = true) {form marks ts ts'} (h : ts.Related R ts') :
    Tree.ownScopes c (.node form marks ts') = Tree.ownScopes c (.node form marks ts) := by
  cases c with
  | stmt =>
    cases form with
    | switch =>
      match marks, ts, ts', h with
      | .two _, _, _, .cons _ (.cons branches .nil) => exact congrArg ([·]) (names branches)
    | _ => rfl
  | block =>
    match marks, ts, ts', h with
    | .one _, _, _, .cons stmts .nil => exact congrArg ([·]) (names stmts)
  | handler =>
    match marks, ts, ts', h with
    | .one _, _, _, .cons _ (.cons _ (.cons stmts .nil)) => exact congrArg ([·]) (names stmts)
  | branch | many _ | maybe _ => rfl
  | _ => cases hc

theorem Children.Related.everywhere
    (inner : ∀ {c t t'}, R c t t' → t.Everywhere P → t'.Everywhere P) (h : ts.Related R ts')
    (before : ts.Everywhere P) : ts'.Everywhere P := by
  induction h with
  | nil => exact before
  | cons head _ ih => exact Children.everywhere_cons.2 ⟨inner head before.1, ih before.2⟩

/-- Statements bind what they bound once the values that they return are checked, and their scopes
are distinct if they were. -/
theorem relatesReturns_distinct {f : Loc → Expr → Expr}
    (values : ∀ loc e, e.Everywhere Tree.Distinct → (f loc e).Everywhere Tree.Distinct) :
    RelatesReturns f (fun _ t t' => t'.bindings = t.bindings ∧
      (t.Everywhere Tree.Distinct → t'.Everywhere Tree.Distinct)) where
  same _ := ⟨rfl, id⟩
  value site e := by
    refine ⟨rfl, fun h => everywhere_node.2 ⟨h.root, Children.everywhere_cons.2 ⟨?_, by simp⟩⟩⟩
    exact everywhere_present.2 (values _ e h.2.1.2.1)
  node {c} _ _ _ _ hc parts := by
    have other : c ≠ .many .typeParam := by
      rintro rfl
      cases hc
    refine ⟨?_, fun h => everywhere_node.2 ⟨?_, parts.everywhere And.right h.parts⟩⟩
    · rw [bindings_node, bindings_node, parts.bindings And.left]
    · rw [Tree.Distinct, ownScopes_related And.left hc parts, ownParamNames_of_other other]
      exact ⟨h.root.1, nofun⟩

/-! ### Functions -/

theorem nodup_of_subperm {xs ys : List String} (h : xs.Subperm ys) (hy : ys.Nodup) : xs.Nodup := by
  obtain ⟨zs, same, sub⟩ := h
  exact same.nodup (hy.sublist sub)

/-- The names that the body of a function binds. -/
def Func.names (f : Func) : List String := (f.stmts?.getD []).flatMap Tree.bindings

theorem Func.names_block {mark form typeParams params result ss} :
    (Func.mk mark form typeParams params result (.present (FuncBody.block ss))).names =
      ss.bindings :=
  bindings_toList ss

namespace FuncPlan

/-- The names of the constants that the plan puts at the start of the body. -/
def names (p : FuncPlan) : List String := p.prologue.flatMap Tree.bindings

/-- No scope in what the plan adds binds a name twice. -/
structure IsDistinct (p : FuncPlan) : Prop where
  prologue : ∀ s ∈ p.prologue, s.Everywhere Tree.Distinct
  result : ∀ r ∈ p.result, r.Everywhere Tree.Distinct

variable {p : FuncPlan}

theorem everywhere_checkedValue {e} (h : e.Everywhere Tree.Distinct) :
    (p.checkedValue loc e).Everywhere Tree.Distinct := by
  unfold checkedValue
  split
  · rw [everywhere_assertion rfl]
    exact ⟨everywhere_ident, by simpa using h⟩
  · exact h

theorem bindings_onStmt (s : Stmt) : (p.onStmt s).bindings = s.bindings := by
  unfold onStmt
  split
  · exact ((relatesReturns_distinct fun _ _ => everywhere_checkedValue).tree s rfl).1
  · rfl

theorem everywhere_onStmt {s} (h : s.Everywhere Tree.Distinct) :
    (p.onStmt s).Everywhere Tree.Distinct := by
  unfold onStmt
  split
  · exact ((relatesReturns_distinct fun _ _ => everywhere_checkedValue).tree s rfl).2 h
  · exact h

theorem perm_applyStmts (ss : List Stmt) :
    ((p.applyStmts ss).flatMap Tree.bindings).Perm (p.names ++ ss.flatMap Tree.bindings) := by
  have same : (ss.map p.onStmt).flatMap Tree.bindings = ss.flatMap Tree.bindings := by
    rw [flatMap_map]
    exact flatMap_congr fun s _ => bindings_onStmt s
  rw [applyStmts_eq, ← same]
  generalize ss.map p.onStmt = ts
  conv_rhs => rw [← take_append_drop (p.position ts) ts]
  rw [flatMap_append, flatMap_append, flatMap_append, ← append_assoc]
  exact perm_append_comm.append_right _

theorem everywhere_applyStmts (h : p.IsDistinct) (hs : ∀ s ∈ ss, s.Everywhere Tree.Distinct) :
    ∀ s ∈ p.applyStmts ss, s.Everywhere Tree.Distinct := by
  have checked : ∀ s ∈ ss.map p.onStmt, s.Everywhere Tree.Distinct :=
    forall_mem_map.2 fun s hm => everywhere_onStmt (hs s hm)
  rw [applyStmts_eq, forall_mem_append, forall_mem_append]
  exact ⟨⟨fun s hm => checked s (mem_of_mem_take hm), h.prologue⟩,
    fun s hm => checked s (mem_of_mem_drop hm)⟩

/-- The body binds the constants of the plan and what it bound before. -/
theorem names_apply (p : FuncPlan) (f : Func) : (p.apply f).names.Subperm (p.names ++ f.names) := by
  match f with
  | Func.mk _ _ _ _ _ .absent => exact nil_subperm
  | Func.mk mark form typeParams params result (.present (FuncBody.block ss)) =>
    change (Func.mk mark form typeParams params result
      (.present (FuncBody.block (.ofList (p.applyStmts ss.toList))))).names.Subperm _
    rw [Func.names_block, Func.names_block, bindings_ofList, ← bindings_toList ss]
    exact (p.perm_applyStmts ss.toList).subperm
  | Func.mk mark form typeParams params result (.present (FuncBody.expr e)) =>
    change (Func.mk mark form typeParams params result
      (.present (if p.keepsExpression then _ else _))).names.Subperm _
    split
    · cases p.result <;> exact nil_subperm
    · rw [Func.names_block, bindings_ofList, flatMap_append]
      exact Perm.subperm (.refl _)

theorem IsDistinct.everywhere_applyBody (h : p.IsDistinct) {b} (hb : b.Everywhere Tree.Distinct)
    (names : (p.names ++ ((FuncBody.stmts? b).getD []).flatMap Tree.bindings).Nodup) :
    (p.applyBody b).Everywhere Tree.Distinct := by
  match b, hb, names with
  | FuncBody.block ss, hb, names =>
    have stmts := Tree.Everywhere.toList hb.2.1
    exact FuncBody.everywhere_distinct.2 ⟨(p.perm_applyStmts ss.toList).nodup_iff.2 names,
      everywhere_applyStmts h stmts⟩
  | FuncBody.expr e, hb, names =>
    have value := hb.2.1
    change Tree.Everywhere _ (if p.keepsExpression then _ else _)
    split
    · cases hr : p.result with
      | none => exact hb
      | some r =>
        have type := h.result r hr
        refine (everywhere_of_routine rfl).2 ⟨everywhere_node.2 ⟨Expr.distinct _, ?_⟩, trivial⟩
        have method : (Synthetic.member p.loc r "assert").Everywhere Tree.Distinct :=
          everywhere_node.2 ⟨Expr.distinct _, by simpa using type⟩
        simpa using ⟨method, value⟩
    · refine FuncBody.everywhere_distinct.2 ⟨?_, forall_mem_append.2 ⟨h.prologue, ?_⟩⟩
      · rw [flatMap_append]
        exact names
      · simpa using everywhere_checkedValue value

theorem IsDistinct.everywhere_apply (h : p.IsDistinct) (hf : f.Everywhere Tree.Distinct)
    (names : (p.names ++ f.names).Nodup) : (p.apply f).Everywhere Tree.Distinct := by
  match f, hf, names with
  | Func.mk _ _ _ _ _ .absent, hf, _ => exact hf
  | Func.mk _ _ _ _ _ (.present b), hf, names =>
    obtain ⟨-, typeParams, params, result, body, -⟩ := hf
    refine everywhere_funcParts.2 ⟨typeParams, params, result, everywhere_present.2 ?_⟩
    exact h.everywhere_applyBody (everywhere_present.1 body) names

end FuncPlan

/-! ### Members of classes -/

/-- The names that the body of a member's function binds. -/
def ClassMember.names (m : ClassMember) : List String := (m.func?.map Func.names).getD []

namespace MemberPlan

/-- The names of the constants that the plan adds to the function of a member. -/
def names : MemberPlan → List String
  | check plan => plan.names
  | _ => []

/-- No scope in what the plan adds binds a name twice. -/
def IsDistinct : MemberPlan → Prop
  | keep => True
  | check plan => plan.IsDistinct
  | decorate d => d.Everywhere Tree.Distinct

theorem names_apply (p : MemberPlan) (m : ClassMember) :
    (p.apply m).names.Subperm (p.names ++ m.names) := by
  match p, m with
  | .keep, m => exact Subperm.refl _
  | .check plan, ClassMember.mk _ _ _ _ _ (MemberVal.function _ _ f) => exact plan.names_apply f
  | .check _, ClassMember.mk _ _ _ _ _ (MemberVal.property _)
  | .check _, ClassMember.mk _ _ _ _ _ (MemberVal.index _ _ _ _) => exact nil_subperm
  | .decorate _, ClassMember.mk _ _ _ _ _ (MemberVal.function _ _ _)
  | .decorate _, ClassMember.mk _ _ _ _ _ (MemberVal.property _)
  | .decorate _, ClassMember.mk _ _ _ _ _ (MemberVal.index _ _ _ _) => exact Subperm.refl _

theorem IsDistinct.everywhere_apply {p : MemberPlan} (h : p.IsDistinct) {m}
    (hm : m.Everywhere Tree.Distinct) (names : (p.names ++ m.names).Nodup) :
    (p.apply m).Everywhere Tree.Distinct := by
  match p, m, h, hm, names with
  | .keep, _, _, hm, _ => exact hm
  | .check plan, ClassMember.mk _ _ _ _ _ (MemberVal.function _ _ f), h, hm, names =>
    obtain ⟨-, decorators, key, type, val, -⟩ := hm
    have func := FuncPlan.IsDistinct.everywhere_apply h val.2.1 names
    exact everywhere_classMember.2 ⟨decorators, key, type, everywhere_memberFunction.2 func⟩
  | .check _, ClassMember.mk _ _ _ _ _ (MemberVal.property _), _, hm, _
  | .check _, ClassMember.mk _ _ _ _ _ (MemberVal.index _ _ _ _), _, hm, _ => exact hm
  | .decorate d, ClassMember.mk _ _ _ _ _ _, h, hm, _ =>
    obtain ⟨decorators, rest⟩ := everywhere_classMember.1 hm
    refine everywhere_classMember.2 ⟨(everywhere_list (c := .decorator) nofun).2 ?_, rest⟩
    exact forall_mem_cons.2 ⟨h, Tree.Everywhere.toList decorators⟩

end MemberPlan

/-! ### Constructors -/

namespace ConstructorPlan

/-- The name of the constant that the plan adds to the constructor. -/
def names (p : ConstructorPlan) : List String := p.params.toList.flatMap (·.before.bindings)

/-- No scope in what the plan adds binds a name twice, and the statements but for the constant bind
nothing. -/
structure IsDistinct (p : ConstructorPlan) : Prop where
  before : ∀ ps ∈ p.params, ps.before.Everywhere Tree.Distinct
  after : ∀ ps ∈ p.params, ∀ s ∈ ps.after, s.Everywhere Tree.Distinct ∧ s.bindings = []
  implemented : ∀ s ∈ p.implemented, s.Everywhere Tree.Distinct ∧ s.bindings = []

variable {p : ConstructorPlan}

theorem flatMap_bindings_of_blank (h : ∀ s ∈ ss, s.Everywhere Tree.Distinct ∧ s.bindings = []) :
    ss.flatMap Tree.bindings = [] :=
  flatMap_eq_nil_iff.2 fun s hs => (h s hs).2

theorem IsDistinct.perm_applyStmts (h : p.IsDistinct) (ss : List Stmt) :
    ((p.applyStmts ss).flatMap Tree.bindings).Perm (p.names ++ ss.flatMap Tree.bindings) := by
  rw [applyStmts, flatMap_append, flatMap_bindings_of_blank h.implemented, append_nil,
    names]
  cases hp : p.params with
  | none => exact .refl _
  | some ps =>
    have after := flatMap_bindings_of_blank (h.after ps hp)
    dsimp only
    rw [ParamStmts.apply]
    cases index : superIndex? ss with
    | none =>
      simp only [flatMap_append, flatMap_cons, after, toList_some]
      simp
    | some i =>
      obtain ⟨s, -, rest, -⟩ := superIndex_eq_some index
      have whole : ss.flatMap Tree.bindings = (ss.take i).flatMap Tree.bindings ++
          (s.bindings ++ (ss.drop (i + 1)).flatMap Tree.bindings) := by
        conv_lhs => rw [← take_append_drop i ss, rest]
        simp
      simp only [rest, flatMap_append, flatMap_cons, after, toList_some,
        take_succ_cons, take_zero, whole, flatMap_nil, append_nil,
        append_assoc]
      exact perm_append_comm_assoc _ _ _

theorem IsDistinct.everywhere_applyStmts (h : p.IsDistinct)
    (hs : ∀ s ∈ ss, s.Everywhere Tree.Distinct) :
    ∀ s ∈ p.applyStmts ss, s.Everywhere Tree.Distinct := by
  rw [applyStmts, forall_mem_append]
  refine ⟨?_, fun s hm => (h.implemented s hm).1⟩
  cases hp : p.params with
  | none => exact hs
  | some ps =>
    have before := h.before ps hp
    have after := fun s hm => (h.after ps hp s hm).1
    intro s hm
    dsimp only at hm
    rw [ParamStmts.apply] at hm
    cases index : superIndex? ss with
    | none =>
      rw [index] at hm
      simp only [cons_append, mem_cons, mem_append] at hm
      rcases hm with rfl | hm | hm
      · exact before
      · exact after s hm
      · exact hs s hm
    | some i =>
      rw [index] at hm
      simp only [mem_append, mem_singleton] at hm
      rcases hm with (((hm | rfl) | hm) | hm) | hm
      · exact hs s (mem_of_mem_take hm)
      · exact before
      · exact hs s (mem_of_mem_drop (mem_of_mem_take hm))
      · exact after s hm
      · exact hs s (mem_of_mem_drop hm)

theorem IsDistinct.everywhere_applyMember (h : p.IsDistinct) {m} (hm : m.Everywhere Tree.Distinct)
    (names : (p.names ++ m.names).Nodup) : (p.applyMember m).Everywhere Tree.Distinct := by
  match m, hm, names with
  | ClassMember.mk _ _ _ _ _ (MemberVal.function _ _
      (Func.mk _ _ _ _ _ (.present (FuncBody.block ss)))), hm, names =>
    obtain ⟨-, decorators, key, type, ⟨-, ⟨-, typeParams, params, result, body, -⟩, -⟩, -⟩ := hm
    have stmts := Tree.Everywhere.toList body.2.1.2.1
    refine everywhere_classMember.2 ⟨decorators, key, type, everywhere_memberFunction.2
      (everywhere_funcParts.2 ⟨typeParams, params, result, everywhere_present.2 ?_⟩)⟩
    exact FuncBody.everywhere_distinct.2 ⟨(h.perm_applyStmts ss.toList).nodup_iff.2 names,
      h.everywhere_applyStmts stmts⟩
  | ClassMember.mk _ _ _ _ _ (MemberVal.function _ _ (Func.mk _ _ _ _ _ .absent)), hm, _
  | ClassMember.mk _ _ _ _ _ (MemberVal.function _ _
      (Func.mk _ _ _ _ _ (.present (FuncBody.expr _)))), hm, _
  | ClassMember.mk _ _ _ _ _ (MemberVal.property _), hm, _
  | ClassMember.mk _ _ _ _ _ (MemberVal.index _ _ _ _), hm, _ => exact hm

theorem forall_mem_modify {P : ClassMember → Prop} {g i} (hm : ∀ m ∈ ms, P m)
    (hg : ∀ m ∈ ms[i]?, P (g m)) : ∀ m ∈ ms.modify i g, P m := by
  induction ms generalizing i with
  | nil => simp
  | cons m ms ih =>
    rw [forall_mem_cons] at hm
    cases i with
    | zero => exact forall_mem_cons.2 ⟨hg m rfl, hm.2⟩
    | succ i => exact forall_mem_cons.2 ⟨hm.1, ih hm.2 hg⟩

/-- The constant of the plan has to differ from what the constructor binds. -/
theorem IsDistinct.everywhere_apply (h : p.IsDistinct) (hm : ∀ m ∈ ms, m.Everywhere Tree.Distinct)
    (alone : p.names.Nodup) (target : ∀ m ∈ ms.find? isTarget, (p.names ++ m.names).Nodup)
    (derived : Bool) : ∀ m ∈ p.apply derived ms, m.Everywhere Tree.Distinct := by
  rw [apply]
  split
  · exact hm
  rw [ensure]
  cases found : ms.findIdx? isTarget with
  | some i =>
    refine forall_mem_modify hm fun m hi => ?_
    have first : ms.find? isTarget = some m := by
      obtain ⟨bound, here, before⟩ := findIdx?_eq_some_iff_getElem.1 found
      obtain ⟨_, rfl⟩ := List.getElem?_eq_some_iff.1 hi
      exact find?_eq_some_iff_getElem.2 ⟨here, i, bound, rfl, by simpa using before⟩
    exact h.everywhere_applyMember (hm m (mem_of_getElem? hi)) (target m first)
  | none =>
    have made : (defaultConstructor p.loc derived).Everywhere Tree.Distinct :=
      everywhere_defaultConstructor
    refine forall_mem_modify (forall_mem_cons.2 ⟨made, hm⟩) fun m hi => ?_
    obtain rfl := Option.some.inj hi
    refine h.everywhere_applyMember made ?_
    have none : (defaultConstructor p.loc derived).names = [] := by cases derived <;> rfl
    rwa [none, append_nil]

end ConstructorPlan

/-! ### The names of the constants -/

/-- Whether what a function returns may be checked. -/
def Func.checksResult : Func → Bool
  | Func.mk _ form _ _ result _ => !(form.async || form.generator) && (checked? result).isSome

/-- The names of the constants that are put at the start of a function's body, if it has one. -/
def Func.added (options : Options) (f : Func) : List String :=
  if f.hasBody then
    Func.typeParamNames f ++ if f.checksResult then [options.localName "returnType"] else []
  else []

section

variable {s : Scope}

theorem Func.Opening.bindings_consts {consts result asserts}
    (h : Func.Opening s role f consts result asserts) :
    consts.flatMap Tree.bindings = f.typeParams.map TypeParam.name := by
  replace h := h.consts
  generalize f.typeParams = ps at h ⊢
  induction h with
  | nil => rfl
  | cons head _ ih =>
    obtain ⟨e, -, rfl⟩ := head
    rw [flatMap_cons, bindings_constStmt, ih, map_cons, singleton_append]

theorem names_of_plan (h : funcPlanOf s role f = .ok (some plan)) :
    plan.names.Sublist (f.added s.options) := by
  have planned := bodyPlanOf_of_some h
  have opening := bodyPlanOf_opening planned
  match f, h, planned, opening with
  | Func.mk _ _ _ _ _ .absent, h, _, _ => cases pure_eq_ok.1 h
  | Func.mk mark form typeParams params result (.present body), _, planned, opening =>
    have bodied : (Func.mk mark form typeParams params result (.present body)).hasBody = true := rfl
    have consts : plan.typeConsts.flatMap Tree.bindings = typeParams.toLists.map TypeParam.name :=
      opening.bindings_consts
    have blank : plan.asserts.flatMap Tree.bindings = [] := by
      refine flatMap_eq_nil_iff.2 fun stmt hs => ?_
      obtain ⟨p, -, name, t, e, -, -, rfl⟩ := exists_of_forall₂ opening.asserts hs
      match p with
      | Param.mk _ _ _ _ _ _ => rfl
    rw [FuncPlan.names, FuncPlan.prologue, flatMap_append, flatMap_append, blank, append_nil, consts,
      Func.added, if_pos bodied]
    refine Sublist.append (.refl _) ?_
    cases hr : plan.result with
    | none => exact nil_sublist _
    | some r =>
      obtain ⟨t, e, ⟨async, generator, -, -, rfl, typed⟩, -, -⟩ := opening.returned hr
      have checked : checked? (.present t) = some t := filter_eq_some_iff.2 ⟨rfl, by simp [typed]⟩
      have checks : (Func.mk mark form typeParams params (.present t) (.present body)).checksResult =
          true := by simp [Func.checksResult, async, generator, checked]
      rw [if_pos checks, map_some, toList_some, flatMap_singleton, bindings_constStmt,
        (bodyPlanOf_fields planned).2.2]

end

/-! ### What is worked out -/

section

variable {s : Scope} {decl : ClassDecl}

theorem FuncPlan.isDistinct_of_plan (h : funcPlanOf s role f = .ok (some plan))
    (hf : f.Everywhere Tree.Distinct) : plan.IsDistinct := by
  obtain ⟨prologue, result⟩ := everywhere_of_plan h hf (Scope.suits_distinct _)
  exact ⟨prologue, result⟩

/-- The constant that the constructor of a generic class gets. -/
def ClassDecl.holders (options : Options) (decl : ClassDecl) : List String :=
  (ClassDecl.generic? decl).toList.map fun _ => options.localName "typeParameters"

theorem ClassDecl.KeepsParams.bindings {before after} (h : decl.KeepsParams s before after) :
    before.flatMap Tree.bindings = decl.holders s.options ∧ ∀ stmt ∈ after, stmt.bindings = [] := by
  cases h with
  | plain none => exact ⟨by rw [ClassDecl.holders, none]; rfl, nofun⟩
  | generic generic =>
    refine ⟨?_, forall_mem_cons.2 ⟨rfl, ?_⟩⟩
    · rw [ClassDecl.holders, generic, flatMap_singleton, bindings_constStmt]
      rfl
    · split
      · exact nofun
      · exact forall_mem_singleton.2 rfl

theorem planFinish_isDistinct (h : planFinish s reflection decl = .ok finish)
    (hd : decl.Everywhere Tree.Distinct) :
    finish.constructor.IsDistinct ∧ finish.constructor.names = decl.holders s.options := by
  have constructs : ∀ stmt, Constructs s decl stmt → stmt.Everywhere Tree.Distinct :=
    fun _ made => made.everywhere s.suitsBeside_distinct hd
  obtain ⟨params, implemented⟩ := planFinish_constructs h
  obtain ⟨keeps, checks, -, -⟩ := planFinish_constructor h
  obtain ⟨before, after⟩ := keeps.bindings
  refine ⟨⟨fun p hm => constructs _ (params p hm).1, fun p hm stmt hs => ?_, fun stmt hs => ?_⟩, ?_⟩
  · exact ⟨constructs _ ((params p hm).2 stmt hs),
      after stmt (mem_flatMap.2 ⟨p, mem_toList.2 hm, hs⟩)⟩
  · obtain ⟨t, -, e, -, rfl⟩ := exists_of_forall₂ checks hs
    exact ⟨constructs _ (implemented _ hs), rfl⟩
  · rw [← before, flatMap_map]
    rfl

/-- The names of the constants that the function of a member gets. -/
def ClassMember.added (options : Options) (m : ClassMember) : List String :=
  (m.func?.map (Func.added options)).getD []

/-- What comes of the member `m`: it is the constructor if `m` is, no scope in it binds a name twice,
and its body binds none but the given names. -/
structure ClassMember.Binds (names : List String) (m m' : ClassMember) : Prop where
  target : ConstructorPlan.isTarget m' = ConstructorPlan.isTarget m
  distinct : m'.Everywhere Tree.Distinct
  names : m'.names.Subperm names

variable {className : Option String} {names : List String} {w w' : Walker}

/-- What is worked out for a member binds none but the names that its function says. -/
theorem PlansMember.isDistinct {m plan} (h : PlansMember className names w m plan w')
    (hm : m.Everywhere Tree.Distinct) :
    plan.IsDistinct ∧ plan.names.Sublist (m.added w.context.scope.options) := by
  cases h with
  | @func _ _ _ _ _ _ _ _ f _ plan hd _ planned =>
    subst hd
    have func := hm.2.2.2.2.1.2.1
    cases plan with
    | none => exact ⟨trivial, nil_sublist _⟩
    | _ =>
      have bound := names_of_plan planned
      rw [Scope.options_withGenerics] at bound
      exact ⟨FuncPlan.isDistinct_of_plan planned func, bound⟩
  | property hd typed reflected =>
    subst hd
    have typed := checked?_eq_some typed ▸ hm.2.2.2.1
    have value := Scope.reflect_everywhere (Scope.suits_distinct _)
      (everywhere_present.1 typed) reflected
    refine ⟨?_, nil_sublist _⟩
    change Tree.Everywhere _ _
    simpa [Synthetic.decorator] using everywhere_deferred value
  | _ => exact ⟨trivial, nil_sublist _⟩

theorem PlansMember.binds {m m' plan room} (h : PlansMember className names w m plan w')
    (hm : m.Everywhere Tree.Distinct) (walked : m.Binds room m')
    (distinct : (m.added w.context.scope.options ++ room).Nodup) :
    m.Binds (m.added w.context.scope.options ++ room) (plan.apply m') := by
  obtain ⟨planned, bound⟩ := h.isDistinct hm
  have all : (plan.names ++ m'.names).Subperm (m.added w.context.scope.options ++ room) :=
    ((subperm_append_left _).2 walked.names).trans (bound.append_right room).subperm
  exact ⟨(plan.stands m').1.trans walked.target,
    planned.everywhere_apply walked.distinct (nodup_of_subperm all distinct),
    (plan.names_apply m').trans all⟩

theorem PlansMembers.binds (h : PlansMembers className names w ms plans w')
    (hm : ∀ m ∈ ms, m.Everywhere Tree.Distinct)
    (walked : Forall₂ (fun m => m.Binds (room m)) ms ms')
    (distinct : ∀ m ∈ ms, (m.added w.context.scope.options ++ room m).Nodup) :
    Forall₂ (fun m => m.Binds (m.added w.context.scope.options ++ room m)) ms
      (applyMembers plans ms') := by
  induction h generalizing ms' with
  | nil =>
    cases walked
    exact .nil
  | cons head tail ih =>
    cases walked with
    | cons first rest =>
      rw [forall_mem_cons] at hm distinct
      refine .cons (head.binds hm.1 first distinct.1) ?_
      rw [← head.scope_eq]
      exact ih hm.2 rest (head.scope_eq ▸ distinct.2)

/-- The constructor among the members is what comes of the constructor. -/
theorem ClassMember.exists_target {R} (h : Forall₂ R ms ms')
    (same : ∀ m m', R m m' → ConstructorPlan.isTarget m' = ConstructorPlan.isTarget m) {m'}
    (found : ms'.find? ConstructorPlan.isTarget = some m') :
    ∃ m, ms.find? ConstructorPlan.isTarget = some m ∧ R m m' := by
  induction h with
  | nil => cases found
  | @cons m₀ m₀' _ _ head _ ih =>
    rw [find?_cons] at found ⊢
    rw [same _ _ head] at found
    cases target : ConstructorPlan.isTarget m₀ with
    | true =>
      rw [target] at found
      obtain rfl := Option.some.inj found
      exact ⟨m₀, rfl, head⟩
    | false =>
      rw [target] at found
      exact ih found

/-- **The plan of a class** lets no scope bind a name twice, if the constants that it adds to the
members, and to the constructor of a generic class, differ from what their bodies bind. -/
theorem ClassPlan.everywhere_apply
    {decl' w₁ mark form decorators name typeParams base baseArgs implemented members}
    (hd : decl = ClassDecl.mk mark form decorators name typeParams base baseArgs implemented members)
    (source : decl.Everywhere Tree.Distinct) {merged}
    (hm : ∀ m ∈ merged, m.Everywhere Tree.Distinct)
    (reflected : w.context.scope.reflectClass mark.loc decl merged = .ok reflection)
    (planned : PlansMembers className names w members.toList plans w₁)
    (finished : planFinish w₁.context.scope reflection decl = .ok finish)
    (walked : decl'.Everywhere Tree.Distinct)
    (each : Forall₂ (fun (m : ClassMember) => m.Binds (room m)) members.toList decl'.memberList)
    (distinct : ∀ m : ClassMember, m ∈ members.toList → (m.added w.context.scope.options ++ room m).Nodup)
    (target : ∀ m ∈ members.toList.find? ConstructorPlan.isTarget,
      (decl.holders w.context.scope.options ++
        (m.added w.context.scope.options ++ room m)).Nodup) :
    (ClassPlan.apply { members := plans, finish := some finish } decl').Everywhere
      Tree.Distinct := by
  rw [planned.scope_eq] at finished
  obtain ⟨constructor', holders⟩ := planFinish_isDistinct finished source
  have value := (Scope.reflectClass_built source hm reflected).everywhere (Scope.suits_distinct _)
  obtain ⟨_, _, -, -, made⟩ := planFinish_ok hd finished
  have members' := Tree.Everywhere.toList (everywhere_classDecl.1 (hd ▸ source)).2.2.2.2.2.2
  have written := planned.binds members' each distinct
  have inside : ∀ m ∈ applyMembers plans decl'.memberList, m.Everywhere Tree.Distinct := by
    intro m hm
    obtain ⟨i, hi, rfl⟩ := getElem_of_mem hm
    exact (written.get (written.length_eq ▸ hi) hi).distinct
  have alone : finish.constructor.names.Nodup := by
    rw [holders, ClassDecl.holders]
    cases ClassDecl.generic? decl <;> simp
  have constructed := constructor'.everywhere_apply inside alone (fun m' hm' => by
    obtain ⟨m, found, binds⟩ := ClassMember.exists_target written (fun _ _ h => h.target) hm'
    rw [holders]
    exact nodup_of_subperm ((subperm_append_left _).2 binds.names) (target m found))
  match decl', walked, constructed with
  | ClassDecl.mk _ _ decorators' _ _ base' _ _ _, walked, constructed =>
    obtain ⟨-, decorators, name, typeParams, base, baseArgs, implemented, -⟩ := walked
    refine everywhere_classDecl.2 ⟨(everywhere_list (c := .decorator) nofun).2 ?_, name,
      typeParams, base, baseArgs, implemented, (everywhere_list (c := .classMember) nofun).2 ?_⟩
    · refine forall_mem_cons.2 ⟨?_, Tree.Everywhere.toList decorators⟩
      rw [made]
      simpa [Synthetic.decorator] using value
    · refine forall_mem_append.2 ⟨fun m hm => ?_, constructed _⟩
      rw [made, mem_toList] at hm
      obtain ⟨className, -, rfl⟩ := map_eq_some_iff.1 hm
      exact everywhere_symbolMember

end

/-! ### What statements bind -/

theorem Tree.bindings_many_of_bare (h : c.isBare = true) (t : Many c) : t.bindings = [] := by
  rw [← bindings_toList]
  exact flatMap_eq_nil_iff.2 fun u _ => bindings_of_bare h u

theorem bindings_maybeExpr (e : Maybe .expr) : e.bindings = [] := by
  match e with
  | .absent => rfl
  | .present e => rw [bindings_present, bindings_of_bare rfl]

theorem ClassPlan.bindings_apply (plan : ClassPlan) (decl : ClassDecl) :
    (plan.apply decl).bindings = decl.bindings := by
  match decl with
  | ClassDecl.mk mark form decorators name typeParams base baseArgs implemented members =>
    have none (ds : Many .decorator) (ms : Many .classMember) :
        (ClassDecl.mk mark form ds name typeParams base baseArgs implemented ms).bindings =
          name.bindings ++ (typeParams.bindings ++ (base.bindings ++ (baseArgs.bindings ++
            implemented.bindings))) := by
      change ds.bindings ++ (name.bindings ++ (typeParams.bindings ++ (base.bindings ++
        (baseArgs.bindings ++ (implemented.bindings ++ (ms.bindings ++ [])))))) = _
      rw [bindings_many_of_bare rfl ds, bindings_many_of_bare rfl ms]
      simp
    rw [ClassPlan.apply]
    dsimp only
    split <;> exact (none _ _).trans (none _ _).symm

theorem InitPlan.bindings_applyDeclarator (p : InitPlan) (d : Declarator) :
    (p.applyDeclarator d).bindings = d.bindings := by
  match d with
  | Declarator.mk mark binding type value =>
    change binding.bindings ++ (type.bindings ++ ((p.apply value).bindings ++ [])) =
      binding.bindings ++ (type.bindings ++ (value.bindings ++ []))
    rw [bindings_maybeExpr, bindings_maybeExpr]

theorem bindings_applyInits (plans : List InitPlan) (ds : List Declarator) :
    (applyInits plans ds).flatMap Tree.bindings = ds.flatMap Tree.bindings := by
  induction plans generalizing ds with
  | nil => rfl
  | cons p plans ih =>
    cases ds with
    | nil => rfl
    | cons d ds =>
      rw [applyInits, flatMap_cons, p.bindings_applyDeclarator, ih, flatMap_cons]

/-- A plan changes nothing about what its statement binds. -/
theorem StmtPlan.bindings_apply (plan : StmtPlan) (s : Stmt) :
    (plan.apply s).bindings = s.bindings := by
  match s with
  | .node (c := .stmt) form marks ts =>
    cases form with
    | classDecl =>
      match marks, ts with
      | .one _, .cons decl .nil =>
        cases plan with
        | classDecl plan => exact congrArg (· ++ []) (plan.bindings_apply decl)
        | _ => rfl
    | funcDecl =>
      match marks, ts with
      | .one _, .cons (FuncDecl.mk _ _ name f) .nil =>
        cases plan with
        | func plan =>
          change (name.bindings ++ ((plan.apply f).bindings ++ [])) ++ [] =
            (name.bindings ++ (f.bindings ++ [])) ++ []
          rw [bindings_of_bare rfl f, bindings_of_bare rfl (plan.apply f)]
        | _ => rfl
    | varDecl =>
      match marks, ts with
      | .one _, .cons (VarDecl.mk mark form ds) .nil =>
        cases plan with
        | inits plans =>
          have same : (Tree.ofList (applyInits plans ds.toList)).bindings = ds.bindings := by
            rw [bindings_ofList, bindings_applyInits, bindings_toList]
          change (if _ then (Tree.ofList (applyInits plans ds.toList)).bindings ++ [] else []) ++ [] =
            (if _ then ds.bindings ++ [] else []) ++ []
          rw [same]
        | _ => rfl
    | _ => cases plan <;> rfl

end Reify
