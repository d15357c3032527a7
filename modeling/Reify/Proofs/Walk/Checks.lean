import Reify.Proofs.Check.Opening
import Reify.Proofs.Walk.Answers
import Reify.Proofs.Walk.Lists

/-!
# Every function is checked

On the visit of a function its plan is worked out.  The plan is applied to the function once its
parts have been walked, by the function's own visit or by that of the class or declaration around it
(`Writes.applies`).  What is visited stands in the unit (`Writes.targets`), and by the numbers of
the nodes every function outside types, decorators, enum members and imports is.
-/

namespace Reify

open List Tree

/-! ### What is visited -/

/-- The target is among the given trees. -/
def Target.In (trees : (d : Category) → List (Tree d)) : Target → Prop
  | stmt s => s ∈ trees .stmt
  | func _ f => f ∈ trees .func
  | header decl => decl ∈ trees .varDecl

theorem Target.In.mono {trees trees'} {target : Target} (h : target.In trees)
    (sub : ∀ d, trees d ⊆ trees' d) : target.In trees' := by
  cases target with
  | stmt | func | header => exact sub _ h

theorem Task.subtrees_inner {c} (t : Tree c) (brief brief' : Brief) (d : Category) :
    (Task.inner t brief').subtrees d ⊆ (Task.node t brief).subtrees d := by
  match t with
  | .node form marks ts =>
    change (if c.isLeft then [] else _) ⊆ Tree.subtrees _ _ _
    rw [Tree.subtrees_node]
    split
    · exact nil_subset _
    · exact subset_append_right _ _

theorem ClassMember.func_mem {m : ClassMember} {f} (h : m.func? = some f) :
    f ∈ m.subtrees Category.isLeft .func := by
  match m, h with
  | ClassMember.mk _ _ _ _ _ (MemberVal.function _ _ f), h =>
    cases h
    refine mem_subtrees_of_parts rfl (mem_append_right _ (mem_append_right _
      (mem_append_right _ (mem_append_left _ ?_))))
    exact mem_subtrees_of_parts rfl (mem_append_left _ (mem_subtrees_self rfl f))

theorem Stmt.visits_in (p : Point) (s : Stmt) :
    ∀ v ∈ s.visits p, v.target.In fun d => s.subtrees Category.isLeft d := by
  intro v hv
  cases Stmt.mem_visits.1 hv with
  | own => exact mem_subtrees_self rfl s
  | @func _ _ _ _ f =>
    refine mem_subtrees_of_parts rfl (mem_append_left _ ?_)
    exact mem_subtrees_of_parts rfl (mem_append_right _ (mem_append_left _
      (mem_subtrees_self rfl f)))
  | @member _ _ _ _ _ _ _ _ _ members _ _ f hd _ hm hf =>
    subst hd
    have all : f ∈ members.subtrees Category.isLeft .func :=
      members.subtrees_toList rfl (mem_flatMap.2 ⟨_, hm, ClassMember.func_mem hf⟩)
    refine mem_subtrees_of_parts rfl (mem_append_left _ ?_)
    exact mem_subtrees_of_parts rfl (mem_append_right _ (mem_append_right _
      (mem_append_right _ (mem_append_right _ (mem_append_right _
        (mem_append_right _ (mem_append_left _ all)))))))

section

variable {options : Options} {p : Point} {vs : List Visit}

theorem Writes.skips {cs} {ts ts' : Children cs}
    (h : Writes options p (.parts (cs.map fun _ => .skip) ts) ts' vs) : vs = [] := by
  induction cs generalizing p vs with
  | nil =>
    cases h
    rfl
  | cons c cs ih =>
    cases h with
    | partsCons head tail =>
      cases head
      exact ih tail

/-- **What is visited** stands in what the task comes to. -/
theorem Writes.targets {k out} (h : Writes options p k out vs) :
    ∀ v ∈ vs, v.target.In fun d => k.subtrees d := by
  induction h with
  | inert _ _ ih | entered _ _ ih =>
    intro v hv
    exact (ih v hv).mono (Task.subtrees_inner _ _ _)
  | @stmt p _ _ s _ _ _ _ _ _ _ _ _ _ ih =>
    intro v hv
    rcases mem_append.1 hv with hv | hv
    · exact s.visits_in p v hv
    · exact (ih v hv).mono (Task.subtrees_inner _ _ _)
  | @func _ _ f _ role _ _ _ _ _ _ ih =>
    refine forall_mem_cons.2 ⟨mem_subtrees_self rfl f, fun v hv => ?_⟩
    exact (ih v hv).mono (Task.subtrees_inner _ _ _)
  | @header _ _ _ _ _ decl _ _ _ _ _ _ _ _ ih =>
    refine forall_mem_cons.2 ⟨?_, fun v hv => (ih v hv).mono (Task.subtrees_inner _ _ _)⟩
    exact mem_subtrees_of_parts rfl (mem_append_left _ (mem_subtrees_self rfl decl))
  | @inner _ c _ form marks brief ts ts' _ parts ih =>
    intro v hv
    by_cases left : c.isLeft = true
    · rw [form.modes_of_left left] at parts
      rw [parts.skips] at hv
      cases hv
    · refine (ih v hv).mono fun d => ?_
      change _ ⊆ if c.isLeft then [] else _
      rw [if_neg left]
      exact List.Subset.refl _
  | doWhile _ _ ihFirst ihSecond =>
    intro v hv
    rcases mem_append.1 hv with hv | hv
    · refine (ihFirst v hv).mono fun d => ?_
      exact subset_append_of_subset_right _ (subset_append_left _ _)
    · exact (ihSecond v hv).mono fun d => subset_append_left _ _
  | partsNil | skip | toldAbsent | eachNil | stmtsNil => exact nofun
  | partsCons _ _ ihHead ihTail | eachCons _ _ ihHead ihTail | stmtsCons _ _ ihHead ihTail =>
    intro v hv
    rcases mem_append.1 hv with hv | hv
    · exact (ihHead v hv).mono fun d => subset_append_left _ _
    · exact (ihTail v hv).mono fun d => subset_append_right _ _
  | told _ ih => exact ih
  | @toldMany _ _ _ _ _ t _ ih | @list _ t _ _ _ ih | @top _ t _ _ _ ih =>
    intro v hv
    exact (ih v hv).mono fun d => t.subtrees_toList rfl
  | toldPresent _ ih =>
    intro v hv
    refine (ih v hv).mono fun d u hu => ?_
    exact mem_subtrees_of_parts rfl (mem_append_left _ hu)
  | inScope _ ih | generic _ ih => exact ih

end

/-! ### Plans are applied -/

/-- The plan of the function that is visited has been applied, and the outcome is among the
functions, reworked. -/
def Visit.Applied (options : Options) (funcs : List Func) : Visit → Prop
  | ⟨p, .func role f⟩ => ∃ s plan f', p.Describes options s ∧ funcPlanOf s role f = .ok plan ∧
      Alike (.tree .func) f f' ∧ ∃ f'' ∈ funcs,
        Reworked (.made options) [] (.tree .func) (applyFuncPlan (.ok plan) f') f''
  | _ => True

section

variable {options : Options}

theorem Visit.Applied.carry {v : Visit} {funcs funcs' : List Func} (h : v.Applied options funcs)
    (carried : Carried (.made options) funcs funcs') : v.Applied options funcs' := by
  match v, h with
  | ⟨p, .func role f⟩, ⟨s, plan, f', scope, planned, alike, f'', mem, reworked⟩ =>
    obtain ⟨g, mem', again⟩ := carried f'' mem
    exact ⟨s, plan, f', scope, planned, alike, g, mem', reworked.trans again⟩
  | ⟨_, .stmt _⟩, _ => trivial
  | ⟨_, .header _⟩, _ => trivial

/-- Functions stay inside what is reworked. -/
theorem Reworked.funcs {around k x x'} (h : Reworked (.made options) around k x x') :
    Carried (.made options) (k.subtrees .func x) (k.subtrees .func x') :=
  h.subtrees (Addition.made_isSteady options) (by decide)

theorem Visit.Applied.mono {v : Visit} {funcs funcs'} (h : v.Applied options funcs)
    (sub : funcs ⊆ funcs') : v.Applied options funcs' :=
  h.carry (.of_subset sub)

variable {className : Option String} {names : List String} {w w' : Walker}

theorem PlansMember.applies {m m' : ClassMember} {plan}
    (h : PlansMember className names w m plan w') (alike : Alike (.tree .classMember) m m') {f}
    (hf : m.func? = some f) (fresh : w.context.wasVisited f.mark.id = false) :
    ∃ plan' f', funcPlanOf (w.context.scope.withGenerics names (ClassMember.access className m))
        (ClassMember.role m) f = .ok plan' ∧ Alike (.tree .func) f f' ∧
      applyFuncPlan (.ok plan') f' ∈ (plan.apply m').subtrees Category.none .func := by
  cases h with
  | visited hv =>
    cases hf
    rw [fresh] at hv
    cases hv
  | @func _ mark form decorators key type fm kind f _ plan' hm _ planned =>
    subst hm
    cases hf
    obtain ⟨decorators', key', type', val', rfl, -, vals⟩ := alike.member_inv
    obtain ⟨f', rfl, func⟩ := vals.function_inv
    have inside : applyFuncPlan (.ok plan') f' ∈ (ClassMember.mk mark form decorators' key' type'
        (MemberVal.function fm kind (applyFuncPlan (.ok plan') f'))).subtrees Category.none .func :=
      mem_subtrees_of_parts rfl (mem_append_right _ (mem_append_right _
        (mem_append_right _ (mem_append_left _ (mem_subtrees_of_parts rfl
          (mem_append_left _ (mem_subtrees_self rfl _)))))))
    refine ⟨plan', f', planned, func, ?_⟩
    cases plan' with
    | none => exact inside
    | some plan' => exact inside
  | property hm =>
    subst hm
    cases hf
  | _ => cases hf

/-- The function of a member is found among those of the members that come out. -/
theorem PlansMembers.applies {ms ms' : List ClassMember} {plans}
    (h : PlansMembers className names w ms plans w')
    (distinct : ((ms.filterMap ClassMember.func?).map (·.mark.id)).Nodup)
    (alike : Forall₂ (Alike (.tree .classMember)) ms ms') {m} (hm : m ∈ ms) {f}
    (hf : m.func? = some f) (fresh : w.context.wasVisited f.mark.id = false) :
    ∃ plan f', funcPlanOf (w.context.scope.withGenerics names (ClassMember.access className m))
        (ClassMember.role m) f = .ok plan ∧ Alike (.tree .func) f f' ∧
      applyFuncPlan (.ok plan) f' ∈
        (applyMembers plans ms').flatMap (Tree.subtrees Category.none .func) := by
  induction h generalizing ms' with
  | nil => cases hm
  | @cons w w₁ w₂ m₀ ms plan plans head tail ih =>
    cases alike with
    | cons first rest =>
    rcases mem_cons.1 hm with rfl | later
    · obtain ⟨plan', f', planned, func, inside⟩ := head.applies first hf fresh
      exact ⟨plan', f', planned, func, mem_append_left _ inside⟩
    · have distinct' : ((ms.filterMap ClassMember.func?).map (·.mark.id)).Nodup :=
        distinct.sublist (((sublist_cons_self m₀ ms).filterMap _).map _)
      -- The function of the first member is not that of a later one.
      have other : ∀ g ∈ m₀.func?, g.mark.id ≠ f.mark.id := by
        intro g hg same
        rw [filterMap_cons_some hg, map_cons, nodup_cons] at distinct
        refine distinct.1 (mem_map.2 ⟨f, ?_, same.symm⟩)
        exact mem_filterMap.2 ⟨m, later, hf⟩
      obtain ⟨plan', f', planned, func, inside⟩ :=
        ih distinct' rest later (head.keeps_fresh fresh other)
      rw [head.scope_eq] at planned
      exact ⟨plan', f', planned, func, mem_append_right _ inside⟩

variable {p : Point} {s s' : Stmt} {plan : StmtPlan} {fs : List Stmt} {m mark : Mark}

theorem Planned.applies_func {form name f} (tracks : p.Tracks options w)
    (planned : Planned w (Stmt.funcDecl m (FuncDecl.mk mark form name f)) plan fs w')
    (fresh : w.context.wasVisited f.mark.id = false)
    (root : SameRoot (Stmt.funcDecl m (FuncDecl.mk mark form name f)) s') :
    Visit.Applied options ((plan.apply s').subtrees Category.none .func) ⟨p, .func .function f⟩ := by
  cases planned with
  | funcVisited hv =>
    rw [fresh] at hv
    cases hv
  | @funcDecl _ _ _ _ _ _ plan _ planned =>
    cases root with
    | mk parts =>
    cases parts with
    | partsCons alike parts =>
    cases parts
    obtain ⟨name', f', rfl, func⟩ := alike.funcDecl_inv
    have inside : applyFuncPlan (.ok plan) f' ∈ (Stmt.funcDecl m (FuncDecl.mk mark form name'
        (applyFuncPlan (.ok plan) f'))).subtrees Category.none .func :=
      mem_subtrees_of_parts rfl (mem_append_left _ (mem_subtrees_of_parts rfl
        (mem_append_right _ (mem_append_left _ (mem_subtrees_self rfl _)))))
    refine ⟨_, plan, f', tracks.scope, planned, func, _, ?_, .refl⟩
    cases plan with
    | none => exact inside
    | some plan => exact inside
  | other h => cases h

theorem Planned.applies_member {member : ClassMember} {f : Func}
    {form decorators name typeParams base baseArgs implemented members decl}
    (hd : decl = ClassDecl.mk mark form decorators name typeParams base baseArgs implemented members)
    (tracks : p.Tracks options w) (planned : Planned w (Stmt.classDecl m decl) plan fs w')
    (ambient : form.ambient = false)
    (distinct : ((members.toList.filterMap ClassMember.func?).map (·.mark.id)).Nodup)
    (fresh : w.context.wasVisited f.mark.id = false) (root : SameRoot (Stmt.classDecl m decl) s')
    (hm : member ∈ members.toList) (hf : member.func? = some f) :
    Visit.Applied options ((plan.apply s').subtrees Category.none .func)
      ⟨p.under (typeParams.toLists.map TypeParam.name)
        (ClassMember.access (ClassDecl.name? decl) member), .func (ClassMember.role member) f⟩ := by
  have adds := planned.planted root (everywhere_true _) w.context.frame.everywhere_true []
  have scope := (tracks.under (typeParams.toLists.map TypeParam.name)
    (ClassMember.access (ClassDecl.name? decl) member)).scope
  rw [Walker.scope_pushGenerics] at scope
  cases planned with
  | ambientClass hd' ambient' =>
    rw [hd] at hd'
    cases hd'
    rw [ambient] at ambient'
    cases ambient'
  | @classDecl _ _ _ _ _ _ _ _ _ _ _ _ _ _ plans finish hd' _ _ planned =>
    rw [hd] at hd'
    cases hd'
    cases root with
    | mk parts =>
    match parts with
    | .partsCons alike .partsNil =>
      subst hd
      obtain ⟨_, _, _, base', _, _, members', rfl, alikes⟩ := alike.classDecl_inv
      obtain ⟨plan, f', planned, func, inside⟩ := planned.applies distinct alikes hm hf fresh
      -- The constructor and the symbol of the class are dealt with last.
      have finished := (ClassFinish.reworked_members (adds.constructor finish rfl)
        (adds.made finish rfl base'.toOption.isSome) (adds.symbol finish rfl)
        (applyMembers plans members'.toList)).mono fun _ _ _ => Planted.made
      rw [tracks.scope.options] at finished
      refine Visit.Applied.mono (Visit.Applied.carry ?_ finished.funcs) ?_
      · refine ⟨_, plan, f', scope, planned, func, _, ?_, .refl⟩
        change _ ∈ Tree.subtrees _ _ (Tree.ofList _)
        rw [subtrees_ofList]
        exact inside
      · intro u hu
        refine mem_subtrees_of_parts rfl (mem_append_left _ ?_)
        exact mem_subtrees_of_parts rfl (mem_append_right _ (mem_append_right _
          (mem_append_right _ (mem_append_right _ (mem_append_right _
            (mem_append_right _ (mem_append_left _ hu)))))))
  | other h => cases h

/-- The functions that are visited along with a statement are found in what comes out for it. -/
theorem Planned.applies (tracks : p.Tracks options w) (nodup : s.counted.Nodup)
    (fresh : ∀ i ∈ s.counted, w.context.wasVisited i = false) (planned : Planned w s plan fs w')
    (root : SameRoot s s') :
    ∀ v ∈ s.visits p, v.Applied options ((plan.apply s').subtrees Category.none .func) := by
  have early := Stmt.heads_unvisited fresh
  intro v hv
  cases Stmt.mem_visits.1 hv with
  | own => trivial
  | func =>
    rw [Stmt.heads_func, forall_mem_singleton] at early
    exact planned.applies_func tracks early root
  | member hd ambient hm hf =>
    have unvisited := hd ▸ early
    rw [Stmt.heads_class, flatMap_heads] at unvisited
    exact planned.applies_member hd tracks ambient (Stmt.nodup_members (hd ▸ nodup))
      (unvisited _ (mem_map_of_mem (mem_filterMap.2 ⟨_, hm, hf⟩))) root hm hf

/-- **Every plan of a function is applied**, and what comes of it is found in the code that comes
out. -/
theorem Writes.applies {k out vs} (h : Writes options p k out vs) :
    ∀ v ∈ vs, v.Applied options (k.outSubtrees .func out) := by
  induction h with
  | inert _ _ ih | entered _ _ ih => exact ih
  | @stmt p w _ s s' plan _ _ tracks nodup fresh planned root _ ih =>
    intro v hv
    rcases mem_append.1 hv with hv | hv
    · exact planned.applies tracks nodup fresh root v hv
    · have reworked := planned.reworked_made root []
      rw [tracks.scope.options] at reworked
      exact (ih v hv).carry reworked.funcs
  | @func _ s f f' role plan _ scope planned root _ ih =>
    refine forall_mem_cons.2 ⟨?_, fun v hv => ?_⟩
    · exact ⟨s, plan, f', scope, planned, .of_root root, _, mem_subtrees_self rfl _, .refl⟩
    · cases plan with
      | none => exact ih v hv
      | some plan =>
        have reworked := FuncPlan.reworked_made planned [] f'
        rw [scope.options] at reworked
        exact (ih v hv).carry reworked.funcs
  | @header _ _ _ _ _ decl decl' plans _ _ scope planned _ _ ih =>
    have reworked := ForInit.reworked_made planned [] decl'
    rw [scope.options] at reworked
    exact forall_mem_cons.2 ⟨trivial, fun v hv => (ih v hv).carry reworked.funcs⟩
  | inner _ _ ih =>
    intro v hv
    exact (ih v hv).mono fun u hu => mem_subtrees_of_parts rfl hu
  | doWhile _ _ ihFirst ihSecond =>
    intro v hv
    rcases mem_append.1 hv with hv | hv
    · exact (ihFirst v hv).mono fun u hu => mem_subtrees_of_parts rfl
        (mem_append_right _ (mem_append_left _ hu))
    · exact (ihSecond v hv).mono fun u hu => mem_subtrees_of_parts rfl
        (mem_append_left _ hu)
  | partsNil | skip | toldAbsent | eachNil | stmtsNil => exact nofun
  | partsCons _ _ ihHead ihTail | eachCons _ _ ihHead ihTail =>
    intro v hv
    rcases mem_append.1 hv with hv | hv
    · exact (ihHead v hv).mono (subset_append_left _ _)
    · exact (ihTail v hv).mono (subset_append_right _ _)
  | @stmtsCons _ _ s' fs _ out _ _ _ _ ihHead ihTail =>
    intro v hv
    change v.Applied options (Tree.subtrees _ _ s' ++ (fs ++ out).flatMap _)
    rcases mem_append.1 hv with hv | hv
    · exact (ihHead v hv).mono (subset_append_left _ _)
    · refine (ihTail v hv).mono (subset_append_of_subset_right _ ?_)
      rw [flatMap_append]
      exact subset_append_right _ _
  | @told _ _ _ fs _ _ t' _ ih =>
    intro v hv
    exact (ih v hv).mono (t'.subtrees_followedBy fs)
  | toldMany _ ih | list _ ih | top _ ih =>
    intro v hv
    refine (ih v hv).mono fun u hu => ?_
    obtain ⟨t, ht, hu⟩ := mem_flatMap.1 hu
    exact mem_subtrees_ofList rfl ht hu
  | toldPresent _ ih =>
    intro v hv
    exact (ih v hv).mono fun u hu => mem_subtrees_of_parts rfl (mem_append_left _ hu)
  | inScope _ ih | generic _ ih => exact ih

/-- What is visited is guarded. -/
theorem Visit.Applied.guarded {role f funcs} (h : Visit.Applied options funcs ⟨p, .func role f⟩) :
    ∃ f' ∈ funcs, f.Guarded options f' := by
  obtain ⟨s, plan, f', scope, planned, alike, f'', mem, reworked⟩ := h
  have guarded := funcPlanOf_guards planned alike
  rw [scope.options] at guarded
  exact ⟨f'', mem, guarded.reworked (fun _ _ added => added.1.synthetic.mark_id) reworked⟩

end

/-! ### Units -/

/-- The nodes that something is worked out for are known by their numbers. -/
theorem Visit.func_of_id {unit : SourceUnit} (distinct : (unit.marks.map Mark.id).Nodup) {v : Visit}
    (target : v.target.In fun d => unit.subtrees Category.isLeft d) {f} (hf : f ∈ unit.funcs)
    (same : v.id = f.mark.id) : ∃ role, v.target = .func role f := by
  have func : ∀ form : Form .func, form.width ≠ 0 := fun _ => Nat.one_ne_zero
  have there := mem_nodes func unit hf
  match v, target, same with
  | ⟨_, .stmt s⟩, target, same =>
    have wide : ∀ form : Form .stmt, form.width ≠ 0 := fun form =>
      Nat.ne_of_gt (StmtForm.width_pos form)
    have node := mem_nodes wide unit target
    cases eq_of_mark_id distinct node there same
  | ⟨_, .func role g⟩, target, same =>
    have node := mem_nodes func unit target
    cases eq_of_mark_id distinct node there same
    exact ⟨role, rfl⟩
  | ⟨_, .header decl⟩, target, same =>
    have node := mem_nodes (fun _ : Form .varDecl => Nat.one_ne_zero) unit target
    cases eq_of_mark_id distinct node there same

theorem SourceUnit.funcs_withImports (options : Options) (unit : SourceUnit) :
    unit.funcs ⊆ (SourceUnit.withImports options unit).funcs := by
  match unit with
  | SourceUnit.mk mark stmts =>
    have other : Category.many .stmt ≠ .func := by decide
    change stmts.subtrees _ _ ++ [] ⊆ Tree.subtrees _ _ (Tree.ofList (_ ++ stmts.toList)) ++ []
    rw [append_nil, append_nil, subtrees_many rfl other,
      subtrees_many rfl other, toList_ofList, flatMap_append]
    exact subset_append_right _ _

/-- **Functions are checked** outside types, decorators, enum members and imports: those functions
and no others are handed to the planning of checks, and what comes out for each of them checks its
parameters at the start of its body. -/
theorem functions_checked_outside_decorators (options : Options) (unit : SourceUnit)
    {out : SourceUnit} {w : Walker} (original : unit.Original)
    (distinct : (unit.marks.map Mark.id).Nodup)
    (run : (instrument unit).run { context := .start options unit } = (out, w))
    (clean : w.errors = []) {f : Func} (hf : f ∈ unit.funcs) :
    (f.mark.id ∈ w.context.mutations ↔ f ∈ unit.subtrees Category.isLeft .func) ∧
      (f.mark.id ∈ w.context.mutations → ∃ f' ∈ out.funcs, f.Guarded options f') := by
  obtain ⟨walked, w', vs, -, writes, rfl, ids, recorded⟩ :=
    instrument_visits original distinct run clean
  have visited : f.mark.id ∈ w.context.mutations → ∃ v ∈ vs, ∃ role, v.target = .func role f ∧
      f ∈ unit.subtrees Category.isLeft .func := by
    intro mutated
    have counted : f.mark.id ∈ unit.counted :=
      (unit.idsOf_mono (fun _ _ _ => rfl) fun _ => id).subset (recorded.mem_iff.1 mutated)
    obtain ⟨v, hv, same⟩ := List.mem_map.1 (ids.mem_iff.2 counted)
    have target := writes.targets v hv
    obtain ⟨role, func⟩ := Visit.func_of_id distinct target hf same
    rw [func] at target
    exact ⟨v, hv, role, func, target⟩
  refine ⟨⟨fun mutated => ?_, fun walked => ?_⟩, fun mutated => ?_⟩
  · obtain ⟨_, _, _, _, inside⟩ := visited mutated
    exact inside
  · exact recorded.mem_iff.2 (Tree.mark_id_mem_idsOf (fun _ => rfl) unit walked)
  · obtain ⟨⟨p, _⟩, hv, role, rfl, -⟩ := visited mutated
    obtain ⟨f', mem, guarded⟩ := (writes.applies _ hv).guarded
    exact ⟨f', SourceUnit.funcs_withImports options walked mem, guarded⟩

/-- `(x: number) => x` -/
def numberArrow : Func :=
  .mk { id := 7 } ⟨true, false, false⟩ .absent (.ofList [
    Param.mk { id := 8 } ⟨false, false, none, false⟩ (.ofList [])
      (Binding.mk { id := 9 } (Pat.ident ⟨{ id := 10 }, { id := 11 }⟩ "x"))
      (.present (TypeExpr.keyword ⟨{ id := 12 }, { id := 13 }⟩ .number)) .absent])
    .absent (.present (FuncBody.expr (Expr.ident ⟨{ id := 14 }, { id := 15 }⟩ "x")))

/-- `y: string` -/
def stringParam : Param :=
  .mk { id := 23 } ⟨false, false, none, false⟩ (.ofList [])
    (Binding.mk { id := 24 } (Pat.ident ⟨{ id := 25 }, { id := 26 }⟩ "y"))
    (.present (TypeExpr.keyword ⟨{ id := 27 }, { id := 28 }⟩ .string)) .absent

/-- `constructor(y: string) { super(); }` -/
def derivedConstructor : Func :=
  .mk { id := 22 } ⟨false, false, false⟩ .absent (.ofList [stringParam]) .absent
    (.present (FuncBody.block (.ofList [
      Stmt.expr ⟨{ id := 29 }, { id := 30 }⟩ (Expr.call ⟨{ id := 31 }, { id := 32 }⟩ false
        (Expr.super ⟨{ id := 33 }, { id := 34 }⟩) (.ofList []))])))

/-- `@((x: number) => x) class C extends B { constructor(y: string) { super(); } }` -/
def decoratedClass : SourceUnit :=
  .mk { id := 1 } (.ofList [
    Stmt.classDecl { id := 2 } (ClassDecl.mk { id := 3 } ⟨false, false, false, false⟩
      (.ofList [Decorator.mk { id := 4 } (Expr.arrow ⟨{ id := 5 }, { id := 6 }⟩ numberArrow)])
      (.present (Name.mk { id := 16 } "C")) .absent
      (.present (Expr.ident ⟨{ id := 17 }, { id := 18 }⟩ "B")) .absent (.ofList [])
      (.ofList [ClassMember.mk { id := 19 } ⟨false, false, false, none⟩ (.ofList [])
        (MemberKey.direct { id := 20 } "constructor") .absent
        (MemberVal.function { id := 21 } .method derivedConstructor)]))])

/-- What the unit becomes, and the state that this leads to. -/
def decoratedClassOut : SourceUnit × Walker :=
  (instrument decoratedClass).run { context := .start {} decoratedClass }

theorem functions_checked_outside_decorators_constructor :
    decoratedClass.Original ∧ (decoratedClass.marks.map Mark.id).Nodup ∧
      decoratedClassOut.2.errors = [] ∧ derivedConstructor ∈ decoratedClass.funcs ∧
      derivedConstructor ∈ decoratedClass.subtrees Category.isLeft .func ∧
      22 ∈ decoratedClassOut.2.context.mutations ∧
      ∃ f' ∈ decoratedClassOut.1.funcs, derivedConstructor.Guarded {} f' := by
  have original : decoratedClass.Original := by decide +kernel
  have distinct : (decoratedClass.marks.map Mark.id).Nodup := by decide +kernel
  have clean : decoratedClassOut.2.errors = [] := List.isEmpty_iff.1 (by decide +kernel)
  have run : decoratedClassOut = (decoratedClassOut.1, decoratedClassOut.2) :=
    (Prod.eta decoratedClassOut).symm
  have hf : derivedConstructor ∈ decoratedClass.funcs :=
    List.mem_cons_of_mem _ List.mem_cons_self
  have walked : derivedConstructor ∈ decoratedClass.subtrees Category.isLeft .func :=
    List.mem_cons_self
  obtain ⟨recorded, guarded⟩ :=
    functions_checked_outside_decorators {} decoratedClass original distinct run clean hf
  exact ⟨original, distinct, clean, hf, walked, recorded.2 walked, guarded (recorded.2 walked)⟩

/-- A function with a body and a typed parameter stands in a decorator: it is handed to no planning,
and its body stays the expression that it was. -/
theorem decorator_function_unchecked :
    decoratedClass.Original ∧ (decoratedClass.marks.map Mark.id).Nodup ∧
      decoratedClassOut.2.errors = [] ∧ numberArrow ∈ decoratedClass.funcs ∧
      numberArrow.hasBody = true ∧ numberArrow.params.all (·.checked?.isSome) = true ∧
      decoratedClassOut.2.context.mutations = [2, 22] ∧
      ∀ f' ∈ decoratedClassOut.1.funcs, f'.mark = numberArrow.mark → f'.stmts? = none := by
  refine ⟨by decide +kernel, by decide +kernel, List.isEmpty_iff.1 (by decide +kernel),
    List.mem_cons_self, by decide, by decide +kernel, by decide +kernel, ?_⟩
  have unchanged : decoratedClassOut.1.funcs.all (fun f' =>
      f'.mark != numberArrow.mark || f'.stmts?.isNone) = true := by decide +kernel
  intro f' hf' same
  simpa [same] using List.all_eq_true.1 unchanged f' hf'

end Reify
