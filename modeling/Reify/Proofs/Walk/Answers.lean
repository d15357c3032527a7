import Reify.Proofs.Check.Emission
import Reify.Proofs.Walk.Writing

/-!
# Every visit is answered

On a visit the walk reflects the types that `Visit.requests` lists, in a scope that the point of the
visit describes.  All of them are answered, and the answers stand in the code that comes out
(`Writes.settles`): plans put them there, and nothing that is done later takes them away.
-/

namespace Reify

open List Tree

/-! ### Visits and what they ask for -/

/-- The types that are reflected on a visit. -/
def Visit.requests : Visit → List Request
  | ⟨p, .stmt s⟩ => s.requests p.generics (p.frame.whole s) (p.frame.joined s)
  | ⟨p, .func role f⟩ => f.requests p.generics role
  | ⟨p, .header decl⟩ => decl.requests p.generics

/-- All that is reflected on the visit is found among the expressions. -/
def Visit.Settled (options : Options) (v : Visit) (exprs : List Expr) : Prop :=
  ∃ s, v.point.Describes options s ∧ Answered s v.requests exprs

variable {exprs : List Expr} {m : ClassMember} {c : Category}

theorem Visit.Settled.mono {options} {v : Visit} {exprs'} (h : v.Settled options exprs)
    (sub : exprs ⊆ exprs') : v.Settled options exprs' := by
  obtain ⟨s, describes, answered⟩ := h
  exact ⟨s, describes, answered.mono fun _ he => sub he⟩

/-- The type parameters in reach are those of a request, whatever the scope says. -/
theorem Answered.reaching {s qs} (h : Answered s qs exprs) (gs : List Generics) :
    Answered (s.reaching gs) qs exprs := h

/-! ### Statements -/

theorem ClassMember.mem_visits {p className names} {v : Visit} :
    v ∈ m.visits p className names ↔ ∃ f, m.func? = some f ∧
      v = ⟨p.under names (ClassMember.access className m), .func (ClassMember.role m) f⟩ := by
  match m with
  | ClassMember.mk _ _ _ _ _ (MemberVal.function _ _ f) =>
    refine ⟨fun h => ⟨f, rfl, mem_singleton.1 h⟩, ?_⟩
    rintro ⟨_, ⟨⟩, rfl⟩
    exact mem_cons_self
  | ClassMember.mk _ _ _ _ _ (MemberVal.property _) => exact ⟨nofun, nofun⟩
  | ClassMember.mk _ _ _ _ _ (MemberVal.index _ _ _ _) => exact ⟨nofun, nofun⟩

/-- **The visits of a statement**: its own, and those of the functions dealt with along with it. -/
inductive Stmt.Visits (p : Point) : Stmt → Visit → Prop where
  | own {s} : Visits p s ⟨p, .stmt s⟩
  | func {m mark form name f} :
      Visits p (Stmt.funcDecl m (FuncDecl.mk mark form name f)) ⟨p, .func .function f⟩
  | member {m mark form decorators name typeParams base baseArgs implemented members decl member f}
      (hd : decl = ClassDecl.mk mark form decorators name typeParams base baseArgs implemented
        members) (ambient : form.ambient = false) (hm : member ∈ members.toList)
      (hf : ClassMember.func? member = some f) :
      Visits p (Stmt.classDecl m decl) ⟨p.under (typeParams.toLists.map TypeParam.name)
        (ClassMember.access (ClassDecl.name? decl) member), .func (ClassMember.role member) f⟩

theorem Stmt.mem_visits {p} {s : Stmt} {v : Visit} : v ∈ s.visits p ↔ s.Visits p v := by
  constructor
  · intro h
    rcases mem_cons.1 h with rfl | h
    · exact .own
    match s, h with
    | .node (c := .stmt) form marks ts, h =>
      cases form with
      | funcDecl =>
        match marks, ts, h with
        | .one _, .cons (FuncDecl.mk _ _ _ f) .nil, h =>
          obtain rfl := mem_singleton.1 h
          exact .func
      | classDecl =>
        match marks, ts, h with
        | .one _, .cons (ClassDecl.mk _ form _ _ _ _ _ _ members) .nil, h =>
          change v ∈ if form.ambient then [] else _ at h
          split at h
          · cases h
          case isFalse ambient =>
            obtain ⟨member, hm, hv⟩ := mem_flatMap.1 h
            obtain ⟨f, hf, rfl⟩ := ClassMember.mem_visits.1 hv
            exact .member rfl (eq_false_of_ne_true ambient) hm hf
      | _ => cases h
  · intro h
    cases h with
    | own => exact mem_cons_self
    | func => exact mem_cons_of_mem _ mem_cons_self
    | member hd ambient hm hf =>
      subst hd
      refine mem_cons_of_mem _ ?_
      change _ ∈ if _ then [] else _
      rw [if_neg (by simp [ambient])]
      exact mem_flatMap.2 ⟨_, hm, ClassMember.mem_visits.2 ⟨_, hf, rfl⟩⟩

theorem ClassMember.heads_eq (m : ClassMember) :
    m.heads = m.func?.toList.map (·.mark.id) := by
  match m with
  | ClassMember.mk _ _ _ _ _ (MemberVal.function _ _ f) => exact ClassMember.heads_function
  | ClassMember.mk _ _ decorators key type (MemberVal.property value) =>
    change decorators.heads ++ (key.heads ++ (type.heads ++ ((value.heads ++ []) ++ []))) = []
    rw [decorators.heads_of_closed rfl, key.heads_of_closed rfl, type.heads_of_closed rfl,
      value.heads_of_closed rfl]
    rfl
  | ClassMember.mk _ _ decorators key type (MemberVal.index _ _ k v) =>
    change decorators.heads ++ (key.heads ++ (type.heads ++ ((k.heads ++ (v.heads ++ [])) ++ []))) =
      []
    rw [decorators.heads_of_closed rfl, key.heads_of_closed rfl, type.heads_of_closed rfl,
      k.heads_of_closed rfl, v.heads_of_closed rfl]
    rfl

theorem flatMap_heads (ms : List ClassMember) :
    ms.flatMap Tree.heads = (ms.filterMap ClassMember.func?).map (·.mark.id) := by
  induction ms with
  | nil => rfl
  | cons m ms ih =>
    rw [flatMap_cons, ih, ClassMember.heads_eq, filterMap_cons]
    cases m.func? <;> rfl

/-- The functions of the members of a class have distinct numbers, if all that the class keeps
count of has. -/
theorem Stmt.nodup_members
    {m mark form decorators name typeParams base baseArgs implemented members}
    (nodup : (Stmt.classDecl m (ClassDecl.mk mark form decorators name typeParams base baseArgs
      implemented members)).counted.Nodup) :
    ((members.toList.filterMap ClassMember.func?).map (·.mark.id)).Nodup := by
  rw [Stmt.counted_eq _ .none] at nodup
  rw [← flatMap_heads, ← Stmt.heads_class]
  exact (nodup_cons.1 nodup).2.sublist (Task.heads_sublist _)

section

variable {options : Options} {p : Point} {w w' : Walker} {s s' : Stmt} {plan : StmtPlan}
  {fs : List Stmt}

/-- What is worked out for the function of a class member. -/
theorem ClassMember.settles (tracks : p.Tracks options w) {className names f}
    (h : Answered w.context.scope (m.funcRequests p.generics className names) exprs)
    (hf : m.func? = some f) : Visit.Settled options
      ⟨p.under names (ClassMember.access className m), .func (ClassMember.role m) f⟩ exprs := by
  have inside := (tracks.under names (ClassMember.access className m)).scope
  rw [Walker.scope_pushGenerics, Scope.withGenerics_eq] at inside
  refine ⟨_, inside, Answered.reaching (fun q hq => h q ?_) _⟩
  exact mem_flatMap.2 ⟨f, Option.mem_toList.2 hf, hq⟩

/-- What is reflected on the visits of a statement is found in what comes out for it. -/
theorem Planned.settles (tracks : p.Tracks options w) (nodup : s.counted.Nodup)
    (fresh : ∀ i ∈ s.counted, w.context.wasVisited i = false) (planned : Planned w s plan fs w')
    (root : SameRoot s s') : ∀ v ∈ s.visits p, v.Settled options (plan.output s' fs) := by
  have early := Stmt.heads_unvisited fresh
  intro v hv
  cases Stmt.mem_visits.1 hv with
  | own =>
    have own := planned.emits root
    rw [tracks.scope.generics, tracks.frame] at own
    exact ⟨_, tracks.scope, own⟩
  | func =>
    rw [Stmt.heads_func, forall_mem_singleton] at early
    have func := planned.emits_func early root
    rw [tracks.scope.generics] at func
    exact ⟨_, tracks.scope, func⟩
  | member hd ambient hm hf =>
    subst hd
    rw [Stmt.heads_class, flatMap_heads] at early
    have func := planned.emits_member rfl ambient (Stmt.nodup_members nodup) root _ hm
      fun g hg => early _ (mem_map_of_mem (mem_filterMap.2 ⟨_, hm, hg⟩))
    rw [tracks.scope.generics] at func
    exact ClassMember.settles tracks func hf

end

/-! ### Walks -/

/-- The expressions in what comes out of a task. -/
def Task.outExprs : (k : Task) → k.Out → List Expr
  | node _ _, (t', fs) => t'.exprs ++ fs.flatMap Tree.exprs
  | inner _ _, t' => t'.exprs
  | parts _ _, ts' => ts'.exprs
  | child _ _, t' => t'.exprs
  | each _ _, ts' => ts'.flatMap Tree.exprs
  | stmts _, out => out.flatMap Tree.exprs

theorem Stmt.exprs_block (m m' : Mark) (stmts : Many .stmt) :
    (Stmt.block m (Block.mk m' stmts)).exprs = stmts.exprs := by
  change ((stmts.exprs ++ []) ++ []) = _
  rw [append_nil, append_nil]

/-- Nothing is lost where a statement and those that follow it become one. -/
theorem Stmt.exprs_withFollowers (s : Stmt) (fs : List Stmt) :
    (s.withFollowers fs).exprs = s.exprs ++ fs.flatMap Tree.exprs := by
  cases fs with
  | nil => exact (append_nil _).symm
  | cons f fs =>
    change (Stmt.block _ (Block.mk _ (.ofList (s :: f :: fs)))).exprs = _
    rw [Stmt.exprs_block, exprs_ofList]
    rfl

/-- Only statements are followed by others. -/
theorem Writes.follows {options p} {t t' : Tree c} {brief fs vs}
    (h : Writes options p (.node t brief) (t', fs) vs) : c = .stmt ∨ fs = [] := by
  cases h with
  | stmt => exact .inl rfl
  | _ => exact .inr rfl

theorem Tree.outExprs_followedBy (t : Tree c) (fs : List Stmt) (h : c = .stmt ∨ fs = []) :
    t.exprs ++ fs.flatMap Tree.exprs ⊆ (t.followedBy fs).exprs := by
  rcases h with rfl | rfl
  · rw [followedBy, Stmt.exprs_withFollowers]
    exact List.Subset.refl _
  · rw [flatMap_nil, append_nil]
    cases c <;> exact List.Subset.refl _

/-- **Every visit is settled** by the code that comes out. -/
theorem Writes.settles {options p k out vs} (h : Writes options p k out vs) :
    ∀ v ∈ vs, v.Settled options (k.outExprs out) := by
  induction h with
  | inert _ _ ih | entered _ _ ih =>
    intro v hv
    exact (ih v hv).mono (subset_append_left _ _)
  | stmt tracks nodup fresh planned root _ ih =>
    intro v hv
    rcases mem_append.1 hv with hv | hv
    · exact planned.settles tracks nodup fresh root v hv
    · refine (ih v hv).mono fun e he => mem_append_left _ ?_
      exact (planned.reworked_made root []).exprs_subset he
  | @func _ s f f' role plan _ scope planned root _ ih =>
    refine forall_mem_cons.2 ⟨⟨s, scope, ?_⟩, fun v hv => (ih v hv).mono fun e he => ?_⟩
    · have emits := funcPlanOf_emits planned (Alike.of_root root)
      rw [scope.generics] at emits
      exact emits.mono fun e he => mem_append_left _ he
    · refine mem_append_left _ ?_
      cases plan with
      | none => exact he
      | some plan => exact (FuncPlan.reworked_made planned [] f').exprs_subset he
  | @header _ s mark form ds decl decl' plans _ hd scope planned alike _ ih =>
    have decl_subset : (VarDecl.applyInits plans decl').exprs ⊆
        (ForInit.decl (VarDecl.applyInits plans decl')).exprs ++
          ([] : List Stmt).flatMap Tree.exprs :=
      fun e he => mem_append_left _ (mem_exprs_of_parts (Children.mem_exprs_head he))
    refine forall_mem_cons.2 ⟨⟨s, scope, ?_⟩, fun v hv => (ih v hv).mono fun e he => ?_⟩
    · subst hd
      have answers := VarDecl.answers planned alike
      rw [scope.generics] at answers
      exact answers.mono fun e he => decl_subset he
    · change e ∈ (ForInit.decl decl').exprs at he
      rw [show (ForInit.decl decl').exprs = decl'.exprs from append_nil _] at he
      exact decl_subset ((VarDecl.reworked_made planned [] decl').exprs_subset he)
  | inner _ _ ih =>
    intro v hv
    exact (ih v hv).mono fun e he => mem_exprs_of_parts he
  | doWhile _ _ first second =>
    intro v hv
    rcases mem_append.1 hv with hv | hv
    · exact (first v hv).mono fun e he =>
        mem_exprs_of_parts (Children.mem_exprs_tail (Children.mem_exprs_head he))
    · exact (second v hv).mono fun e he => mem_exprs_of_parts (Children.mem_exprs_head he)
  | partsCons _ _ head tail | eachCons _ _ head tail =>
    intro v hv
    rcases mem_append.1 hv with hv | hv
    · exact (head v hv).mono (subset_append_left _ _)
    · exact (tail v hv).mono (subset_append_right _ _)
  | @stmtsCons _ _ s' fs _ out _ _ _ _ head tail =>
    intro v hv
    change v.Settled options (((s' :: fs) ++ out).flatMap Tree.exprs)
    rw [flatMap_append]
    rcases mem_append.1 hv with hv | hv
    · exact (head v hv).mono (subset_append_left _ _)
    · exact (tail v hv).mono (subset_append_right _ _)
  | @told _ c _ fs _ _ t' node ih =>
    intro v hv
    refine (ih v hv).mono ?_
    exact outExprs_followedBy t' fs node.follows
  | toldMany _ ih | list _ ih | top _ ih =>
    intro v hv
    refine (ih v hv).mono ?_
    change _ ⊆ Tree.exprs (.ofList _)
    rw [exprs_ofList]
    exact List.Subset.refl _
  | toldPresent _ ih =>
    intro v hv
    exact (ih v hv).mono fun e he => mem_exprs_present he
  | inScope _ ih | generic _ ih => exact ih
  | _ => exact nofun

end Reify
