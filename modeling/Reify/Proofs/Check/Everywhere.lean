import Reify.Proofs.Check.Contents
import Reify.Proofs.Check.Merging
import Reify.Proofs.Reflection.Everywhere

/-!
# What holds everywhere in added code

Apart from reflections, plans are made of few kinds of phrases.  So a predicate that holds of
routine phrases holds everywhere in what is added for a declaration, if it holds everywhere in the
declaration and, where interfaces are gathered, in the statement list around it.
-/

namespace Reify

open List Synthetic

variable {e : Expr} {loc : Loc} {d : InterfaceDecl} {plan : StmtPlan} {w w' : Walker} {stmt : Stmt}
  {fs : List Stmt}

section

variable {P : (c : Category) → Tree c → Prop} [Routine P] {s : Scope}

/-! ### What functions get -/

/-- The predicate holds everywhere in the expressions for type parameters, with any more of them in
reach but not through an object. -/
def Scope.SuitsBeside (P : (c : Category) → Tree c → Prop) (s : Scope) : Prop :=
  ∀ names access, (∀ className, access ≠ .ofInstance className) →
    (s.withGenerics names access).Suits P

theorem Opens.everywhere {f stmt} (h : Opens s f stmt) (suits : s.Suits P) (hf : f.Everywhere P) :
    stmt.Everywhere P := by
  cases h with
  | typeConst bounds =>
    rw [everywhere_constStmt, everywhere_libraryCall]
    refine forall_mem_cons.2 ⟨everywhere_str, fun e he => ?_⟩
    obtain ⟨t, ht, reflected⟩ := bounds e he
    exact s.reflect_everywhere suits (hf.subtree ht) reflected
  | result ht reflected =>
    have type := s.reflect_everywhere suits (hf.subtree ht) reflected
    simpa using type
  | check ht reflected =>
    have type := (s.reflect_built (hf.subtree ht) reflected).built
    rw [everywhere_exprStmt, everywhere_assertion (by unfold Reflection.parameter; split <;> rfl)]
    exact ⟨type.parameter.everywhere suits, by simp⟩

theorem FuncPlan.everywhere_of_plan {role f plan} (h : funcPlanOf s role f = .ok (some plan))
    (hf : f.Everywhere P) (suits : (s.withGenerics (Func.typeParamNames f) .constant).Suits P) :
    (∀ stmt ∈ plan.prologue, stmt.Everywhere P) ∧ ∀ r ∈ plan.result, r.Everywhere P := by
  obtain ⟨opens, result⟩ := bodyPlanOf_opens (bodyPlanOf_of_some h)
  refine ⟨fun stmt hs => (opens stmt hs).everywhere suits hf, fun r hr => ?_⟩
  obtain ⟨loc, e, t, ht, reflected, rfl⟩ := result r hr
  simpa using Scope.reflect_everywhere suits (hf.subtree ht) reflected

/-! ### What classes get -/

theorem everywhere_deferred (h : e.Everywhere P) : (deferredReflection loc e).Everywhere P := by
  unfold deferredReflection
  split
  · rw [everywhere_function rfl]
    simpa using h
  · exact h

theorem ReflectedBeside.everywhere {decl} (h : ReflectedBeside s decl e) (suits : s.SuitsBeside P)
    (hd : decl.Everywhere P) : e.Everywhere P ∧ e.isIndex = false := by
  obtain ⟨names, access, t, other, ht, reflected⟩ := h
  obtain ⟨built, plain⟩ := Scope.reflect_built (hd.subtree ht) reflected
  exact ⟨built.everywhere (suits names access other), plain⟩

@[simp] theorem everywhere_parametersSymbol : (parametersSymbol s loc).Everywhere P :=
  (everywhere_member rfl).2 everywhere_ident

theorem Constructs.everywhere {decl stmt} (h : Constructs s decl stmt) (suits : s.SuitsBeside P)
    (hd : decl.Everywhere P) : stmt.Everywhere P := by
  cases h with
  | implemented reflected =>
    obtain ⟨type, plain⟩ := reflected.everywhere suits hd
    rw [everywhere_exprStmt, everywhere_assertion plain]
    exact ⟨type, by simp⟩
  | params entries =>
    refine everywhere_constStmt.2 (everywhere_object.2 fun entry hentry => ?_)
    obtain ⟨loc, name, args, same, bounds⟩ := entries entry hentry
    rw [same, everywhere_libraryCall]
    exact forall_mem_cons.2 ⟨everywhere_str, fun e he => ((bounds e he).everywhere suits hd).1⟩
  | store => simp
  | bind args =>
    rw [everywhere_exprStmt, everywhere_libraryCall]
    exact forall_mem_cons.2 ⟨everywhere_this, fun e he => ((args e he).everywhere suits hd).1⟩

theorem everywhere_defaultConstructor {derived} :
    (ConstructorPlan.defaultConstructor loc derived).Everywhere P := by
  unfold ConstructorPlan.defaultConstructor
  split
  · rw [everywhere_constructor rfl]
    simp [Synthetic.restAnyParam, Synthetic.binding, Synthetic.any, Synthetic.super,
      Synthetic.spreadArg]
  · rw [everywhere_constructor rfl]
    simp

theorem everywhere_symbolMember {name} : (symbolMember s loc name).Everywhere P := by
  simp [symbolMember, staticProperty, call]

/-! ### What variables get -/

theorem InitPlan.everywhere_apply {d d' plan} (h : initPlanOf s d = .ok plan) (suits : s.Suits P)
    (hd : d.Everywhere P) (hd' : d'.Everywhere P) : (plan.applyDeclarator d').Everywhere P := by
  obtain ⟨_, _ | _, _ | ⟨_, _ | ⟨type, _ | ⟨init, _ | _⟩⟩⟩⟩ := d
  obtain ⟨_, _ | _, _ | ⟨_, _ | ⟨_, _ | ⟨value, _ | _⟩⟩⟩⟩ := d'
  rw [initPlanOf] at h
  split at h
  case h_1 t _ typed _ =>
    obtain ⟨e, reflected, rfl⟩ := map_eq_ok.1 h
    rw [checked?_eq_some typed] at hd
    have check := Scope.reflect_built (Tree.everywhere_present.1 hd.2.2.1) reflected
    obtain ⟨present, ⟨⟩, parts⟩ := value
    cases present with
    | false =>
      obtain ⟨⟩ := parts
      exact hd'
    | true =>
      obtain _ | ⟨value, _ | _⟩ := parts
      obtain ⟨-, binding, type', init', -⟩ := hd'
      refine (Tree.everywhere_of_routine rfl).2 ⟨binding, type', Tree.everywhere_present.2 ?_, trivial⟩
      exact (everywhere_assertion check.plain).2
        ⟨check.built.everywhere suits, by simpa using init'⟩
  case h_2 =>
    obtain rfl := pure_eq_ok.1 h
    exact hd'

theorem everywhere_applyInits {ds ds' : List Declarator} {plans}
    (h : ds.mapM (initPlanOf s) = .ok plans) (suits : s.Suits P) (hd : ∀ d ∈ ds, d.Everywhere P)
    (hd' : ∀ d ∈ ds', d.Everywhere P) : ∀ d ∈ applyInits plans ds', d.Everywhere P := by
  rw [mapM_eq_ok] at h
  induction h generalizing ds' with
  | nil =>
    unfold applyInits
    exact hd'
  | cons head _ ih =>
    cases ds' with
    | nil => exact hd'
    | cons d' ds' =>
      rw [forall_mem_cons] at hd hd'
      exact forall_mem_cons.2 ⟨InitPlan.everywhere_apply head suits hd.1 hd'.1, ih hd.2 hd'.2⟩

theorem VarDecl.everywhere_applyInits {ds : Many .declarator} {decl' : VarDecl} {plans}
    (h : ds.toList.mapM (initPlanOf s) = .ok plans) (suits : s.Suits P) (hd : ds.Everywhere P)
    (hd' : decl'.Everywhere P) : (decl'.applyInits plans).Everywhere P := by
  match decl', hd' with
  | VarDecl.mk mark' form' ds', hd' =>
    have inits := Reify.everywhere_applyInits h suits (Tree.Everywhere.toList hd)
      (Tree.Everywhere.toList hd'.2.1)
    simpa [VarDecl.applyInits] using inits

/-! ### What statements get -/

/-- The predicate holds everywhere in what declarations of an interface come to. -/
structure Pending.Everywhere (P : (c : Category) → Tree c → Prop) (p : Pending) : Prop where
  typeParams : ∀ ps ∈ p.typeParams, (Tree.ofList ps).Everywhere P
  bases : ∀ t ∈ p.bases, t.Everywhere P
  members : ∀ m ∈ p.members, m.Everywhere P

/-- The predicate holds everywhere in the interfaces of a statement list. -/
structure Frame.Everywhere (P : (c : Category) → Tree c → Prop) (f : Frame) : Prop where
  interfaces : ∀ i ∈ f.interfaces, ∀ m ∈ i.2, m.Everywhere P
  pending : ∀ p ∈ f.pending, p.2.Everywhere P

omit [Routine P] in
theorem Frame.Everywhere.interfaceMembers {f : Frame} (h : f.Everywhere P) (name : String) :
    ∀ m ∈ f.interfaceMembers name, m.Everywhere P := by
  intro m hm
  obtain ⟨i, hi, hm⟩ := mem_flatMap.1 hm
  exact h.interfaces i (mem_of_mem_filter hi) m hm

omit [Routine P] in
theorem Frame.Everywhere.joined {f : Frame} (h : f.Everywhere P) (name : Option String) :
    ∀ m ∈ (name.map f.interfaceMembers).getD [], m.Everywhere P := by
  cases name with
  | none => exact nofun
  | some name => exact h.interfaceMembers name

theorem Pending.Everywhere.add {p : Pending} (h : p.Everywhere P) (hd : d.Everywhere P) :
    (p.add d).Everywhere P := by
  match d, hd with
  | InterfaceDecl.mk mark form typeParams bases members, hd =>
    obtain ⟨-, params, bases, members, -⟩ := hd
    refine ⟨?_, forall_mem_append.2 ⟨h.bases, ?_⟩, forall_mem_append.2 ⟨h.members, ?_⟩⟩
    · intro ps hps
      change (p.typeParams <|> typeParams.toOption.map Tree.toList) = some ps at hps
      cases own : p.typeParams with
      | some qs =>
        rw [own] at hps
        obtain rfl := Option.some.inj hps
        exact h.typeParams _ own
      | none =>
        rw [own] at hps
        obtain ⟨u, hu, rfl⟩ := Option.map_eq_some_iff.1 hps
        rw [Tree.ofList_toList]
        exact Tree.Everywhere.toOption params u hu
    · exact forall_mem_map.2 fun t ht => (Tree.Everywhere.toList bases t ht).copy
    · exact forall_mem_map.2 fun t ht => (Tree.Everywhere.toList members t ht).copy

/-- Adding a declaration of an interface keeps the predicate, and it holds everywhere in what the
declarations come to. -/
theorem Frame.Everywhere.accumulate {f : Frame} (h : f.Everywhere P) (hd : d.Everywhere P) :
    (f.accumulate d).1.Everywhere P ∧ ∀ p ∈ (f.accumulate d).2, p.Everywhere P := by
  have before : ((f.pending.lookup d.name).getD
      { remaining := f.expected d.name }).Everywhere P := by
    cases found : f.pending.lookup d.name with
    | none => exact ⟨nofun, nofun, nofun⟩
    | some p =>
      obtain ⟨before, after, same, -⟩ := lookup_eq_some_iff.1 found
      exact h.pending (d.name, p) (by simp [same])
  have others : ∀ p ∈ f.pending.filter (·.1 != d.name), p.2.Everywhere P :=
    fun p hp => h.pending p (mem_of_mem_filter hp)
  rw [accumulate_eq]
  dsimp only
  split
  · refine ⟨⟨h.interfaces, others⟩, ?_⟩
    rintro _ ⟨⟩
    exact before.add hd
  · exact ⟨⟨h.interfaces, forall_mem_cons.2 ⟨before.add hd, others⟩⟩, nofun⟩

theorem Frame.Everywhere.passing {f : Frame} (h : f.Everywhere P) {s} (hs : s.Everywhere P) :
    (f.passing s).Everywhere P := by
  refine ⟨(f.passing_lists s).2 ▸ h.interfaces, ?_⟩
  obtain ⟨form, marks, ts⟩ := s
  cases form with
  | classDecl =>
    obtain _ | m := marks
    obtain _ | ⟨⟨form, _ | _, _ | ⟨_, _ | ⟨name, _ | ⟨_, _ | ⟨_, _ | ⟨_, _ | ⟨_, _ | ⟨_, _ | _⟩⟩⟩⟩⟩⟩⟩⟩,
      _ | _⟩ := ts
    change ∀ p ∈ (if form.ambient then f
      else f.mergeClass (name.toOption.map Name.text)).pending, _
    split
    · exact h.pending
    · cases name.toOption.map Name.text with
      | none => exact h.pending
      | some name =>
        rw [Frame.mergeClass]
        split <;> exact h.pending
  | interfaceDecl =>
    obtain _ | m := marks
    obtain _ | ⟨⟨_, _ | _, _ | ⟨_, _ | ⟨_, _ | ⟨_, _ | _⟩⟩⟩⟩, _ | _⟩ := ts
    rw [Frame.passing_interface rfl]
    have added := (h.accumulate hs.2.1).1.pending
    split
    · exact h.pending
    · split
      · exact h.pending
      · split
        · exact h.pending
        · exact added
  | _ => exact h.pending

theorem Frame.everywhere_ofStmts {ss} (h : ∀ s ∈ ss, s.Everywhere P) :
    (Frame.ofStmts ss).Everywhere P := by
  refine ⟨?_, nofun⟩
  intro i hi
  obtain ⟨s, hs, found⟩ := mem_filterMap.1 hi
  have harmless := h s hs
  match s, harmless, found with
  | .node (c := .stmt) form marks ts, harmless, found =>
    cases form with
    | interfaceDecl =>
      match marks, ts, harmless, found with
      | .one m, .cons (InterfaceDecl.mk _ form _ _ members) .nil, harmless, found =>
        change (if form.ambient then none
          else some (form.name, members.toList.map Tree.detach)) = some i at found
        split at found
        · cases found
        · obtain rfl := Option.some.inj found
          obtain ⟨-, ⟨-, -, -, members, -⟩, -⟩ := harmless
          exact forall_mem_map.2 fun t ht => (Tree.Everywhere.toList members t ht).copy
    | _ => cases found

theorem everywhere_classStmt {m d} : (Stmt.classDecl m d).Everywhere P ↔ d.Everywhere P := by
  simp

/-- What is put behind a statement is a constant with a reflection. -/
theorem Planned.followers (h : Planned w stmt plan fs w') (hs : stmt.Everywhere P)
    (frame : w.context.frame.Everywhere P) :
    ∀ f ∈ fs, ∃ loc name value exported, f = constStmt loc name value exported ∧
      Reflection.Built w.context.scope P [] value := by
  cases h with
  | interfaceDecl hd _ _ _ last reflected =>
    have gathered := (frame.accumulate hs.2.1).2 _ last
    refine forall_mem_singleton.2 ⟨_, _, _, _, rfl, ?_⟩
    refine Scope.namedType_built ?_ (fun bound e he => ?_) reflected
    · cases params : Pending.typeParams _ with
      | none => exact Tree.everywhere_ofList.2 ⟨Routine.noParams, nofun⟩
      | some ps => exact gathered.typeParams ps params
    · exact Scope.interfaceBody_built gathered.bases gathered.members he
  | aliasDecl _ reflected =>
    obtain ⟨-, ⟨-, typeParams, type, -⟩, -⟩ := hs
    refine forall_mem_singleton.2 ⟨_, _, _, _, rfl, ?_⟩
    exact Scope.namedType_built (Tree.Everywhere.typeParams typeParams) (fun bound e he =>
      (Scope.builds_reflectUnder _ bound _ e type he).built) reflected
  | _ => exact nofun

/-- What is put behind a statement keeps the predicate. -/
theorem Planned.everywhere_followers (h : Planned w stmt plan fs w') (hs : stmt.Everywhere P)
    (frame : w.context.frame.Everywhere P) (suits : w.context.scope.Suits P) :
    ∀ f ∈ fs, f.Everywhere P := by
  intro f hf
  obtain ⟨loc, name, value, exported, rfl, built⟩ := h.followers hs frame f hf
  exact everywhere_constStmt.2 (built.everywhere suits)

end

end Reify
