import Reify.Proofs.Check.Applied
import Reify.Proofs.Check.Everywhere

/-!
# What plans add

`Planted` lists the kinds of code that plans add, with the reflections in it and the scopes that
those were made in.  What is worked out for a statement adds nothing else (`Planned.planted`), so
that whatever has to be known of added code is shown by cases on `Planted`.
-/

namespace Reify

open List

/-- The scopes in which types are reflected at and inside a place, and where that happens. -/
inductive Scope.Reaches (s : Scope) (around : List Around) : Scope → List Around → Prop where
  | here : Reaches s around s around
  | func {s' around' names} (h : Reaches s around s' around') :
      Reaches s around (s'.withGenerics names .constant) around'
  | member {s' around' className names static constructor} (h : Reaches s around s' around') :
      Reaches s around (s'.withGenerics names (memberAccess className static constructor))
        (.ofMember static constructor :: .ofClass className names :: around')
  | inside {s' around' x} (h : Reaches s around s' around') : Reaches s around s' (x :: around')

theorem Scope.Reaches.options_eq {s s' : Scope} {around around'} (h : s.Reaches around s' around') :
    s'.options = s.options := by
  induction h with
  | here => rfl
  | func _ ih | member _ ih => rw [options_withGenerics, ih]
  | inside _ ih => exact ih

open Reflection in
/-- **What plans add** at and inside a place with the scope `s`. -/
inductive Planted (s : Scope) (P : (c : Category) → Tree c → Prop) (around : List Around) :
    Addition where
  | opens {s' around' f stmt} (scope : s.Reaches around s' around') (source : f.Everywhere P)
      (h : Opens s' f stmt) : Planted s P around around' .stmt stmt
  | constructs {s' around' decl stmt} (scope : s.Reaches around s' around')
      (source : decl.Everywhere P) (h : Constructs s' decl stmt) :
      Planted s P around around' .stmt stmt
  | check {s' around' e} (scope : s.Reaches around s' around') (h : Reflected s' P [] e) :
      Planted s P around around' .expr e
  | result {around' loc name} : Planted s P around around' .expr (Synthetic.ident loc name)
  | decorator {s' around' loc name e value} (scope : s.Reaches around s' around')
      (h : Built s' P [] e) (same : value = e ∨ value = deferredReflection loc e) :
      Planted s P around around' .decorator
        (Synthetic.decorator loc (s'.libraryCall loc name [value]))
  | symbol {s' around' loc name} :
      Planted s P around around' .classMember (symbolMember s' loc name)
  | constructor {around' loc derived} :
      Planted s P around around' .classMember (ConstructorPlan.defaultConstructor loc derived)

section

variable {P : (c : Category) → Tree c → Prop} [Routine P] {s : Scope} {around : List Around}

/-- What holds everywhere in the source holds everywhere in what is added. -/
theorem Planted.everywhere {around' c t} (h : Planted s P around around' c t)
    (suits : ∀ s', s.Reaches around s' around' → s'.Suits P ∧ s'.SuitsBeside P) :
    t.Everywhere P := by
  cases h with
  | opens scope source h => exact h.everywhere (suits _ scope).1 source
  | constructs scope source h => exact h.everywhere (suits _ scope).2 source
  | check scope h => exact h.built.everywhere (suits _ scope).1
  | result => exact everywhere_ident
  | decorator scope h same =>
    have value := h.everywhere (suits _ scope).1
    rcases same with rfl | rfl
    · simpa [Synthetic.decorator] using value
    · simpa [Synthetic.decorator] using everywhere_deferred value
  | symbol => exact everywhere_symbolMember
  | constructor => exact everywhere_defaultConstructor

variable {s₀ : Scope} {around₀ : List Around}

theorem FuncPlan.planted {role f plan} (h : funcPlanOf s role f = .ok (some plan))
    (hf : f.Everywhere P) (scope : s₀.Reaches around₀ s around) :
    plan.Adds (Planted s₀ P around₀) around := by
  obtain ⟨opens, result⟩ := bodyPlanOf_opens (bodyPlanOf_of_some h)
  refine ⟨fun stmt hs => .opens scope.func hf (opens stmt hs), fun r hr => ?_, fun _ loc => ?_⟩
  · obtain ⟨loc, e, t, ht, reflected, rfl⟩ := result r hr
    exact .check scope.func
      (.call (forall_mem_singleton.2 (Scope.reflect_built (hf.subtree ht) reflected).built))
  · exact .result

theorem PlansMember.planted {className names w w'} {m m' : ClassMember} {plan}
    (h : PlansMember className names w m plan w') (alike : Alike (.tree .classMember) m m')
    (hm : m.Everywhere P) (scope : s₀.Reaches around₀ w.context.scope around) :
    plan.Adds (Planted s₀ P around₀) (m'.around (.ofClass className names :: around)) := by
  rw [alike.around_member]
  cases h with
  | @func _ _ _ _ _ _ _ _ f _ plan hd _ planned =>
    cases plan with
    | none => trivial
    | some plan =>
      refine FuncPlan.planted planned ?_ scope.member
      rw [hd] at hm
      exact hm.2.2.2.2.1.2.1
  | property hd typed reflected =>
    rw [hd, checked?_eq_some typed] at hm
    have value := Scope.reflect_built (Tree.everywhere_present.1 hm.2.2.2.1) reflected
    change Planted s₀ P around₀ _ .decorator _
    rw [← Scope.libraryCall_withGenerics]
    exact .decorator scope.member value.built (.inr rfl)
  | _ => trivial

theorem PlansMembers.planted {className names w w'} {ms ms' : List ClassMember} {plans}
    (h : PlansMembers className names w ms plans w')
    (alike : Forall₂ (Alike (.tree .classMember)) ms ms') (hm : ∀ m ∈ ms, m.Everywhere P)
    (scope : s₀.Reaches around₀ w.context.scope around) :
    AddsAll (Planted s₀ P around₀) (.ofClass className names :: around) plans ms' := by
  induction h generalizing ms' with
  | nil => cases ms' <;> trivial
  | cons head tail ih =>
    cases alike with
    | cons first rest =>
      rw [forall_mem_cons] at hm
      refine ⟨head.planted first hm.1 scope, ih rest hm.2 ?_⟩
      rwa [head.scope_eq]

theorem InitPlan.planted {d plan} (h : initPlanOf s d = .ok plan) (hd : d.Everywhere P)
    (around : List Around) : plan.Adds (Planted s P around) around := by
  match d, h, hd with
  | Declarator.mk _ _ type init, h, hd =>
    rw [initPlanOf] at h
    split at h
    case h_1 t _ typed _ =>
      obtain ⟨e, reflected, rfl⟩ := map_eq_ok.1 h
      rw [checked?_eq_some typed] at hd
      exact .check .here (Scope.reflect_built (Tree.everywhere_present.1 hd.2.2.1) reflected)
    case h_2 =>
      obtain rfl := pure_eq_ok.1 h
      trivial

theorem ClassPlan.planted {w w₁} {decl decl' : ClassDecl}
    {mark form decorators name typeParams base baseArgs implemented members}
    (hd : decl = ClassDecl.mk mark form decorators name typeParams base baseArgs implemented
      members) {merged reflection plans finish} (alike : Alike (.tree .classDecl) decl decl')
    (source : decl.Everywhere P) (hm : ∀ m ∈ merged, m.Everywhere P)
    (reflected : w.context.scope.reflectClass mark.loc decl merged = .ok reflection)
    (planned : PlansMembers (ClassDecl.name? decl) (typeParams.toLists.map TypeParam.name) w
      members.toList plans w₁)
    (finished : planFinish w₁.context.scope reflection decl = .ok finish) :
    ClassPlan.Adds (Planted w.context.scope P around) around
      { members := plans, finish := some finish } decl' := by
  have surroundings : decl'.around around =
      .ofClass (ClassDecl.name? decl) (typeParams.toLists.map TypeParam.name) :: around := by
    rw [alike.around_classDecl, hd]
    rfl
  rw [planned.scope_eq] at finished
  obtain ⟨params, implemented⟩ := planFinish_constructs finished
  have constructs {x y : Around} {stmt : Stmt} (h : Constructs w.context.scope decl stmt) :
      Planted w.context.scope P around (x :: y :: around) .stmt stmt :=
    .constructs (.inside (.inside .here)) source h
  obtain ⟨checks, ps, -, -, same⟩ := planFinish_ok hd finished
  refine ⟨?_, ?_, ?_, ?_, ?_⟩
  · rw [surroundings]
    subst hd
    obtain ⟨_, _, _, _, _, _, members', rfl, each⟩ := alike.classDecl_inv
    exact planned.planted each
      (Tree.Everywhere.toList (everywhere_classDecl.1 source).2.2.2.2.2.2) .here
  · rintro _ ⟨⟩
    rw [surroundings, same]
    exact .decorator (.inside .here) (Scope.reflectClass_built source hm reflected) (.inl rfl)
  · rintro _ ⟨⟩ m hm
    rw [same] at hm
    obtain ⟨className, -, rfl⟩ := Option.map_eq_some_iff.1 hm
    exact .symbol
  · rintro _ ⟨⟩ derived
    exact .constructor
  · rintro _ ⟨⟩
    rw [surroundings]
    exact ⟨fun ps hps => ⟨constructs (params ps hps).1,
      fun st hst => constructs ((params ps hps).2 st hst)⟩,
      fun st hst => constructs (implemented st hst)⟩

/-- **What is worked out for a statement adds nothing else.** -/
theorem Planned.planted {w w'} {stmt stmt' : Stmt} {plan fs} (h : Planned w stmt plan fs w')
    (root : SameRoot stmt stmt') (hs : stmt.Everywhere P) (frame : w.context.frame.Everywhere P)
    (around : List Around) : plan.Adds (Planted w.context.scope P around) around stmt' := by
  cases h with
  | ambientClass =>
    cases root with
    | @mk _ _ _ ts' parts =>
    match ts' with
    | .cons _ .nil => exact ⟨by unfold AddsAll; trivial, nofun, nofun, nofun, nofun⟩
  | classDecl hd _ reflected planned finished =>
    cases root with
    | @mk _ _ _ ts' parts =>
    match parts with
    | .partsCons alike .partsNil =>
      exact ClassPlan.planted hd alike hs.2.1 (frame.joined _) reflected planned finished
  | @funcDecl _ _ _ _ _ _ plan _ planned =>
    cases plan with
    | none => trivial
    | some plan => exact FuncPlan.planted planned hs.2.1.2.2.1 .here
  | varDecl planned =>
    have ds := Tree.Everywhere.toList hs.2.1.2.1
    exact forall_of_mapM (fun d hd p hp => InitPlan.planted hp (ds d hd) around) planned
  | _ => trivial

end

end Reify
