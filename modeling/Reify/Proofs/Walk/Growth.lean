import Reify.Proofs.Check.Growth
import Reify.Proofs.Walk.State

/-!
# The walk only adds code

A walk keeps the outline of what it walks (`Walks.outlined`).  One that reports nothing makes its
unit grow: every plan on its way was worked out, so every plan adds what the program made and takes
nothing away (`Walks.grows`).
-/

namespace Reify

/-! ### Outlines -/

/-- What comes out of a task has the outline of what went in. -/
def Task.Outlined : (k : Task) → k.Out → Prop
  | @node c t _, (t', _) => Alike (.tree c) t t'
  | @inner _ t _, t' => SameRoot t t'
  | @parts cs _ ts, ts' => Alike (.parts cs) ts ts'
  | @child c _ t, t' => Alike (.tree c) t t'
  | @each c _ ts, ts' => Alike (.list c) ts ts'
  | stmts _, _ => True

variable {f' f : Func} {w' w w₁ : Walker} {plan : StmtPlan} {s : Stmt} {fs : List Stmt}
  {decl decl' : VarDecl}

theorem FuncPlan.alike_apply (plan : FuncPlan) (h : SameRoot f f') :
    Alike (.tree .func) f (plan.apply f') := by
  cases h with
  | @mk form marks ts ts' parts =>
    match marks, ts, ts', parts with
    | .one _, .cons _ (.cons _ (.cons _ (.cons body .nil))),
      .cons _ (.cons _ (.cons _ (.cons body' .nil))),
      .partsCons typeParams (.partsCons params (.partsCons result (.partsCons bodies .partsNil))) =>
      refine .node rfl (.partsCons typeParams (.partsCons params (.partsCons result
        (.partsCons ?_ .partsNil))))
      rcases bodies.maybe_inv with ⟨rfl, rfl⟩ | ⟨b, b', rfl, rfl, alike⟩
      · exact .refl _
      · refine .node rfl (.partsCons ?_ .partsNil)
        rcases alike.body_inv with ⟨ss, ss', rfl, rfl⟩ | ⟨e, rfl⟩
        · exact .block
        · exact .expr

theorem applyFuncPlan_alike (r : Except Unsupported (Option FuncPlan)) (h : SameRoot f f') :
    Alike (.tree .func) f (applyFuncPlan r f') := by
  rcases r with u | _ | plan
  · exact .of_root h
  · exact .of_root h
  · exact plan.alike_apply h

/-- A walk keeps the outline of what it walks. -/
theorem Walks.outlined {p k out vs} (h : Walks p k w out w' vs) : k.Outlined out := by
  induction h with
  | inert _ _ ih => exact .of_root ih
  | func _ _ ih => exact applyFuncPlan_alike _ ih
  | inner _ _ ih => exact .mk ih
  | doWhile _ _ first second => exact .mk (.partsCons second (.partsCons first .partsNil))
  | partsNil => exact .partsNil
  | partsCons _ _ head tail => exact .partsCons head tail
  | skip | toldAbsent => exact .refl _
  | @told _ _ _ c _ _ _ _ _ _ ih =>
    cases c with
    | stmt => exact .loose rfl
    | _ => exact ih
  | @toldMany _ _ _ _ _ _ _ t _ ih =>
    have whole := Alike.many ih
    rwa [Tree.ofList_toList] at whole
  | toldPresent _ ih => exact .of_parts (.partsCons ih .partsNil)
  | inScope _ _ ih | generic _ ih => exact ih
  | eachNil => exact .listNil
  | eachCons _ _ head tail => exact .listCons head tail
  | stmtsNil | stmtsCons => trivial
  | _ => exact .loose rfl

/-! ### Growth -/

/-- Only statements that declare named types have followers. -/
def Tree.Follows : {c : Category} → Tree c → List Stmt → Prop
  | .stmt, s, fs => fs = [] ∨ StmtForm.hasFollowers s.form = true
  | _, _, _ => True

theorem Tree.follows_nil {c} (t : Tree c) : t.Follows [] := by
  cases c with
  | stmt => exact .inl rfl
  | _ => trivial

theorem PlannedOnce.follows (h : PlannedOnce w s plan fs w') : s.Follows fs := by
  cases h with
  | visited => exact .inl rfl
  | fresh _ planned =>
    cases planned with
    | interfaceDecl | aliasDecl => exact .inr rfl
    | _ => exact .inl rfl

theorem PlannedOnce.isAdded_followers {w w' s plan fs} (h : PlannedOnce w s plan fs w') :
    ∀ f ∈ fs, f.IsAdded := by
  cases h with
  | visited => exact nofun
  | fresh _ planned => exact planned.isAdded_followers

theorem PlannedOnce.grows {s' : Stmt} (h : PlannedOnce w s plan fs w') (root : SameRoot s s')
    (grown : Grows (.tree .stmt) s s') : Grows (.tree .stmt) s (plan.apply s') := by
  cases h with
  | visited => exact grown
  | fresh _ planned => exact (planned.reworked_made root []).keepsGrowth s grown

/-- What comes out of a task is what went in with code added. -/
def Task.Grown : (k : Task) → k.Out → Prop
  | @node c t _, (t', fs) => Grows (.tree c) t t' ∧ (∀ f ∈ fs, f.IsAdded) ∧ t.Follows fs
  | @inner c t _, t' => Grows (.tree c) t t'
  | @parts cs _ ts, ts' => Grows (.parts cs) ts ts'
  | @child c _ t, t' => Grows (.tree c) t t'
  | @each c _ ts, ts' => Grows (.list c) ts ts'
  | stmts rest, out => GrowsList rest out

namespace Grows

variable {c : Category}

/-- A statement and those that follow it still are what the statement was, with code added. -/
theorem followedBy {t t' : Tree c} (h : Grows (.tree c) t t') (added : ∀ f ∈ fs, f.IsAdded)
    (follows : t.Follows fs) : Grows (.tree c) t (t'.followedBy fs) := by
  cases c with
  | stmt =>
    cases fs with
    | nil => exact h
    | cons f fs => exact .wrapped (follows.resolve_left nofun) h (.keep (.of_added added))
  | _ => exact h

theorem forInit_inv (h : Grows (.tree .forInit) (ForInit.decl decl) (ForInit.decl decl')) :
    Grows (.tree .varDecl) decl decl' := by
  cases h with
  | node _ parts =>
  cases parts with
  | partsCons h _ => exact h

end Grows

theorem applyFuncPlan_grows {role r} (planned : (planFuncOnce role f).run w = (r, w₁))
    (clean : (w₁.report r).errors = []) (h : Grows (.tree .func) f f') :
    Grows (.tree .func) f (applyFuncPlan r f') := by
  obtain ⟨plan, rfl, -, ⟨-, rfl, -⟩ | ⟨-, planned, -⟩⟩ := planFuncOnce_clean planned clean
  · exact h
  · cases plan with
    | none => exact h
    | some plan => exact (FuncPlan.reworked_made planned [] f').keepsGrowth f h

theorem applyInits_grows {plans} (planned : (planVarOnce decl).run w = (plans, w₁))
    (clean : w₁.errors = []) (h : Grows (.tree .varDecl) decl decl') :
    Grows (.tree .varDecl) decl (VarDecl.applyInits plans decl') := by
  match decl, planned with
  | VarDecl.mk mark form ds, planned =>
    obtain ⟨-, ⟨-, rfl, -⟩ | ⟨-, planned, -⟩⟩ := planVarOnce_clean rfl planned clean
    · match decl', h with
      | VarDecl.mk _ _ ds', h => simpa [VarDecl.applyInits, applyInits] using h
    · exact (VarDecl.reworked_made planned [] decl').keepsGrowth _ h

/-- **Growth of walks.**  What comes out of a walk that reports nothing is what went in, with code
added. -/
theorem Walks.grows {p k w w' out vs} (h : Walks p k w out w' vs) :
    w'.errors = [] → k.Grown out := by
  induction h with
  | inert _ _ ih => exact fun clean => ⟨ih clean, nofun, Tree.follows_nil _⟩
  | stmt planned inner ih =>
    intro clean
    obtain ⟨-, once⟩ := planStmtOnce_clean planned (inner.clean clean)
    exact ⟨once.grows inner.outlined (ih clean), once.isAdded_followers, once.follows⟩
  | func planned inner ih =>
    exact fun clean => ⟨applyFuncPlan_grows planned (inner.clean clean) (ih clean), nofun, trivial⟩
  | header planned inner ih =>
    intro clean
    have decl := applyInits_grows planned (inner.clean clean) (ih clean).forInit_inv
    exact ⟨.of_parts (.partsCons decl .partsNil), nofun, trivial⟩
  | inner _ _ ih => exact fun clean => .of_parts (ih (by simpa using clean))
  | doWhile _ second ihFirst ihSecond =>
    intro clean
    exact .of_parts (.partsCons (ihSecond clean) (.partsCons (ihFirst (second.clean clean))
      .partsNil))
  | partsNil => exact fun _ => .partsNil
  | partsCons _ tail ihHead ihTail =>
    exact fun clean => .partsCons (ihHead (tail.clean clean)) (ihTail clean)
  | told _ ih => exact fun clean => (ih clean).1.followedBy (ih clean).2.1 (ih clean).2.2
  | toldMany _ ih => exact fun clean => GrowsList.many ⟨_, ih clean, .refl _⟩
  | toldPresent _ ih => exact fun clean => .of_parts (.partsCons (ih clean) .partsNil)
  | list _ ih | top _ ih => exact fun clean => GrowsList.many (ih clean)
  | inScope _ _ ih => exact ih
  | generic _ ih => exact fun clean => ih (by simpa using clean)
  | eachNil => exact fun _ => .listNil
  | eachCons _ tail ihHead ihTail =>
    exact fun clean => .listCons (ihHead (tail.clean clean)) (ihTail clean)
  | stmtsNil => exact fun _ => ⟨[], .listNil, .nil⟩
  | stmtsCons _ tail ihHead ihTail =>
    intro clean
    obtain ⟨head, followers, -⟩ := ihHead (tail.clean clean)
    obtain ⟨us, each, padded⟩ := ihTail clean
    exact ⟨_ :: us, .listCons head each, .keep ((Padded.of_added followers).append padded)⟩
  | _ => exact fun _ => .refl _

end Reify
