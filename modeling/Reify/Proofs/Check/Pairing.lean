import Reify.Proofs.Check.Mirroring
import Reify.Proofs.Check.Wrapping

/-!
# Two runs side by side

A walk over a statement and a walk over a copy of it with other numbers and other options, from
states that correspond: what is worked out in both is related, both report the same types, and the
states after it correspond again (`planStmtOnce_pairs`).  This holds whether or not every type has a
reflection.
-/

namespace Reify

open List Tree Synthetic

/-! ### Declarations -/

namespace Reflection

variable {R : (c : Category) → Tree c → Tree c → Prop} {T : TypeExpr → TypeExpr → Prop}

theorem related_typeParams (hT : ∀ t, T t t) (ps : List TypeParam) :
    Forall₂ (TypeParam.Related Eq T) ps ps := by
  refine forall₂_same.2 fun p _ => ?_
  match p with
  | TypeParam.mk _ _ _ _ => exact .mk rfl (related_option fun t _ => hT t)

end Reflection

namespace Scope.Corresponds

open Reflection

variable {s s' : Scope} {R : (c : Category) → Tree c → Tree c → Prop}
  (M : s.Corresponds s' Eq R) (hR : ∀ e, e.Synthetic → R .expr e e)

include M hR

theorem reflectUnder (t : TypeExpr) : Agrees Eq R s.reflectUnder s'.reflectUnder t t :=
  M.reflectWithin hR t.height t

theorem reflect (t : TypeExpr) : Agree Eq (R .expr) (s.reflect t) (s'.reflect t) :=
  M.reflectUnder hR t []

theorem reflectAll (bound : List String) (ts : List TypeExpr) :
    Agree Eq (Forall₂ (R .expr)) (ts.mapM (s.reflectUnder bound))
      (ts.mapM (s'.reflectUnder bound)) :=
  agree_mapM (forall₂_same.2 fun t _ => M.reflectUnder hR t)

theorem namedType (loc : Loc) (name : String) (ps : List TypeParam) {body body'}
    (hb : ∀ bound, Agree Eq (R .expr) (body bound) (body' bound)) :
    Agree Eq (R .expr) (s.namedType loc name ps body) (s'.namedType loc name ps body') := by
  have call {e e' : Expr} (he : R .expr e e') : Agree Eq (R .expr)
      (pure (s.libraryCall loc "type" [str loc name, e]))
      (pure (s'.libraryCall loc "type" [str loc name, e'])) :=
    .pure (M.libraryCall rfl _ (.cons (M.str rfl name) (.cons he .nil)))
  rw [Scope.namedType, Scope.namedType, ← M.localName]
  split
  · exact (hb []).bind fun _ _ => call
  · exact (agree_factory M rfl (related_typeParams (M.reflectUnder hR) ps) hb).bind
      fun _ _ => call

theorem reflectMembers (bound : List String) (es : List MemberEntry) :
    Agree Eq (Forall₂ (R .expr)) (s.reflectMembers bound es) (s'.reflectMembers bound es) :=
  agree_members M (forall₂_same.2 fun _ _ => .refl hR fun t _ => M.reflectUnder hR t)

theorem interfaceBody (bound : List String) (loc : Loc) (bases : List TypeExpr)
    (members : List TypeMember) :
    Agree Eq (R .expr) (s.interfaceBody bound loc bases members)
      (s'.interfaceBody bound loc bases members) := by
  refine (M.reflectMembers hR bound _).bind fun es es' hes => ?_
  have object : R .expr (s.libraryCall loc "object" es) (s'.libraryCall loc "object" es') :=
    M.libraryCall rfl "object" hes
  dsimp only
  split
  · exact .pure object
  · exact (M.reflectAll hR bound bases).bind fun bs bs' hbs =>
      .pure (M.libraryCall rfl _ (rel_append hbs (.cons object .nil)))

theorem classParts (bound : List String) (loc : Loc) (merged : List TypeMember) :
    (decl : ClassDecl) → Agree Eq (Forall₂ (R .expr)) (s.classParts bound loc decl merged)
      (s'.classParts bound loc decl merged)
  | ClassDecl.mk _ _ _ _ _ base baseArgs _ members => by
    have rest {hs hs' : List Expr} (heritage : Forall₂ (R .expr) hs hs') :
        Agree Eq (Forall₂ (R .expr))
          (do return hs ++ (← s.reflectMembers bound
            (classEntries members.toList ++ merged.map MemberEntry.ofMember)))
          (do return hs' ++ (← s'.reflectMembers bound
            (classEntries members.toList ++ merged.map MemberEntry.ofMember))) :=
      (M.reflectMembers hR bound _).bind fun _ _ hes => .pure (rel_append heritage hes)
    rw [Scope.classParts, Scope.classParts]
    cases base.toOption with
    | none => exact rest .nil
    | some base =>
      exact (M.reflectAll hR bound _).bind fun _ _ has =>
        rest (.cons (M.libraryCall rfl _ (.cons (hR _ base.synthetic_detach) has)) .nil)

theorem reflectClass (loc : Loc) (merged : List TypeMember) : (decl : ClassDecl) →
    Agree Eq (R .expr) (s.reflectClass loc decl merged) (s'.reflectClass loc decl merged)
  | ClassDecl.mk mark form decorators name typeParams base baseArgs implemented members => by
    let decl := ClassDecl.mk mark form decorators name typeParams base baseArgs implemented members
    have call {es es' : List Expr} (hes : Forall₂ (R .expr) es es') (name : String) :
        Agree Eq (R .expr) (pure (s.libraryCall loc "class" (str loc name :: es)))
          (pure (s'.libraryCall loc "class" (str loc name :: es'))) :=
      .pure (M.libraryCall rfl _ (.cons (M.str rfl _) hes))
    rw [Scope.reflectClass, Scope.reflectClass]
    dsimp only
    rw [← M.localName]
    split
    · exact (M.classParts hR [] loc merged decl).bind fun _ _ hes => call hes _
    · refine Agree.bind (A := R .expr) ?_ fun _ _ he => call (.cons he .nil) _
      refine agree_factory M rfl (related_typeParams (M.reflectUnder hR) _) ?_
      exact fun bound => (M.classParts hR bound loc merged decl).bind fun _ _ hes =>
        .pure (M.array rfl hes)

end Scope.Corresponds

/-! ### Functions -/

namespace Scope

variable (s : Scope) (o' : Options) (names : List String) (access : ParamAccess)

theorem withOptions_self : s.withOptions s.options = s := rfl

theorem withGenerics_withOptions :
    (s.withOptions o').withGenerics names access = (s.withGenerics names access).withOptions o' := by
  unfold withGenerics
  split <;> rfl

end Scope

theorem rel_head? {α β : Type} {A} {xs : List α} {ys : List β} (h : Forall₂ A xs ys) :
    Option.Rel A xs.head? ys.head? := by
  cases h with
  | nil => exact .none
  | cons head _ => exact .some head

namespace Agree

variable {α β : Type}

theorem refl (x : Except Unsupported α) : Agree Eq Eq x x := by
  cases x with
  | error u => exact .error rfl
  | ok a => exact .ok rfl

theorem getD_nil {A} {x : Except Unsupported (List α)} {y : Except Unsupported (List β)}
    (h : Agree Eq (Forall₂ A) x y) : Forall₂ A (x.toOption.getD []) (y.toOption.getD []) := by
  cases h with
  | ok related => exact related
  | error _ => exact .nil

theorem filterMapM {A} {f g : α → Except Unsupported (Option β)} {xs : List α}
    (h : ∀ x ∈ xs, Agree Eq (Option.Rel A) (f x) (g x)) :
    Agree Eq (Forall₂ A) (xs.filterMapM f) (xs.filterMapM g) := by
  induction xs with
  | nil => exact .pure .nil
  | cons x xs ih =>
    obtain ⟨first, others⟩ := forall_mem_cons.1 h
    rw [filterMapM_cons, filterMapM_cons]
    refine first.bind fun y y' related => ?_
    cases related with
    | none => exact ih others
    | some head => exact (ih others).bind fun _ _ tail => .pure (.cons head tail)

end Agree

section

variable {S : Sides} {s : Scope} (hs : s.options = S.left)

include hs

theorem typeParameterCall_agree (loc : Loc) (name : String) (bound : Maybe .type) :
    Agree Eq (Twin S .expr) (typeParameterCall s loc name bound)
      (typeParameterCall (s.withOptions S.right) loc name bound) := by
  have M := Scope.corresponds_twin hs
  rw [typeParameterCall, typeParameterCall]
  cases bound.toOption with
  | none => exact .pure (M.libraryCall rfl _ (.cons (.made synthetic_str) .nil))
  | some t =>
    exact (M.reflect (fun _ => Wraps.made) t).bind fun _ _ he =>
      .pure (M.libraryCall rfl _ (.cons (.made synthetic_str) (.cons he .nil)))

theorem typeParamConst_agree : (p : TypeParam) →
    Agree Eq (Twin S .stmt) (typeParamConst s p) (typeParamConst (s.withOptions S.right) p)
  | TypeParam.mk mark name bound _ =>
    (typeParameterCall_agree hs mark.loc name bound).bind fun _ _ he =>
      .pure ((Scope.corresponds_twin hs).constStmt rfl name he false)

theorem paramCheckOf_agree : (p : Param) →
    Agree Eq (Option.Rel (Twin S .stmt)) (paramCheckOf s p) (paramCheckOf (s.withOptions S.right) p)
  | Param.mk mark form decorators binding type default => by
    have M := Scope.corresponds_twin hs
    rw [paramCheckOf, paramCheckOf]
    generalize Param.isReceiver _ = receiver, checked? type = t, Param.name? _ = name
    rcases receiver, t, name with ⟨_ | _, _ | t, _ | name⟩
    case false.some.some =>
      refine (M.reflect (fun _ => Wraps.made) t).bind fun e e' he => .pure (.some ?_)
      have parameter : Twin S .expr (Reflection.parameter s mark.loc name e form.rest form.optional)
          (Reflection.parameter (s.withOptions S.right) mark.loc name e' form.rest form.optional) :=
        M.parameter rfl name he form.rest form.optional
      have named : Forall₂ (Twin S .expr) [ident mark.loc name]
        [ident mark.loc name] := .cons (.made synthetic_ident) .nil
      exact S.congruent.node (.site rfl) (.cons (twin_assertion parameter named) .nil)
    all_goals exact .pure .none

theorem bodyPlanOf_agree (role : Role) : (f : Func) →
    Agree Eq (FuncPlan.Related S) (bodyPlanOf s role f) (bodyPlanOf (s.withOptions S.right) role f)
  | Func.mk mark form typeParams params result body => by
    rw [bodyPlanOf, bodyPlanOf]
    have hs : (s.withGenerics (Func.typeParamNames (Func.mk mark form typeParams params result body))
      .constant).options = S.left := (s.options_withGenerics _ _).trans hs
    rw [Scope.withGenerics_withOptions]
    revert hs
    generalize s.withGenerics _ _ = s
    intro hs
    have M := Scope.corresponds_twin hs
    have consts : Agree Eq (Forall₂ (Twin S .stmt))
        (typeParams.toLists.mapM (typeParamConst s))
        (typeParams.toLists.mapM (typeParamConst (s.withOptions S.right))) :=
      .mapM (forall₂_same.2 fun p _ => typeParamConst_agree hs p)
    have results : Agree Eq (Forall₂ (Twin S .expr))
        ((resultCheck? role form result).toList.mapM fun t => do
          return s.libraryCall mark.loc "return" [← s.reflect t])
        ((resultCheck? role form result).toList.mapM fun t => do
          return (s.withOptions S.right).libraryCall mark.loc "return" [← (s.withOptions S.right).reflect t]) :=
      .mapM (forall₂_same.2 fun t _ => (M.reflect (fun _ => Wraps.made) t).bind fun _ _ he =>
        .pure (M.libraryCall rfl _ (.cons he .nil)))
    have asserts : Agree Eq (Forall₂ (Twin S .stmt))
        (params.toList.filterMapM (paramCheckOf s))
        (params.toList.filterMapM (paramCheckOf (s.withOptions S.right))) :=
      .filterMapM fun p _ => paramCheckOf_agree hs p
    refine consts.bind fun _ _ consts => results.bind fun _ _ results =>
      asserts.bind fun _ _ asserts => .pure ?_
    rw [M.localName]
    exact .mk consts (rel_head? results) asserts

theorem funcPlanOf_agree (role : Role) (f : Func) :
    Agree Eq (Option.Rel (FuncPlan.Related S)) (funcPlanOf s role f)
      (funcPlanOf (s.withOptions S.right) role f) := by
  have planned := bodyPlanOf_agree hs role f
  match f, planned with
  | Func.mk _ _ _ _ _ body, planned =>
    rw [funcPlanOf, funcPlanOf]
    cases body.toOption with
    | none => exact .pure .none
    | some _ => exact planned.bind fun _ _ related => .pure (.some related)

end

/-! ### Steps of a walk -/

/-- A state with other options in its scope. -/
def Context.withOptions (c : Context) (options : Options) : Context :=
  c.mapScope (·.withOptions options)

/-- What corresponds to a state on the other side; `n` is the next free number there. -/
def Sides.context (S : Sides) (n : Nat) (c : Context) : Context :=
  (c.renumber S.toRenumbering n).withOptions S.right

/-- States of two runs that correspond.  With the same options, so do the logs. -/
structure Walker.Paired (S : Sides) (n : Nat) (w w' : Walker) : Prop where
  options : w.context.scope.options = S.left
  context : w'.context = S.context n w.context
  errors : w'.errors = w.errors
  log : S.right = S.left → w'.log = w.log

/-- From paired states the steps lead to paired states and give related answers. -/
def Walk.Pairs (S : Sides) (n : Nat) {α β : Type} (A : α → β → Prop) (act : Walk α)
    (act' : Walk β) : Prop :=
  ∀ w w', w.Paired S n w' →
    A (act.run w).1 (act'.run w').1 ∧ (act.run w).2.Paired S n (act'.run w').2

namespace Walk.Pairs

variable {S : Sides} {n : Nat} {α β γ δ : Type} {A : α → β → Prop} {B : γ → δ → Prop}

theorem bind {act act' k k'} (h : Pairs S n A act act')
    (rest : ∀ a b, A a b → Pairs S n B (k a) (k' b)) : Pairs S n B (act >>= k) (act' >>= k') := by
  intro w w' paired
  obtain ⟨related, paired⟩ := h w w' paired
  exact rest _ _ related _ _ paired

theorem pure {a b} (h : A a b) : Pairs S n A (Pure.pure a) (Pure.pure b) :=
  fun _ _ paired => ⟨h, paired⟩

/-- A change to the state that neither reads nor changes the options. -/
theorem change {f f'} (h : ∀ c, f' (S.context n c) = S.context n (f c))
    (keeps : ∀ c, (f c).scope.options = c.scope.options) :
    Pairs S n Eq (Walk.change f) (Walk.change f') := by
  intro w w' paired
  refine ⟨rfl, (keeps _).trans paired.options, ?_, paired.errors, paired.log⟩
  exact (congrArg f' paired.context).trans (h _)

theorem declare (name : String) :
    Pairs S n Eq (Walk.change (·.declare name)) (Walk.change (·.declare name)) :=
  change (fun _ => rfl) fun _ => rfl

theorem setMerged (name : String) :
    Pairs S n Eq (Walk.change (·.setMerged name)) (Walk.change (·.setMerged name)) :=
  change (fun _ => rfl) fun _ => rfl

theorem recordMutation (i : Nat) :
    Pairs S n Eq (Walk.change (·.recordMutation i)) (Walk.change (·.recordMutation (S.map i))) :=
  change (fun _ => congrArg (·.withOptions S.right) (Context.recordMutation_renumber i)) fun _ => rfl

theorem markVisited (i : Nat) :
    Pairs S n Eq (Walk.change (·.markVisited i)) (Walk.change (·.markVisited (S.map i))) := by
  refine change (fun c => ?_) fun c => ?_
  · have inside (c : Context) (i : Nat) :
        (c.withOptions S.right).markVisited i = (c.markVisited i).withOptions S.right := by
      unfold Context.markVisited
      split <;> rfl
    exact (inside _ _).trans (congrArg (·.withOptions S.right) (Context.markVisited_renumber i))
  · unfold Context.markVisited
    split <;> rfl

/-- What is read is the same on both sides. -/
theorem read {f f' : Context → α} (h : ∀ c, f' (S.context n c) = f c) :
    Pairs S n Eq (Walk.read f) (Walk.read f') :=
  fun w _ paired => ⟨((congrArg f' paired.context).trans (h w.context)).symm, paired⟩

theorem wasVisited (i : Nat) :
    Pairs S n Eq (Walk.read (·.wasVisited i)) (Walk.read (·.wasVisited (S.map i))) :=
  read fun _ => Context.wasVisited_renumber (n := n) i

theorem log {line line'} (same : S.right = S.left → line' = line) :
    Pairs S n Eq (Walk.log line) (Walk.log line') := by
  refine fun w w' paired => ⟨rfl, paired.options, paired.context, paired.errors, fun alike => ?_⟩
  exact congrArg₂ (· ++ [·]) (paired.log alike) (same alike)

theorem report {x y} (h : Agree Eq A x y) : Pairs S n Eq (Walk.report x) (Walk.report y) := by
  cases h with
  | ok _ => exact .pure rfl
  | error place =>
    subst place
    exact fun _ _ paired =>
      ⟨rfl, paired.options, paired.context, congrArg (· ++ _) paired.errors, paired.log⟩

theorem reflect {f f'}
    (h : ∀ s, s.options = S.left → Agree Eq A (f s) (f' (s.withOptions S.right))) :
    Pairs S n (Agree Eq A) (Walk.reflect f) (Walk.reflect f') := by
  intro w w' paired
  have agree := h w.context.scope paired.options
  have scope : w'.context.scope = w.context.scope.withOptions S.right :=
    congrArg Context.scope paired.context
  rw [← scope] at agree
  exact ⟨agree, paired⟩

theorem attempt {f} {g : Scope → Except Unsupported α} {A} (answers : ∀ s, (f s).Answers (g s))
    (h : ∀ s, s.options = S.left → Agree Eq A (g s) (g (s.withOptions S.right))) :
    Pairs S n (Agree Eq A) (Walk.attempt f) (Walk.attempt f) := by
  intro w w' paired
  obtain ⟨agree, -⟩ := reflect h w w' paired
  rw [Walk.run_attempt, Walk.run_attempt, answers, answers]
  refine ⟨agree, paired.options, paired.context, paired.errors, fun alike => ?_⟩
  have scope : w'.context.scope = w.context.scope := by
    rw [paired.context, ← w.context.scope.withOptions_self, paired.options, ← alike]
    rfl
  exact congrArg₂ (· ++ ·) (paired.log alike) (congrArg (fun s => ((f s).run []).2) scope)

theorem forM {xs : List α} {f} (h : ∀ x, Pairs S n Eq (f x) (f x)) :
    Pairs S n Eq (xs.forM f) (xs.forM f) := by
  induction xs with
  | nil => exact .pure rfl
  | cons x xs ih => exact (h x).bind fun _ _ _ => ih

theorem optionForM {x : Option α} {f} (h : ∀ x, Pairs S n Eq (f x) (f x)) :
    Pairs S n Eq (x.forM f) (x.forM f) := by
  cases x with
  | none => exact .pure rfl
  | some x => exact h x

theorem logs {xs ys : List γ} {line} (same : S.right = S.left → ys.map line = xs.map line) :
    Pairs S n Eq (xs.forM fun x => Walk.log (line x)) (ys.forM fun y => Walk.log (line y)) := by
  have states (zs : List γ) (w : Walker) :
      (zs.forM fun z => Walk.log (line z)).run w = ((), { w with log := w.log ++ zs.map line }) := by
    induction zs generalizing w with
    | nil => exact congrArg (fun log => ((), { w with log })) (append_nil w.log).symm
    | cons z zs ih =>
      have rest := ih { w with log := w.log ++ [line z] }
      rw [append_assoc, singleton_append] at rest
      exact rest
  intro w w' paired
  rw [states, states]
  refine ⟨rfl, paired.options, paired.context, paired.errors, fun alike => ?_⟩
  exact congrArg₂ (· ++ ·) (paired.log alike) (same alike)

theorem mapM {k k'} {xs : List γ} {ys : List δ}
    (h : Forall₂ (fun x y => Pairs S n A (k x) (k' y)) xs ys) :
    Pairs S n (Forall₂ A) (xs.mapM k) (ys.mapM k') := by
  induction h with
  | nil => exact .pure .nil
  | cons head _ ih =>
    rw [mapM_cons, mapM_cons]
    exact head.bind fun _ _ related => ih.bind fun _ _ rest => .pure (.cons related rest)

section

variable {act : Walk α} {act' : Walk β} (h : Pairs S n A act act')

include h

theorem between {enter enter' leave} (first : Pairs S n Eq (Walk.change enter) (Walk.change enter'))
    (last : Pairs S n Eq (Walk.change leave) (Walk.change leave)) :
    Pairs S n A (do Walk.change enter; let a ← act; Walk.change leave; return a)
      (do Walk.change enter'; let a ← act'; Walk.change leave; return a) :=
  first.bind fun _ _ _ => h.bind fun _ _ related => last.bind fun _ _ _ => .pure related

theorem inScope : Pairs S n A (Walk.inScope act) (Walk.inScope act') :=
  h.between (change (fun _ => rfl) fun _ => rfl) (change (fun _ => rfl) fun _ => rfl)

theorem withGenerics (names : List String) (access : ParamAccess) :
    Pairs S n A (Walk.withGenerics names access act) (Walk.withGenerics names access act') := by
  unfold Walk.withGenerics
  split
  · exact h
  · exact h.between (change (fun _ => rfl) fun _ => rfl) (change (fun _ => rfl) fun _ => rfl)

theorem framed (stmts : List Stmt) :
    Pairs S n A (Walk.framed stmts act) (Walk.framed (stmts.map (Tree.renumber S.map)) act') := by
  refine h.between (change (fun c => ?_) fun _ => rfl) (change (fun c => ?_) fun _ => rfl)
  · rw [Context.pushFrame, Frame.ofStmts_renumber]
    rfl
  · rcases c with ⟨_, ⟨top, _ | ⟨_, _⟩⟩⟩ <;> rfl

end

end Walk.Pairs

/-! ### What is worked out -/

/-- Related plans with the same outcome. -/
def SameOutcome {α β : Type} (A : α → β → Prop) (x : α × Except Unsupported Unit)
    (y : β × Except Unsupported Unit) : Prop :=
  A x.1 y.1 ∧ x.2 = y.2

variable {e e' : Expr}

section

open Walk (Pairs)

variable {S : Sides} {n : Nat}

theorem planFuncOnce_pairs (role : Role) (f : Func) :
    Pairs S n (Agree Eq (Option.Rel (FuncPlan.Related S))) (planFuncOnce role f)
      (planFuncOnce role (f.renumber S.map)) := by
  unfold planFuncOnce
  rw [id_renumber]
  simp only [planFunc_renumber S.zero]
  refine (Pairs.wasVisited _).bind fun visited _ same => ?_
  subst same
  cases visited with
  | true => exact .pure (.ok .none)
  | false =>
    refine (Pairs.recordMutation _).bind fun _ _ _ => Pairs.bind (.attempt
      (fun s => Attempt.answers_planFunc s role f) fun s hs => funcPlanOf_agree hs role f) ?_
    intro r r' agree
    cases agree with
    | ok related => exact (Pairs.markVisited _).bind fun _ _ _ => .pure (.ok related)
    | error place => exact .pure (.error place)

theorem planMember_pairs (className : Option String) (names : List String) : (m : ClassMember) →
    Pairs S n (Agree Eq (MemberPlan.Related S)) (planMember className names m)
      (planMember className names (m.renumber S.map))
  | ClassMember.mk mark form decorators key type (MemberVal.function m kind f) => by
    let member := ClassMember.mk mark form decorators key type (MemberVal.function m kind f)
    have role := ClassMember.role_renumber S.map member
    have access := ClassMember.access_renumber S.map className member
    change Pairs S n _ _ (Walk.withGenerics names
      (ClassMember.access className (member.renumber S.map))
      (planFuncOnce (ClassMember.role (member.renumber S.map)) (f.renumber S.map)) >>= _)
    rw [role, access]
    refine ((planFuncOnce_pairs _ f).withGenerics names _).bind fun r r' agree => .pure ?_
    cases agree with
    | error place => exact .error place
    | ok related =>
      cases related with
      | none => exact .ok .keep
      | some plans => exact .ok (.check plans)
  | ClassMember.mk mark form decorators key type (MemberVal.property value) => by
    let member := ClassMember.mk mark form decorators key type (MemberVal.property value)
    have access := ClassMember.access_renumber S.map className member
    have renumbered : planMember className names (member.renumber S.map) = _ :=
      planMember_property rfl
    rw [planMember_property rfl, renumbered, access, checked?_renumber]
    cases checked? type with
    | none => exact .pure (.ok .keep)
    | some t =>
      simp only [Option.map_some, Scope.reflect_renumber S.zero, Mark.renumber_loc]
      refine .reflect fun s hs => ?_
      have inner := Scope.corresponds_twin
        ((s.options_withGenerics names (ClassMember.access className member)).trans hs)
      rw [Scope.withGenerics_withOptions]
      refine (inner.reflect (fun _ => Wraps.made) t).bind fun e e' he =>
        .pure (.decorate (S.congruent.node (.mark rfl) (.cons ?_ .nil)))
      refine (Scope.corresponds_twin hs).libraryCall rfl _ (.cons ?_ .nil)
      rw [deferredReflection, deferredReflection, he.mentionsThis_eq]
      split
      · exact S.congruent.node (.site rfl) (.cons S.congruent.absent (.cons
          (S.congruent.func rfl false .nil
            (S.congruent.block (.cons (S.congruent.returnStmt rfl he) .nil))) .nil))
      · exact he
  | ClassMember.mk _ _ _ _ _ (MemberVal.index _ _ _ _) => .pure (.ok .keep)

theorem planMembers_pairs (className : Option String) (names : List String)
    (ms : List ClassMember) :
    Pairs S n (SameOutcome (Forall₂ (MemberPlan.Related S)))
      (planMembers className names ms)
      (planMembers className names (ms.map (Tree.renumber S.map))) := by
  induction ms with
  | nil => exact .pure ⟨.nil, rfl⟩
  | cons m ms ih =>
    rw [map_cons, planMembers, planMembers]
    refine (planMember_pairs className names m).bind fun r r' agree => ?_
    cases agree with
    | error place =>
      subst place
      exact .pure ⟨.nil, rfl⟩
    | ok head =>
      exact ih.bind fun _ _ rest => .pure ⟨.cons head rest.1, rest.2⟩

/-! ### Classes -/

variable {s : Scope}

theorem implementsChecks_agree (hs : s.options = S.left) (loc : Loc) (className : Option String)
    (names : List String) (implemented : List TypeExpr) :
    Agree Eq (Forall₂ (Twin S .stmt)) (implementsChecks s loc className names implemented)
      (implementsChecks (s.withOptions S.right) loc className names implemented) := by
  have inner := Scope.corresponds_twin
    ((s.options_withGenerics names (memberAccess className false true)).trans hs)
  rw [implementsChecks, implementsChecks, Scope.withGenerics_withOptions]
  refine .mapM (forall₂_same.2 fun t _ =>
    (inner.reflect (fun _ => Wraps.made) t).bind fun _ _ he => .pure ?_)
  exact S.congruent.node (.site rfl)
    (.cons (twin_assertion he (.cons (.made synthetic_this) .nil)) .nil)

theorem twin_object {loc es es'}
    (he : Forall₂ (fun x y => x.1 = y.1 ∧ Twin S .expr x.2 y.2) es es') :
    Twin S .expr (object loc es) (object loc es') := by
  have entries : Forall₂ (Twin S .objMember)
      (es.map fun x => ObjMember.valued (.synthetic loc) (directKey loc x.1)
        (.property (.present x.2)))
      (es'.map fun x => ObjMember.valued (.synthetic loc) (directKey loc x.1)
        (.property (.present x.2))) := by
    refine List.rel_map (fun x y hx => ?_) he
    rw [hx.1]
    exact S.congruent.node (.mark rfl) (.cons (.made synthetic_directKey) (.cons
      (S.congruent.node .none (.cons (S.congruent.present hx.2) .nil)) .nil))
  exact S.congruent.node (.site rfl) (.cons (S.congruent.many entries) .nil)

theorem paramStmts_agree (hs : s.options = S.left) (loc : Loc) (className : String)
    (typeParams : List TypeParam) (baseArgs : List TypeExpr) :
    Agree Eq (ParamStmts.Related S) (paramStmts s loc className typeParams baseArgs)
      (paramStmts (s.withOptions S.right) loc className typeParams baseArgs) := by
  have M := Scope.corresponds_twin hs
  let names := typeParams.map TypeParam.name
  have outer := (s.options_withGenerics names .erased).trans hs
  have inner := Scope.corresponds_twin ((s.options_withGenerics names .ofConstructor).trans hs)
  have symbol : parametersSymbol s loc = parametersSymbol (s.withOptions S.right) loc := by
    rw [parametersSymbol, parametersSymbol, M.library]
  rw [paramStmts, paramStmts, ← M.localName, ← symbol, Scope.withGenerics_withOptions,
    Scope.withGenerics_withOptions]
  refine Agree.bind (A := Forall₂ fun x y => x.1 = y.1 ∧ Twin S .expr x.2 y.2)
    (.mapM (forall₂_same.2 fun p _ => ?_)) fun es es' entries =>
    (inner.reflectAll (fun _ => Wraps.made) [] baseArgs).bind fun as as' args => .pure ?_
  · obtain ⟨name, _ | _, _ | ⟨bound, _ | ⟨_, _ | _⟩⟩⟩ := p
    exact (typeParameterCall_agree outer loc name bound).bind fun _ _ he => .pure ⟨rfl, he⟩
  · refine .mk (M.constStmt rfl _ (twin_object entries) false) (.cons (.made ?_) ?_)
    · simp [parametersSymbol]
    · split
      · exact .nil
      · exact .cons (S.congruent.node (.site rfl)
          (.cons (M.libraryCall rfl _ (.cons (.made (by simp)) args)) .nil)) .nil

theorem ClassFinish.Related.isEmpty_constructor {f f' : ClassFinish} (hf : f.Related S f') :
    f.constructor.isEmpty = f'.constructor.isEmpty := by
  obtain ⟨⟨keeping, checks⟩, _⟩ := hf
  refine congrArg₂ (· && ·) ?_ (isEmpty_eq checks)
  cases keeping <;> rfl

theorem planFinish_agree (hs : s.options = S.left) (he : Twin S .expr e e') : (decl : ClassDecl) →
    Agree Eq (ClassFinish.Related S) (planFinish s e decl)
      (planFinish (s.withOptions S.right) e' decl)
  | ClassDecl.mk mark form decorators name typeParams base baseArgs implemented members => by
    have M := Scope.corresponds_twin hs
    let decl := ClassDecl.mk mark form decorators name typeParams base baseArgs implemented members
    let names := typeParams.toLists.map TypeParam.name
    have symbols (generic : Option String) : Option.Rel (Twin S .classMember)
        (generic.map (symbolMember s mark.loc))
        (generic.map (symbolMember (s.withOptions S.right) mark.loc)) := by
      cases generic with
      | none => exact .none
      | some name =>
        refine .some ?_
        rw [symbolMember, symbolMember, parametersSymbol, parametersSymbol, ← M.library]
        exact .made (by simp)
    rw [planFinish, planFinish]
    refine (implementsChecks_agree hs mark.loc (ClassDecl.name? decl) names
      implemented.toList).bind fun is is' checks => ?_
    have finished {params params' : Option ParamStmts}
        (hp : Option.Rel (ParamStmts.Related S) params params') (generic : Option String) :
        Agree Eq (ClassFinish.Related S)
          (pure {
            constructor := { loc := mark.loc, params, implemented := is }
            symbol := generic.map (symbolMember s mark.loc)
            reflection := decorator mark.loc (s.libraryCall mark.loc "annotate" [e]) })
          (pure {
            constructor := { loc := mark.loc, params := params', implemented := is' }
            symbol := generic.map (symbolMember (s.withOptions S.right) mark.loc)
            reflection := decorator mark.loc
              ((s.withOptions S.right).libraryCall mark.loc "annotate" [e']) }) :=
      .pure (.mk (.mk hp checks) (symbols generic)
        (S.congruent.node (.mark rfl) (.cons (M.libraryCall rfl _ (.cons he .nil)) .nil)))
    dsimp only
    cases (ClassDecl.name? decl).filter fun _ => !names.isEmpty with
    | none => exact finished .none none
    | some name =>
      have params := paramStmts_agree hs mark.loc name typeParams.toLists baseArgs.toLists
      exact Agree.bind (A := Option.Rel (ParamStmts.Related S))
        (params.bind fun _ _ hp => .pure (.some hp)) fun _ _ hp => finished hp (some name)

/-- With the same options, the constructors of a class are written to the log alike. -/
theorem ClassPlan.Related.texts_eq {plan plan' : ClassPlan} (plans : plan.Related S plan')
    (alike : S.right = S.left) (d : ClassDecl) :
    (constructorStmts (plan'.apply (d.renumber S.map)).memberList).map Stmt.text =
      (constructorStmts (plan.apply d).memberList).map Stmt.text := by
  rw [(plans.apply (.image d)).eq_renumber alike, ClassDecl.memberList_renumber,
    constructorStmts_renumber, map_map]
  exact map_congr_left fun s _ => Stmt.text_renumber s

theorem planClass_pairs : (decl : ClassDecl) →
    Pairs S n (SameOutcome (ClassPlan.Related S)) (planClass decl)
      (planClass (decl.renumber S.map))
  | ClassDecl.mk mark form decorators name typeParams base baseArgs implemented members => by
    let decl := ClassDecl.mk mark form decorators name typeParams base baseArgs implemented members
    have className : ClassDecl.name? (decl.renumber S.map) = ClassDecl.name? decl :=
      ClassDecl.name?_renumber decl
    change Pairs S n _ (planClass decl) (planClass (ClassDecl.mk (mark.renumber S.map) form
      (decorators.renumber S.map) (name.renumber S.map) (typeParams.renumber S.map)
      (base.renumber S.map) (baseArgs.renumber S.map) (implemented.renumber S.map)
      (members.renumber S.map)))
    change ClassDecl.name? (ClassDecl.mk _ _ _ _ _ _ _ _ _) = _ at className
    rw [planClass, planClass, className]
    dsimp only
    split
    · exact (Pairs.optionForM fun name => .declare name).bind fun _ _ _ => .pure ⟨.mk .nil .none, rfl⟩
    · refine .bind (.read fun _ => rfl) fun merged _ same => ?_
      subst same
      have reflected : Pairs S n (Agree Eq (Twin S .expr))
          (Walk.reflect fun s => s.reflectClass mark.loc decl merged)
          (Walk.reflect fun s => s.reflectClass mark.loc (decl.renumber S.map) merged) := by
        simp only [Scope.reflectClass_renumber S.zero]
        exact .reflect fun s hs => (Scope.corresponds_twin hs).reflectClass (fun _ => Wraps.made)
          mark.loc merged decl
      refine reflected.bind fun r r' agree => ?_
      cases agree with
      | error place =>
        subst place
        exact .pure ⟨.mk .nil .none, rfl⟩
      | @ok e e' reflections =>
        rw [toLists_renumber, TypeParam.names_renumber, toList_renumber]
        refine (planMembers_pairs _ _ _).bind fun planned planned' agree => ?_
        obtain ⟨plans, r⟩ := planned
        obtain ⟨plans', r'⟩ := planned'
        obtain ⟨each, rfl⟩ : _ ∧ r = r' := agree
        cases r with
        | error u => exact .pure ⟨.mk each .none, rfl⟩
        | ok _ =>
          have finished : Pairs S n (Agree Eq (ClassFinish.Related S))
              (Walk.reflect fun s => planFinish s e decl)
              (Walk.reflect fun s => planFinish s e' (decl.renumber S.map)) := by
            simp only [planFinish_renumber S.zero]
            exact .reflect fun s hs => planFinish_agree hs reflections decl
          refine finished.bind fun r r' agree => ?_
          cases agree with
          | error place =>
            subst place
            exact .pure ⟨.mk each .none, rfl⟩
          | ok finish =>
            have declared : Pairs S n Eq
                (ClassDecl.name? decl |>.forM fun name => do
                  if ← Walk.read (·.frame.hasInterface name) then Walk.change (·.setMerged name)
                  Walk.change (·.declare name))
                (ClassDecl.name? decl |>.forM fun name => do
                  if ← Walk.read (·.frame.hasInterface name) then Walk.change (·.setMerged name)
                  Walk.change (·.declare name)) := by
              refine .optionForM fun name => .bind (.read fun _ => rfl) fun b _ same => ?_
              subst same
              cases b with
              | false => exact .declare name
              | true => exact .bind (.setMerged name) fun _ _ _ => .declare name
            have plans := ClassPlan.Related.mk each (.some finish)
            have texts := fun alike => plans.texts_eq alike decl
            have same := finish.isEmpty_constructor
            dsimp only
            rw [same]
            split
            · refine .bind (.logs fun alike => ?_) fun _ _ _ =>
                declared.bind fun _ _ _ => .pure ⟨plans, rfl⟩
              have lines := congrArg (List.map fun text =>
                Log.Line.event .trace "constructor" [("stmt", .str text)]) (texts alike)
              rwa [map_map, map_map] at lines
            · exact declared.bind fun _ _ _ => .pure ⟨plans, rfl⟩

/-! ### Variables -/

theorem planInits_pairs (hs : s.options = S.left) (ds : List Declarator)
    (log log' : List Log.Line) :
    Forall₂ (InitPlan.Related S) ((planInits s ds).run log).1.1
        ((planInits (s.withOptions S.right) ds).run log').1.1 ∧
      ((planInits s ds).run log).1.2 = ((planInits (s.withOptions S.right) ds).run log').1.2 := by
  induction ds generalizing log log' with
  | nil => exact ⟨.nil, rfl⟩
  | cons d ds ih =>
    match d with
    | Declarator.mk mark binding type init =>
      rw [planInits, planInits]
      rcases checked? type, init.toOption with ⟨_ | t, _ | init⟩
      case some.some =>
        dsimp only
        have agree := (Scope.corresponds_twin hs).reflect (fun _ => Wraps.made) t
        revert agree
        generalize s.reflect t = r
        generalize (s.withOptions S.right).reflect t = r'
        intro agree
        cases agree with
        | error place =>
          subst place
          exact ⟨.cons .drop .nil, rfl⟩
        | ok reflections => exact ⟨.cons (.check reflections) (ih _ _).1, (ih _ _).2⟩
      all_goals exact ⟨.cons .keep (ih _ _).1, (ih _ _).2⟩

theorem planVar_pairs : (decl : VarDecl) →
    Pairs S n (SameOutcome (Forall₂ (InitPlan.Related S)))
      (planVar decl) (planVar (decl.renumber S.map))
  | VarDecl.mk mark form ds => by
    intro w w' paired
    have scope : w'.context.scope = w.context.scope.withOptions S.right :=
      congrArg Context.scope paired.context
    have names : (ds.renumber S.map).toList.flatMap Declarator.boundNames =
        ds.toList.flatMap Declarator.boundNames := by
      rw [toList_renumber, flatMap_map]
      exact congrArg (ds.toList.flatMap ·) (funext (Declarator.boundNames_renumber S.map))
    have planned := planInits_pairs paired.options ds.toList [] []
    have logged (alike : S.right = S.left) :
        ((planInits (w.context.scope.withOptions S.right) ds.toList).run []).2 =
          ((planInits w.context.scope ds.toList).run []).2 := by
      rw [alike, ← paired.options, Scope.withOptions_self]
    change SameOutcome _ _ (StateT.run (planVar (VarDecl.mk (mark.renumber S.map) form
      (ds.renumber S.map))) w').1 ∧ Walker.Paired S n _ (StateT.run (planVar (VarDecl.mk
        (mark.renumber S.map) form (ds.renumber S.map))) w').2
    rw [planVar, planVar, names, toList_renumber]
    -- as definitional steps these rewrites would have the kernel run `planInits`
    simp -implicitDefEqProofs only [planInits_renumber S.zero, StateT.run_bind, StateT.run_get,
      pure_bind, scope]
    revert planned logged
    generalize (planInits w.context.scope ds.toList).run [] = planned
    generalize (planInits (w.context.scope.withOptions S.right) ds.toList).run [] = planned'
    obtain ⟨⟨plans, r⟩, log⟩ := planned
    obtain ⟨⟨plans', r'⟩, log'⟩ := planned'
    rintro ⟨each, same⟩ logged
    obtain rfl : r = r' := same
    have written : Walker.Paired S n { w with log := w.log ++ log }
        { w' with log := w'.log ++ log' } :=
      ⟨paired.options, paired.context, paired.errors,
        fun alike => congrArg₂ (· ++ ·) (paired.log alike) (logged alike)⟩
    cases r with
    | error u => exact ⟨⟨each, rfl⟩, written⟩
    | ok _ =>
      have declared : Pairs S n (SameOutcome (Forall₂ (InitPlan.Related S)))
          (do
            (ds.toList.flatMap Declarator.boundNames).forM fun name => Walk.change (·.declare name)
            return (plans, Except.ok ()))
          (do
            (ds.toList.flatMap Declarator.boundNames).forM fun name => Walk.change (·.declare name)
            return (plans', Except.ok ())) :=
        (Pairs.forM fun name => .declare name).bind fun _ _ _ => .pure ⟨each, rfl⟩
      exact declared _ _ written

/-! ### Interfaces and type aliases -/

theorem reflectionConst_pairs (loc : Loc) (name : String) (he : Twin S .expr e e')
    (exported : Bool) :
    Pairs S n (Twin S .stmt) (reflectionConst loc name e exported)
      (reflectionConst loc name e' exported) := by
  have stmts : Twin S .stmt (constStmt loc name e exported)
      (constStmt loc name e' exported) :=
    S.congruent.constStmt rfl name he exported
  refine .bind (.log fun alike => ?_) fun _ _ _ => .pure stmts
  have text : Stmt.text (constStmt loc name e' exported) =
      Stmt.text (constStmt loc name e exported) := by
    rw [stmts.eq_renumber alike, Stmt.text_renumber]
  exact congrArg (fun text => Log.Line.event _ _ [("stmt", .str text)]) text

theorem planAlias_pairs : (decl : AliasDecl) →
    Pairs S n (Agree Eq (Forall₂ (Twin S .stmt))) (planAlias decl)
      (planAlias (decl.renumber S.map))
  | AliasDecl.mk mark form typeParams type => by
    change Pairs S n _ _ (planAlias (AliasDecl.mk (mark.renumber S.map) form
      (typeParams.renumber S.map) (type.renumber S.map)))
    rw [planAlias, planAlias]
    split
    · exact (Pairs.declare _).bind fun _ _ _ => .pure (.ok .nil)
    · have reflected : Pairs S n (Agree Eq (Twin S .expr))
          (Walk.reflect fun s => s.namedType mark.loc form.name typeParams.toLists
            fun bound => s.reflectUnder bound type)
          (Walk.reflect fun s => s.namedType mark.loc form.name (typeParams.renumber S.map).toLists
            fun bound => s.reflectUnder bound (type.renumber S.map)) := by
        simp only [toLists_renumber, Scope.namedType_renumber S.zero,
          Scope.blind_reflectUnder S.zero _ _ type]
        exact .reflect fun s hs => (Scope.corresponds_twin hs).namedType (fun _ => Wraps.made) mark.loc
          form.name typeParams.toLists fun bound =>
            (Scope.corresponds_twin hs).reflectUnder (fun _ => Wraps.made) type bound
      refine reflected.bind fun r r' agree => ?_
      cases agree with
      | error place => exact .pure (.error place)
      | ok reflections =>
        exact (reflectionConst_pairs _ _ reflections _).bind fun _ _ stmts =>
          (Pairs.declare _).bind fun _ _ _ => .pure (.ok (.cons stmts .nil))

theorem reflectWhole_pairs (mark : Mark) (name : String) (pending : Option Pending) :
    Pairs S n (Agree Eq (Forall₂ (Twin S .stmt))) (reflectWhole mark name pending)
      (reflectWhole (mark.renumber S.map) name (pending.map (Pending.renumber S.toRenumbering))) := by
  cases pending with
  | none => exact .pure (.ok .nil)
  | some p =>
    have params : (p.renumber S.toRenumbering).typeParams.getD [] =
        (p.typeParams.getD []).map (Tree.renumber S.map) := by
      rw [Pending.renumber]
      cases p.typeParams <;> rfl
    have reflected : Pairs S n (Agree Eq (Twin S .expr))
        (Walk.reflect fun s => s.namedType mark.loc name (p.typeParams.getD [])
          fun bound => s.interfaceBody bound mark.loc p.bases p.members)
        (Walk.reflect fun s => s.namedType mark.loc name
          ((p.renumber S.toRenumbering).typeParams.getD [])
          fun bound => s.interfaceBody bound mark.loc p.bases p.members) := by
      simp only [params, Scope.namedType_renumber S.zero]
      exact .reflect fun s hs => (Scope.corresponds_twin hs).namedType (fun _ => Wraps.made) mark.loc
        name (p.typeParams.getD []) fun bound =>
          (Scope.corresponds_twin hs).interfaceBody (fun _ => Wraps.made) bound mark.loc p.bases
            p.members
    refine reflected.bind fun r r' agree => ?_
    cases agree with
    | error place => exact .pure (.error place)
    | ok reflections =>
      exact (reflectionConst_pairs _ _ reflections _).bind fun _ _ stmts =>
        (Pairs.declare _).bind fun _ _ _ => .pure (.ok (.cons stmts .nil))

theorem planInterface_pairs : (decl : InterfaceDecl) →
    Pairs S n (Agree Eq (Forall₂ (Twin S .stmt))) (planInterface decl)
      (planInterface (decl.renumber S.map))
  | InterfaceDecl.mk mark form typeParams bases members => by
    let decl := InterfaceDecl.mk mark form typeParams bases members
    change Pairs S n _ _ (planInterface (InterfaceDecl.mk (mark.renumber S.map) form
      (typeParams.renumber S.map) (bases.renumber S.map) (members.renumber S.map)))
    rw [planInterface, planInterface]
    dsimp only
    split
    · exact .pure (.ok .nil)
    · refine .bind (.read fun _ => rfl) fun hasClass _ same => ?_
      subst same
      split
      · exact (Pairs.log fun _ => rfl).bind fun _ _ _ => (Pairs.setMerged _).bind fun _ _ _ =>
          .pure (.ok .nil)
      · refine .bind (.read fun _ => rfl) fun isMerged _ same => ?_
        subst same
        split
        · exact .pure (.ok .nil)
        · -- the context is changed to what was read from it
          intro w w' paired
          have frame : w'.context.accumulate (decl.renumber S.map) =
              (S.context n (w.context.accumulate decl).1,
                (w.context.accumulate decl).2.map (Pending.renumber S.toRenumbering)) := by
            have accumulated := w.context.accumulate_renumber (r := S.toRenumbering) (n := n) decl
            rw [paired.context]
            exact congrArg (fun x => (x.1.withOptions S.right, x.2)) accumulated
          have whole : Pairs S n (Agree Eq (Forall₂ (Twin S .stmt)))
              (reflectWhole mark form.name (w.context.accumulate decl).2)
              (reflectWhole (mark.renumber S.map) form.name
                (w'.context.accumulate (decl.renumber S.map)).2) := by
            rw [congrArg Prod.snd frame]
            exact reflectWhole_pairs mark form.name _
          exact whole { w with context := (w.context.accumulate decl).1 }
            { w' with context := (w'.context.accumulate (decl.renumber S.map)).1 }
            ⟨paired.options, congrArg Prod.fst frame, paired.errors, paired.log⟩

/-! ### Statements -/

theorem planStmt_pairs (s : Stmt) :
    Pairs S n (fun x y => x.1.Related S y.1 ∧ Agree Eq (Forall₂ (Twin S .stmt)) x.2 y.2)
      (planStmt s) (planStmt (s.renumber S.map)) := by
  have outcome (r : Except Unsupported Unit) : Agree Eq (Forall₂ (Twin S .stmt))
      (r.map fun _ => []) (r.map fun _ => []) := (Agree.refl r).bind fun _ _ _ => .pure .nil
  match s with
  | .node (c := .stmt) form marks ts =>
    cases form with
    | classDecl =>
      match marks, ts with
      | .one _, .cons decl .nil =>
        refine (planClass_pairs decl).bind fun (_, r) (_, _) ⟨plans, same⟩ => .pure ⟨.classDecl plans, ?_⟩
        obtain rfl : r = _ := same
        exact outcome r
    | varDecl =>
      match marks, ts with
      | .one _, .cons decl .nil =>
        refine (planVar_pairs decl).bind fun (_, r) (_, _) ⟨plans, same⟩ => .pure ⟨.inits plans, ?_⟩
        obtain rfl : r = _ := same
        exact outcome r
    | funcDecl =>
      match marks, ts with
      | .one _, .cons (FuncDecl.mk _ _ _ f) .nil =>
        refine (planFuncOnce_pairs .function f).bind fun r r' agree => ?_
        cases agree with
        | error place => exact .pure ⟨.keep, .error place⟩
        | ok related =>
          cases related with
          | none => exact .pure ⟨.keep, .ok .nil⟩
          | some plans => exact .pure ⟨.func plans, .ok .nil⟩
    | interfaceDecl =>
      match marks, ts with
      | .one _, .cons decl .nil =>
        exact (planInterface_pairs decl).bind fun _ _ agree => .pure ⟨.keep, agree⟩
    | aliasDecl =>
      match marks, ts with
      | .one _, .cons decl .nil =>
        exact (planAlias_pairs decl).bind fun _ _ agree => .pure ⟨.keep, agree⟩
    | enumDecl =>
      match marks, ts with
      | .one _, .cons (EnumDecl.mk _ _ _) .nil =>
        exact (Pairs.declare _).bind fun _ _ _ => .pure ⟨.keep, .ok .nil⟩
    | _ => exact .pure ⟨.keep, .ok .nil⟩

/-- What is worked out for a statement in the two runs is related. -/
theorem planStmtOnce_pairs (s : Stmt) :
    Pairs S n (fun x y => x.1.Related S y.1 ∧ Forall₂ (Twin S .stmt) x.2 y.2)
      (planStmtOnce s) (planStmtOnce (s.renumber S.map)) := by
  unfold planStmtOnce
  rw [id_renumber, Stmt.isRecorded_renumber]
  refine (Pairs.wasVisited _).bind fun visited _ same => ?_
  subst same
  cases visited with
  | true => exact .pure ⟨.keep, .nil⟩
  | false =>
    have planned := (planStmt_pairs (n := n) s).bind fun x y ⟨plans, agree⟩ =>
      (Pairs.report agree).bind fun _ _ _ => (Pairs.markVisited s.mark.id).bind fun _ _ _ =>
        Pairs.pure (A := fun x y => x.1.Related S y.1 ∧ Forall₂ (Twin S .stmt) x.2 y.2)
          (a := (x.1, x.2.toOption.getD [])) (b := (y.1, y.2.toOption.getD []))
          ⟨plans, agree.getD_nil⟩
    cases Stmt.isRecorded s with
    | true => exact (Pairs.recordMutation _).bind fun _ _ _ => planned
    | false => exact planned

theorem planVarOnce_pairs (decl : VarDecl) :
    Pairs S n (Forall₂ (InitPlan.Related S)) (planVarOnce decl)
      (planVarOnce (decl.renumber S.map)) := by
  unfold planVarOnce
  rw [id_renumber]
  refine (Pairs.wasVisited _).bind fun visited _ same => ?_
  subst same
  cases visited with
  | true => exact .pure .nil
  | false =>
    refine (Pairs.recordMutation _).bind fun _ _ _ => (planVar_pairs decl).bind
      fun (_, r) (_, _) ⟨plans, same⟩ => ?_
    obtain rfl : r = _ := same
    exact (Pairs.report (.refl r)).bind fun _ _ _ => (Pairs.markVisited _).bind fun _ _ _ =>
      .pure plans

end

end Reify
