import Reify.Proofs.Check.Planted

/-!
# Plans only add code

What plans add was made by the program (`Planted.made`), and a tree that has grown still has when it
is reworked with such code (`Reworked.keepsGrowth`).  So applying a plan makes a tree grow.
-/

namespace Reify

open Synthetic

open Tree

/-! ### Added code was made by the program -/

variable {e : Expr} {loc : Loc} {decl : ClassDecl} {plans : List InitPlan} {ds : List Declarator}
  {c : Category} {ts' ts : List (Tree c)} {u t : Tree c}

@[simp] theorem isAdded_exprStmt : (exprStmt loc e).IsAdded ↔ e.Synthetic := by
  change (exprStmt loc e).Synthetic ∧ true = true ↔ _
  simp

@[simp] theorem isAdded_constStmt {name exported} :
    (constStmt loc name e exported).IsAdded ↔ e.Synthetic := by
  change (constStmt loc name e exported).Synthetic ∧ true = true ↔ _
  simp

/-- Whether an expression is `lib.type(…)`. -/
def Expr.isNamedType (library : String) : Expr → Bool
  | Expr.call _ _ (Expr.member _ _ method (Expr.ident _ base)) _ =>
    base == library && method == "type"
  | _ => false

/-- The name in `const N = lib.type(…);`, if the program has made the statement. -/
def Stmt.reflected? (library : String) : Stmt → Option String
  | Stmt.varDecl mark (VarDecl.mk _ _ ds) =>
    if mark.id = 0 then
      match ds.toList with
      | [Declarator.mk _ (Binding.mk _ (Pat.ident _ name)) _ (.present value)] =>
        if Expr.isNamedType library value then some name else none
      | _ => none
    else none
  | _ => none

theorem Stmt.reflected?_constStmt (library : String) (loc : Loc) (name : String) (value : Expr)
    (exported : Bool) :
    (constStmt loc name value exported).reflected? library =
      if value.isNamedType library then some name else none := rfl

theorem Scope.isNamedType_libraryCall (s : Scope) (loc : Loc) (method : String)
    (args : List Expr) :
    (s.libraryCall loc method args).isNamedType s.options.library = (method == "type") := by
  change (s.options.library == s.options.library && method == "type") = _
  rw [beq_self_eq_true, Bool.true_and]

/-- What plans add: the statements among it are made by the program and are not the constant of a
named type. -/
def Addition.made (options : Options) : Addition
  | _, .stmt, s => s.IsAdded ∧ Stmt.reflected? options.library s = none
  | _, .expr, e => e.Synthetic
  | _, _, t => t.IsAdded

theorem Addition.made_isSteady (options : Options) : (made options).IsSteady := by
  intro a b c t h
  cases c <;> exact h

theorem synthetic_parametersSymbol (s : Scope) (loc : Loc) :
    (parametersSymbol s loc).Synthetic := by
  simp [parametersSymbol]

theorem synthetic_deferredReflection (h : e.Synthetic) : (deferredReflection loc e).Synthetic := by
  unfold deferredReflection
  split <;> simpa

section

variable {s : Scope}

variable {f : Func}

theorem Opens.made {stmt} (h : Opens s f stmt) (around : List Around) :
    Addition.made s.options around .stmt stmt := by
  cases h with
  | @typeConst _ _ args bounds =>
    have synthetic : ∀ e ∈ args, e.Synthetic := fun e he =>
      (bounds e he).elim fun _ h => Scope.reflect_synthetic h.2
    refine ⟨by simpa using synthetic, ?_⟩
    rw [Stmt.reflected?_constStmt, Scope.isNamedType_libraryCall]
    rfl
  | result _ reflected =>
    refine ⟨by simpa using Scope.reflect_synthetic reflected, ?_⟩
    rw [Stmt.reflected?_constStmt, Scope.isNamedType_libraryCall]
    rfl
  | check _ reflected => exact ⟨by simpa using Scope.reflect_synthetic reflected, rfl⟩

theorem ReflectedBeside.synthetic (h : ReflectedBeside s decl e) : e.Synthetic := by
  obtain ⟨_, _, _, _, _, reflected⟩ := h
  exact Scope.reflect_synthetic reflected

theorem Constructs.made {stmt} (h : Constructs s decl stmt) (around : List Around) :
    Addition.made s.options around .stmt stmt := by
  cases h with
  | implemented reflected => exact ⟨by simpa using reflected.synthetic, rfl⟩
  | params entries =>
    refine ⟨isAdded_constStmt.2 (synthetic_object.2 fun entry hentry => ?_), rfl⟩
    obtain ⟨_, _, _, same, bounds⟩ := entries entry hentry
    rw [same]
    simpa using fun e he => (bounds e he).synthetic
  | store => exact ⟨by simp [synthetic_parametersSymbol], rfl⟩
  | bind args => exact ⟨by simpa using fun e he => (args e he).synthetic, rfl⟩

theorem Planted.made {P around around' c t} (h : Planted s P around around' c t) :
    Addition.made s.options around' c t := by
  cases h with
  | opens scope _ h => exact scope.options_eq ▸ h.made around'
  | constructs scope _ h => exact scope.options_eq ▸ h.made around'
  | check _ h => exact h.built.synthetic
  | result => exact EntityName.synthetic_toExpr (.ident _)
  | decorator _ h same =>
    change Tree.Synthetic _
    rcases same with rfl | rfl
    · simpa using h.synthetic
    · simpa using synthetic_deferredReflection h.synthetic
  | symbol =>
    change Tree.Synthetic _
    simp [symbolMember, synthetic_parametersSymbol]
  | @constructor _ _ derived =>
    change Tree.Synthetic _
    cases derived <;> simp [ConstructorPlan.defaultConstructor]

theorem Frame.everywhere_true (f : Frame) : f.Everywhere fun _ _ => True :=
  ⟨fun _ _ m _ => m.everywhere_true, fun _ _ => ⟨fun _ _ => Tree.everywhere_true _,
    fun t _ => t.everywhere_true, fun m _ => m.everywhere_true⟩⟩

/-- **What is worked out for a function** reworks it with code that the program has made. -/
theorem FuncPlan.reworked_made {role plan} (h : funcPlanOf s role f = .ok (some plan))
    (around : List Around) (f' : Func) :
    Reworked (.made s.options) around (.tree .func) f' (plan.apply f') :=
  ((FuncPlan.planted h f.everywhere_true .here).reworked_apply f').mono fun _ _ _ => Planted.made

theorem VarDecl.reworked_made (h : ds.mapM (initPlanOf s) = .ok plans) (around : List Around)
    (d : VarDecl) : Reworked (.made s.options) around (.tree .varDecl) d (d.applyInits plans) :=
  (VarDecl.reworked_applyInits
    (forall_of_mapM (fun d _ _ hp => InitPlan.planted hp d.everywhere_true around) h) d).mono
    fun _ _ _ => Planted.made

theorem ForInit.reworked_made (h : ds.mapM (initPlanOf s) = .ok plans) (around : List Around)
    (d : VarDecl) :
    Reworked (.made s.options) around (.tree .forInit) (ForInit.decl d)
      (ForInit.decl (d.applyInits plans)) :=
  .node rfl rfl (.partsCons (VarDecl.reworked_made h around d) .refl)

variable {w w' : Walker} {stmt stmt' : Stmt} {plan : StmtPlan} {fs : List Stmt}

/-- **What is worked out for a statement** reworks it with code that the program has made. -/
theorem Planned.reworked_made (h : Planned w stmt plan fs w') (root : SameRoot stmt stmt')
    (around : List Around) :
    Reworked (.made w.context.scope.options) around (.tree .stmt) stmt' (plan.apply stmt') :=
  (h.planted root stmt.everywhere_true w.context.frame.everywhere_true around).reworked_apply.mono
    fun _ _ _ => Planted.made

/-- What follows a statement was made by the program. -/
theorem Planned.isAdded_followers (h : Planned w stmt plan fs w') : ∀ f ∈ fs, f.IsAdded := by
  intro f hf
  obtain ⟨loc, name, value, exported, rfl, built⟩ :=
    h.followers stmt.everywhere_true w.context.frame.everywhere_true f hf
  exact isAdded_constStmt.2 built.synthetic

end

/-! ### Returned values -/

section

variable {f : Loc → Expr → Expr}

theorem mapReturns_of_added (f : Loc → Expr → Expr) {s} (h : s.IsAdded) :
    Stmt.mapReturns f s = s := by
  match s, h with
  | Stmt.expr _ _, _ => rfl
  | Stmt.importing _ _, _ => rfl
  | Stmt.varDecl _ _, _ => rfl

/-- What mapping the returned values does to a thing of a shape. -/
def Shape.MapsReturns (f : Loc → Expr → Expr) : (k : Shape) → k.Of → k.Of → Prop
  | .tree c, t, t' => c.holdsStmts = true →
      Grows (.tree c) t (t'.fold (X := Tree) (Form.mapReturns f))
  | .parts cs, ts, ts' =>
      Grows (.parts cs) ts (ts'.replaceStmts (ts'.fold (X := Tree) (Form.mapReturns f)))
  | .list c, ts, ts' => c.holdsStmts = true →
      Grows (.list c) ts (ts'.map (Tree.fold (X := Tree) (Form.mapReturns f)))

/-- A tree still grows if the values it returns do. -/
theorem Grows.mapReturns
    (hf : ∀ loc e e', Grows (.tree .expr) e e' → Grows (.tree .expr) e (f loc e')) {k x x'}
    (h : Grows k x x') : k.MapsReturns f x x' := by
  induction h with
  | @node c form marks ts ts' hc parts ih =>
    intro hs
    have plain : Grows (.tree c) (.node form marks ts)
        (.node form marks (ts'.replaceStmts (ts'.fold (X := Tree) (Form.mapReturns f)))) :=
      .node hc ih
    cases c with
    | stmt =>
      cases form with
      | returning =>
        match marks, ts', parts with
        | .two site, .cons value' .nil, parts =>
          cases parts with
          | partsCons head tail =>
            refine .node rfl (.partsCons ?_ tail)
            rcases head.maybe_inv with ⟨rfl, rfl⟩ | ⟨e, e', rfl, rfl, value⟩
            · exact .refl _
            · exact .of_parts (.partsCons (hf _ _ _ value) .partsNil)
      | _ => exact plain
    | block | handler | branch | maybe _ => exact plain
    | many => cases hc
    | _ => cases hs
  | @many c ts us us' each padded ih =>
    intro hs
    change Grows (.tree (.many c)) (.ofList ts) (Tree.node (c := .many c) us'.length .none
      ((Children.ofList us').replaceStmts
        ((Children.ofList us').fold (X := Tree) (Form.mapReturns f))))
    have hc : c.holdsStmts = true := hs
    rw [replaceStmts_ofList f hc]
    refine .many (ih hc) (padded.map _ fun y hy => ?_)
    cases c with
    | stmt => exact mapReturns_of_added f hy
    | decorator | classMember => cases hc
    | _ => exact hy.elim
  | @wrapped loc s s' ss hs stmt padded ih =>
    intro _
    change Grows (.tree .stmt) s (Stmt.block (.synthetic loc) (Block.mk (.synthetic loc)
      (Tree.node (c := .many .stmt) ss.length .none ((Children.ofList ss).replaceStmts
        ((Children.ofList ss).fold (X := Tree) (Form.mapReturns f))))))
    rw [replaceStmts_ofList f rfl]
    exact .wrapped hs (ih rfl) (padded.map _ fun y hy => mapReturns_of_added f hy)
  | partsNil => exact .partsNil
  | @partsCons c cs t t' ts ts' head tail ihHead ihTail =>
    refine .partsCons ?_ ihTail
    cases hc : c.holdsStmts with
    | true => exact ihHead hc
    | false => exact head
  | listNil => exact fun _ => .listNil
  | listCons _ _ head tail => exact fun hc => .listCons (head hc) (tail hc)
  | _ => exact fun hs => nomatch hs

end

/-- What is made by the program stays so when code is added to it. -/
def Shape.KeepsSynthetic : (k : Shape) → k.Of → k.Of → Prop
  | .tree _, t, t' => t.Synthetic → t'.Synthetic
  | .parts _, ts, ts' => ts.Synthetic → ts'.Synthetic
  | .list _, ts, ts' => (∀ t ∈ ts, t.Synthetic) → ∀ t ∈ ts', t.Synthetic

theorem Padded.synthetic (h : Padded Tree.IsAdded ts ts') (hs : ∀ t ∈ ts, t.Synthetic) :
    ∀ t ∈ ts', t.Synthetic :=
  fun t ht => (h.mem ht).elim (hs t) Tree.IsAdded.synthetic

theorem Grows.synthetic {k x x'} (h : Grows k x x') : k.KeepsSynthetic x x' := by
  induction h with
  | node _ _ ih =>
    intro hs
    rw [synthetic_node] at hs ⊢
    exact ⟨hs.1, ih hs.2⟩
  | many _ padded ih =>
    intro hs
    rw [synthetic_ofList] at hs ⊢
    exact padded.synthetic (ih hs)
  | checked hr _ ih =>
    intro hs
    simpa using ⟨hr, ih hs⟩
  | wrapped _ _ padded ih =>
    intro hs
    simpa using padded.synthetic (by simpa using ih hs)
  | returned _ padded ih =>
    intro hs
    simp only [synthetic_node, Children.synthetic_cons] at hs
    simpa using padded.synthetic (by simpa using ih hs.2.1)
  | partsCons _ _ head tail =>
    intro hs
    rw [Children.synthetic_cons] at hs ⊢
    exact ⟨head hs.1, tail hs.2⟩
  | listCons _ _ head tail =>
    intro hs
    rw [List.forall_mem_cons] at hs ⊢
    exact ⟨head hs.1, tail hs.2⟩
  | _ => exact id

/-- A list of trees with code added to the trees and trees added to the list. -/
def GrowsList {c : Category} (ts ts' : List (Tree c)) : Prop :=
  ∃ us, Grows (.list c) ts us ∧ Padded Tree.IsAdded us ts'

namespace GrowsList

theorem many {t : Many c} (h : GrowsList t.toList ts') :
    Grows (.tree (.many c)) t (.ofList ts') := by
  obtain ⟨us, each, padded⟩ := h
  rw [← ofList_toList t]
  exact .many each padded

theorem add (hu : u.IsAdded) (h : GrowsList ts ts') : GrowsList ts (u :: ts') := by
  obtain ⟨us, each, padded⟩ := h
  exact ⟨us, each, .add hu padded⟩

end GrowsList

/-! ### Reworking -/

theorem Grows.isAdded {t' : Tree c} (h : Grows (.tree c) t t') (ht : t.IsAdded) : t'.IsAdded := by
  have synthetic := h.synthetic ht.synthetic
  cases c with
  | stmt =>
    obtain ⟨form, marks, ts⟩ := t
    cases h with
    | node => exact ⟨synthetic, ht.2⟩
    | wrapped hs =>
      cases form with
      | interfaceDecl | aliasDecl => exact nomatch ht.2
      | _ => cases hs
  | decorator | classMember => exact synthetic
  | _ => exact ht.elim

/-- A tree that is reworked part by part has parts from which everything that they grow to leads
back to the tree. -/
theorem Grows.parts_inv (h : Grows (.tree c) t u) (hc : c.isAssembled = true) {form marks ts}
    (hu : u = .node form marks ts) :
    ∃ ss, Grows (.parts form.arity) ss ts ∧
      ∀ ts', Grows (.parts form.arity) ss ts' → Grows (.tree c) t (.node form marks ts') := by
  cases h with
  | node hm parts =>
    cases hu
    exact ⟨_, parts, fun _ => .node hm⟩
  | @wrapped loc s s' ss hs stmt padded =>
    cases hu
    refine ⟨.cons (Block.mk (.synthetic loc) (.ofList [s])) .nil, .partsCons (.node rfl (.partsCons
      (.many (.listCons stmt .listNil) padded) .partsNil)) .partsNil, fun ts' h => ?_⟩
    cases h with
    | partsCons block rest =>
    cases rest
    cases block with
    | node _ parts =>
    cases parts with
    | @partsCons _ _ _ list _ _ stmts rest =>
    cases rest
    obtain ⟨us, each, padded⟩ := stmts.many_inv
    rw [toList_ofList] at each
    cases each with
    | listCons head tail =>
    cases tail
    rw [← ofList_toList list]
    exact .wrapped hs head padded
  | @returned loc e e' ss value padded =>
    cases hu
    have stmt : Grows (.tree .stmt) (returnStmt loc e) (returnStmt loc e') :=
      .of_parts (.partsCons (.of_parts (.partsCons value .partsNil)) .partsNil)
    refine ⟨.cons (.ofList [returnStmt loc e]) .nil, .partsCons
      (.many (.listCons stmt .listNil) padded) .partsNil, fun ts' h => ?_⟩
    cases h with
    | @partsCons _ _ _ list _ _ stmts rest =>
    cases rest
    obtain ⟨us, each, padded⟩ := stmts.many_inv
    rw [toList_ofList] at each
    cases each with
    | listCons head tail =>
    cases tail
    obtain ⟨e'', rfl, value⟩ := head.returnStmt_inv
    rw [← ofList_toList list]
    exact .returned value padded
  | _ => cases hc

/-- What has grown to the first thing has grown to the second. -/
def Shape.KeepsGrowth : (k : Shape) → k.Of → k.Of → Prop
  | .tree c, t, t' => ∀ s, Grows (.tree c) s t → Grows (.tree c) s t'
  | .parts cs, ts, ts' => ∀ ss, Grows (.parts cs) ss ts → Grows (.parts cs) ss ts'
  | .list _, ts, ts' => ∀ ss, GrowsList ss ts → GrowsList ss ts'

/-- **Reworking makes code grow**, if what is added was made by the program. -/
theorem Reworked.keepsGrowth {options around k x x'} (h : Reworked (.made options) around k x x') :
    k.KeepsGrowth x x' := by
  induction h with
  | @refl _ k => cases k <;> exact fun _ h => h
  | @trans _ k _ _ _ _ _ ih ih' => cases k <;> exact fun s h => ih' s (ih s h)
  | node hc _ _ ih =>
    intro s h
    obtain ⟨ss, parts, back⟩ := h.parts_inv hc rfl
    exact back _ (ih ss parts)
  | many _ _ ih =>
    intro s h
    have list := h.many_inv
    rw [toList_ofList] at list
    exact GrowsList.many (ih _ list)
  | @returns _ name ss added =>
    intro s h
    rw [← mapReturns_ofList]
    exact h.mapReturns (fun loc _ _ value => .checked (added loc) value) rfl
  | @inserted _ ss ts zs gap added =>
    intro s h
    obtain ⟨us, each, padded⟩ := h.many_inv
    rw [toList_ofList] at padded
    obtain ⟨us₁, us₂, rfl, first, second⟩ := padded.split
    have middle := (first.append (.of_added fun z hz => (added z hz).1)).append second
    rw [List.append_nil] at middle
    exact GrowsList.many ⟨_, each, middle⟩
  | @front _ c t ts hc added =>
    intro s h
    have list := h.many_inv
    rw [toList_ofList] at list
    have fronted : t.IsAdded := by
      cases c with
      | decorator | classMember => exact added
      | _ => cases hc
    exact (GrowsList.add fronted list).many
  | checked added => exact fun s h => .checked added h
  | partsCons _ _ ihHead ihTail =>
    intro ss h
    cases h with
    | partsCons head tail => exact .partsCons (ihHead _ head) (ihTail _ tail)
  | @listCons _ c t t' _ _ _ _ ihHead ihTail =>
    rintro ss ⟨us, each, padded⟩
    cases padded with
    | keep padded =>
      cases each with
      | listCons head tail =>
        obtain ⟨vs, each, padded⟩ := ihTail _ ⟨_, tail, padded⟩
        exact ⟨_, .listCons (ihHead _ head) each, .keep padded⟩
    | add ht padded => exact (ihTail _ ⟨us, each, padded⟩).add ((ihHead t (.refl t)).isAdded ht)
  | _ =>
    intro s h
    cases h with
    | node _ parts =>
    match parts with
    | .partsCons value .partsNil =>
      exact .returned value (.refl _)

end Reify
