import Reify.Proofs.Reflection.Locals
import Reify.Proofs.Walk.Reports

/-!
# Scopes after the walk

Whatever the walk opens it closes again, whether or not something could not be worked out on the
way.  After a tree the scopes, the type parameters in reach and the frames are those before it,
except that names may have been added to the innermost scope and that the innermost frame may have
moved on (`Walks.leaves`).  Only statements and what holds them in the scope around can do that:
`Category.moves` and `Category.changesFrame` say which categories these are.  Together with what
`Reify.Proofs.Reflection.Locals` says about reflection this is `scopes_restored`.
-/

namespace Reify

/-! ### What a task leaves of the state -/

/-- From `c` to `c'` the innermost scope has changed only if `names` allows it, and the innermost
frame only if `frame` does; all else about scopes and frames is the same. -/
structure Context.Leaves (names frame : Bool) (c c' : Context) : Prop where
  grown : c.Extends c'
  sameScope : names = false → c'.scope = c.scope
  sameFrames : frame = false → c'.frames = c.frames

variable {access : ParamAccess} {params : List String} {w' : Walker}

namespace Context.Leaves

variable {names frame : Bool} {c c₁ c₂ : Context}

theorem refl (names frame : Bool) (c : Context) : c.Leaves names frame c :=
  ⟨.refl c, fun _ => rfl, fun _ => rfl⟩

theorem trans (h : c.Leaves names frame c₁) (h' : c₁.Leaves names frame c₂) :
    c.Leaves names frame c₂ where
  grown := h.grown.trans h'.grown
  sameScope hn := (h'.sameScope hn).trans (h.sameScope hn)
  sameFrames hf := (h'.sameFrames hf).trans (h.sameFrames hf)

theorem mono {names' frame'} (h : c.Leaves names frame c₁) (hn : names' = false → names = false)
    (hf : frame' = false → frame = false) : c.Leaves names' frame' c₁ :=
  ⟨h.grown, h.sameScope ∘ hn, h.sameFrames ∘ hf⟩

theorem of_eq (scope : c₁.scope = c.scope) (frames : c₁.frames = c.frames) :
    c.Leaves names frame c₁ :=
  ⟨.of_eq scope frames, fun _ => scope, fun _ => frames⟩

theorem of_extends (h : c.Extends c₁) : c.Leaves true true c₁ := ⟨h, nofun, nofun⟩

/-- A scope of declared names that is closed again leaves no trace. -/
theorem popScope (h : c.pushScope.Leaves names frame c₁) : c.Leaves false frame c₁.popScope := by
  have scope : c₁.popScope.scope = c.scope := by
    have declared : c₁.scope.declared.pop = c.scope.declared := by
      unfold Stack.pop
      rw [h.grown.outer]
      rfl
    change Scope.mk c₁.scope.options c₁.scope.declared.pop c₁.scope.generics = c.scope
    rw [declared, h.grown.options, h.grown.generics]
    rfl
  refine ⟨⟨congrArg _ scope, congrArg _ scope, ?_, ?_, h.grown.frames⟩, fun _ => scope,
    h.sameFrames⟩ <;> rw [scope]

/-- A frame that is left again leaves no trace. -/
theorem popFrame {stmts} (h : (c.pushFrame stmts).Leaves names frame c₁) :
    c.Leaves names false c₁.popFrame := by
  have frames : c₁.popFrame.frames = c.frames := by
    change c₁.frames.pop = c.frames
    unfold Stack.pop
    rw [h.grown.frames]
    rfl
  exact ⟨⟨h.grown.options, h.grown.generics, h.grown.names, h.grown.outer, congrArg _ frames⟩,
    h.sameScope, fun _ => frames⟩

/-- Type parameters that are in reach only meanwhile leave no trace. -/
theorem popGenerics (h : (c.pushGenerics params access).Leaves names frame c₁) :
    c.Leaves names frame c₁.popGenerics where
  grown := h.grown.popGenerics
  sameScope hn := by
    change { c₁.scope with generics := c₁.scope.generics.tail } = c.scope
    rw [h.sameScope hn]
    rfl
  sameFrames := h.sameFrames

end Context.Leaves

theorem Walker.leaves_popGenerics {names frame} {w : Walker}
    (h : (w.pushGenerics params access).context.Leaves names frame w'.context) :
    w.context.Leaves names frame (w'.popGenerics params).context := by
  unfold Walker.pushGenerics at h
  unfold Walker.popGenerics
  split
  case isTrue none =>
    rw [if_pos none] at h
    exact h
  case isFalse some =>
    rw [if_neg some] at h
    exact h.popGenerics

/-! ### What a task may change -/

/-- Statements that have a scope of their own, or declare nothing but what their list has hoisted. -/
def StmtForm.isEnclosed : StmtForm → Bool
  | .block | .forIn | .forOf _ | .forLoop | .switch | .trying | .funcDecl => true
  | _ => false

namespace Tree

/-- Whether a tree may declare names in the scope around it. -/
def moves : {c : Category} → Tree c → Bool
  | .stmt, .node form _ _ => !StmtForm.isEnclosed form
  | c, _ => c.moves

/-- Whether a tree may change the frame around it. -/
def changesFrame : {c : Category} → Tree c → Bool
  | .stmt, .node form _ _ => !StmtForm.isEnclosed form
  | c, _ => c.changesFrame

end Tree

namespace Mode

/-- Whether a part of a category that is walked in a mode may declare names in the scope around. -/
def moves (c : Category) : Mode → Bool
  | skip | inScope _ => false
  | told _ => c.moves
  | list | top => true
  | generic _ _ mode => mode.moves c

/-- Whether a part of a category that is walked in a mode may change the frame around. -/
def changesFrame (c : Category) : Mode → Bool
  | skip | list => false
  | told _ => c.changesFrame
  | top => true
  | inScope mode | generic _ _ mode => mode.changesFrame c

/-- Whether one of several parts does something. -/
def anyOf (does : Category → Mode → Bool) : List Mode → List Category → Bool
  | mode :: modes, c :: cs => does c mode || anyOf does modes cs
  | _, _ => false

end Mode

namespace Task

/-- Whether a task may declare names in the scope around it. -/
def moves : Task → Bool
  | node t _ | inner t _ => t.moves
  | @parts cs modes _ => Mode.anyOf Mode.moves modes cs
  | @child c mode _ => mode.moves c
  | @each c _ _ => c.moves
  | stmts _ => true

/-- Whether a task may change the frame around it. -/
def changesFrame : Task → Bool
  | node t _ | inner t _ => t.changesFrame
  | @parts cs modes _ => Mode.anyOf Mode.changesFrame modes cs
  | @child c mode _ => mode.changesFrame c
  | @each c _ _ => c.changesFrame
  | stmts _ => true

end Task

section

variable {c : Category}

theorem Mode.anyOf_skip {does} (h : ∀ c, does c .skip = false) (cs : List Category) :
    Mode.anyOf does (cs.map fun _ => .skip) cs = false := by
  induction cs with
  | nil => rfl
  | cons c cs ih => rw [List.map_cons, Mode.anyOf, h, ih, Bool.false_or]

/-- A tree that declares nothing around it has parts that do not, or a scope for them. -/
theorem Form.moves_modes {form : Form c} {marks ts} (brief : Brief)
    (h : (Tree.node form marks ts).moves = false) (plain : form.opensScope = false) :
    Mode.anyOf Mode.moves (form.modes marks ts brief) form.arity = false := by
  cases c with
  | stmt =>
    cases form with
    | block | switch | trying | funcDecl => rfl
    | forIn | forOf | forLoop => cases plain
    | _ => cases h
  | func | handler => cases plain
  | forInit | funcBody | block | branch | unit => cases h
  | varDecl => cases brief <;> rfl
  | declarator =>
    cases brief with
    | init plan => cases plan <;> rfl
    | _ => rfl
  | classDecl =>
    match ts with
    | .cons _ (.cons _ (.cons _ _)) => rfl
  | classMember => cases brief <;> rfl
  | objMember =>
    cases form with
    | valued =>
      match ts with
      | .cons _ (.cons _ .nil) => rfl
    | _ => rfl
  | many c | maybe c => exact Mode.anyOf_skip (fun _ => rfl) _
  | _ => cases form <;> rfl

/-- A tree that leaves the frame around it alone has parts that do. -/
theorem Form.changesFrame_modes {form : Form c} {marks ts} (brief : Brief)
    (h : (Tree.node form marks ts).changesFrame = false) :
    Mode.anyOf Mode.changesFrame (form.modes marks ts brief) form.arity = false := by
  cases c with
  | stmt =>
    cases form with
    | block | switch | trying | funcDecl | forIn | forOf | forLoop => rfl
    | _ => cases h
  | unit => cases h
  | varDecl => cases brief <;> rfl
  | declarator =>
    cases brief with
    | init plan => cases plan <;> rfl
    | _ => rfl
  | classDecl =>
    match ts with
    | .cons _ (.cons _ (.cons _ _)) => rfl
  | classMember => cases brief <;> rfl
  | objMember =>
    cases form with
    | valued =>
      match ts with
      | .cons _ (.cons _ .nil) => rfl
    | _ => rfl
  | many c | maybe c => exact Mode.anyOf_skip (fun _ => rfl) _
  | _ => cases form <;> rfl

end

/-! ### Working something out -/

section

variable {w w₁ : Walker}

theorem Walker.report_context {α : Type} (r : Except Unsupported α) :
    (w.report r).context = w.context := by
  cases r <;> rfl

theorem Walker.leaves_recordStmt (names frame : Bool) (w : Walker) (s : Stmt) :
    w.context.Leaves names frame (w.recordStmt s).context := by
  unfold Walker.recordStmt
  split
  · exact .of_eq rfl rfl
  · exact .refl names frame _

theorem leaves_markVisited (names frame : Bool) (w : Walker) (i : Nat) :
    w.context.Leaves names frame (w.map (·.markVisited i)).context :=
  .of_eq (w.map_markVisited i).1 (w.map_markVisited i).2

theorem planStmt_leaves (s : Stmt) (w : Walker) :
    w.context.Leaves s.moves s.changesFrame ((planStmt s).run w).2.context := by
  match s with
  | Stmt.funcDecl _ (FuncDecl.mk _ _ _ f) =>
    have kept := planFuncOnce_scope .function f w
    change w.context.Leaves _ _ (StateT.run (planFuncOnce .function f >>= _) w).2.context
    rw [StateT.run_bind]
    rcases planned : (planFuncOnce .function f).run w with ⟨r, w'⟩
    rw [planned] at kept
    rcases r with u | _ | plan <;> exact .of_eq kept.1 kept.2
  | Stmt.block _ _ | Stmt.forIn _ _ _ _ | Stmt.forOf _ _ _ _ _ | Stmt.forLoop _ _ _ _ _
  | Stmt.switch _ _ _ | Stmt.trying _ _ _ _ => exact .refl _ _ _
  | Stmt.classDecl _ _ | Stmt.varDecl _ _ | Stmt.interfaceDecl _ _ | Stmt.aliasDecl _ _
  | Stmt.enumDecl _ _ | Stmt.breakTo _ _ | Stmt.continueTo _ _ | Stmt.doWhile _ _ _
  | Stmt.empty _ | Stmt.expr _ _ | Stmt.ifElse _ _ _ _ | Stmt.importing _ _
  | Stmt.labeled _ _ _ | Stmt.returning _ _ | Stmt.throwing _ _ | Stmt.whileLoop _ _ _ =>
    exact .of_extends (confined_planStmt _ w).2

theorem planStmtOnce_leaves {s plan fs} (h : (planStmtOnce s).run w = ((plan, fs), w₁)) :
    w.context.Leaves s.moves s.changesFrame w₁.context := by
  cases hv : w.context.wasVisited s.mark.id with
  | true =>
    rw [planStmtOnce_of_visited hv] at h
    cases h
    exact .refl _ _ _
  | _ =>
    rcases planned : (planStmt s).run (w.recordStmt s) with ⟨⟨p, r⟩, w₂⟩
    have step := planStmt_leaves s (w.recordStmt s)
    rw [planStmtOnce_of_fresh hv planned] at h
    rw [planned] at step
    cases h
    refine ((w.leaves_recordStmt _ _ s).trans step).trans ?_
    have marked := leaves_markVisited s.moves s.changesFrame (w₂.report r) s.mark.id
    rwa [Walker.report_context] at marked

theorem planVar_leaves (decl : VarDecl) (w : Walker) :
    w.context.Leaves true false ((planVar decl).run w).2.context := by
  match decl with
  | VarDecl.mk mark form ds =>
    obtain ⟨log, run⟩ := run_planVar mark form ds w
    rw [run]
    exact ⟨.declareAll _ w.context, nofun, fun _ => (Effect.of_declareAll _ _).frames⟩

theorem planVarOnce_leaves {decl plans} (h : (planVarOnce decl).run w = (plans, w₁)) :
    w.context.Leaves true false w₁.context := by
  cases hv : w.context.wasVisited decl.mark.id with
  | true =>
    rw [planVarOnce_of_visited hv] at h
    cases h
    exact .refl _ _ _
  | _ =>
    let w₀ := w.map (·.recordMutation decl.mark.id)
    rcases planned : (planVar decl).run w₀ with ⟨⟨p, r⟩, w₂⟩
    have step := planVar_leaves decl w₀
    rw [planVarOnce_of_fresh hv planned] at h
    rw [planned] at step
    cases h
    have marked := leaves_markVisited true false (w₂.report r) decl.mark.id
    rw [Walker.report_context] at marked
    have recorded : w.context.Leaves true false w₀.context := .of_eq rfl rfl
    exact (recorded.trans step).trans marked

end

theorem Tree.moves_of_category {c} (t : Tree c) : c.moves = false → t.moves = false := by
  cases c with
  | stmt => nofun
  | _ => exact id

theorem Tree.changesFrame_of_category {c} (t : Tree c) :
    c.changesFrame = false → t.changesFrame = false := by
  cases c with
  | stmt => nofun
  | _ => exact id

/-! ### The walk -/

/-- **The walk closes what it opens.** -/
theorem Walks.leaves {p k w out vs} (h : Walks p k w out w' vs) :
    w.context.Leaves k.moves k.changesFrame w'.context := by
  induction h with
  | inert _ _ ih => exact ih
  | stmt planned _ ih => exact (planStmtOnce_leaves planned).trans ih
  | @func _ w w₁ _ f _ role r _ planned _ ih =>
    have kept := planFuncOnce_scope role f w
    rw [planned] at kept
    rw [Walker.report_context] at ih
    exact (Context.Leaves.of_eq kept.1 kept.2).trans ih
  | header planned _ ih => exact (planVarOnce_leaves planned).trans ih
  | @inner p w w' c vs form marks brief ts ts' _ _ ih =>
    have frames : (Tree.node form marks ts).changesFrame = false → _ :=
      Form.changesFrame_modes brief
    unfold Tree.enter at ih
    unfold Tree.leave
    replace ih := Walker.leaves_popGenerics ih
    by_cases opens : (Tree.node form marks ts).form.opensScope = true
    case pos =>
      rw [if_pos opens] at ih ⊢
      exact ih.popScope.mono (fun _ => rfl) frames
    case neg =>
      rw [if_neg opens] at ih ⊢
      rw [Bool.not_eq_true] at opens
      exact ih.mono (fun still => Form.moves_modes brief still opens) frames
  | doWhile _ _ first second =>
    exact .of_extends (first.grown.trans second.grown)
  | partsCons _ _ head tail =>
    refine (head.mono ?_ ?_).trans (tail.mono ?_ ?_) <;>
      simp +contextual [Task.moves, Task.changesFrame, Mode.anyOf]
  | @told _ _ _ _ _ _ _ t _ _ ih => exact ih.mono t.moves_of_category t.changesFrame_of_category
  | toldMany _ ih | toldPresent _ ih => exact ih
  | list _ ih =>
    exact .popFrame (.trans (.of_extends (.declareAll _ _)) ih)
  | top _ ih => exact .trans (.of_extends (.declareAll _ _)) ih
  | inScope _ _ ih => exact ih.popScope
  | generic _ ih => exact Walker.leaves_popGenerics ih
  | eachCons _ _ head tail => exact head.trans tail
  | stmtsCons _ _ head tail => exact .of_extends (head.grown.trans tail.grown)
  | _ => exact .refl _ _ _

/-- Walks an expression. -/
def Expr.walk (e : Expr) : Walk Expr := e.fold (X := Walked) Form.walk

/-- Walks a function. -/
def Func.walk (f : Func) (role : Role) : Walk Func := f.fold (X := Walked) Form.walk role

theorem Expr.leaves_walk (e : Expr) (w : Walker) :
    w.context.Leaves false false (e.walk.run w).2.context := by
  obtain ⟨vs, walks⟩ := e.walk_sound .none rfl {} w
  exact walks.leaves

theorem Func.leaves_walk (f : Func) (role : Role) (w : Walker) :
    w.context.Leaves false false ((f.walk role).run w).2.context := by
  obtain ⟨vs, walks⟩ := f.walk_sound (.role role) rfl {} w
  exact walks.leaves

theorem Stmt.leaves_walk (s : Stmt) (w : Walker) :
    w.context.Leaves s.moves s.changesFrame (s.walk.run w).2.context := by
  obtain ⟨vs, walks⟩ := s.walks {} w
  exact walks.leaves

/-- The scopes, the type parameters in reach and the frames are the same. -/
structure Context.SameScopes (c c' : Context) : Prop where
  scope : c'.scope = c.scope
  frames : c'.frames = c.frames

theorem Context.Leaves.same {c c' : Context} (h : c.Leaves false false c') : c.SameScopes c' :=
  ⟨h.sameScope rfl, h.sameFrames rfl⟩

/-- **Scopes are restored**, from any state and whether or not something fails.  Walking an
expression, a function or a statement with a scope of its own leaves scopes, type parameters and
frames as they were; walking any other statement changes at most the innermost frame and adds names
to the innermost scope.  Reflecting something leaves the type parameters bound by factories as they
were. -/
theorem scopes_restored :
    (∀ (w : Walker) (e : Expr), w.context.SameScopes (e.walk.run w).2.context) ∧
    (∀ (w : Walker) (f : Func) (role : Role),
      w.context.SameScopes ((f.walk role).run w).2.context) ∧
    (∀ (w : Walker) (s : Stmt), StmtForm.isEnclosed s.form = true →
      w.context.SameScopes (s.walk.run w).2.context) ∧
    (∀ (w : Walker) (s : Stmt), w.context.Extends (s.walk.run w).2.context) ∧
    ∀ s : Scope,
      (∀ t, (Reflecting.type s t).Follows (s.reflectUnder · t)) ∧
      (∀ loc typeParams params result,
        (Reflecting.function s (Reflecting.type s) loc typeParams params result).Follows
          (Reflection.function s s.reflectUnder · loc typeParams params result)) ∧
      (∀ entries, (Reflecting.members s (Reflecting.type s) entries).Follows
        (s.reflectMembers · entries)) ∧
      (∀ loc bases members, (Reflecting.interfaceBody s loc bases members).Follows
        (s.interfaceBody · loc bases members)) ∧
      (∀ loc name typeParams t,
        (Reflecting.namedType s loc name typeParams (Reflecting.type s t)).Restores
          (s.namedType loc name typeParams (s.reflectUnder · t))) ∧
      (∀ loc name typeParams bases members,
        (Reflecting.namedType s loc name typeParams
          (Reflecting.interfaceBody s loc bases members)).Restores
          (s.namedType loc name typeParams (s.interfaceBody · loc bases members))) ∧
      ∀ loc decl merged, (Reflecting.classDecl s loc decl merged).Restores
        (s.reflectClass loc decl merged) := by
  refine ⟨fun w e => (e.leaves_walk w).same, fun w f role => (f.leaves_walk role w).same, ?_,
    fun w s => (s.leaves_walk w).grown, fun s => ⟨?_, ?_, ?_, ?_, ?_, ?_, ?_⟩⟩
  · intro w s enclosed
    have leaves := s.leaves_walk w
    match s, enclosed, leaves with
    | .node (c := .stmt) form marks ts, enclosed, leaves =>
      have still : (!StmtForm.isEnclosed form) = false := congrArg not enclosed
      exact ⟨leaves.sameScope still, leaves.sameFrames still⟩
  · exact Reflecting.follows_type s
  · exact Reflecting.follows_function (Reflecting.follows_type s)
  · exact Reflecting.follows_members (Reflecting.follows_type s)
  · exact Reflecting.follows_interfaceBody s
  · exact fun loc name typeParams t =>
      Reflecting.restores_namedType s loc name typeParams (Reflecting.follows_type s t)
  · exact fun loc name typeParams bases members =>
      Reflecting.restores_namedType s loc name typeParams
        (Reflecting.follows_interfaceBody s loc bases members)
  · exact Reflecting.restores_classDecl s

/-- `{ function f(x: keyof T) {} }` -/
def keyofBlock : Stmt :=
  Stmt.block { id := 20 } (Block.mk { id := 21 } (.ofList [keyofDecl]))

theorem scopes_restored_keyofBlock :
    StmtForm.isEnclosed keyofBlock.form = true ∧ (keyofBlock.walk.run keyofStart).2.errors ≠ [] ∧
      keyofStart.context.SameScopes (keyofBlock.walk.run keyofStart).2.context := by
  have enclosed : StmtForm.isEnclosed keyofBlock.form = true := rfl
  have failed : (keyofBlock.walk.run keyofStart).2.errors.isEmpty = false := by decide +kernel
  refine ⟨enclosed, ?_, scopes_restored.2.2.1 keyofStart keyofBlock enclosed⟩
  intro none
  rw [none] at failed
  cases failed

end Reify
