import Reify.Proofs.Check.Statement

/-!
# Passing a statement

A statement is dealt with in one scope and one frame.  Which names it declares there and what
becomes of the frame depends on the statement and the frame alone (`Frame.declared`,
`Frame.passing`), whichever way it was worked out (`Planned.passes`).
-/

namespace Reify

/-! ### Frames -/

namespace Frame

/-- What the declarations of an interface come to at the last of them. -/
def whole (f : Frame) : Stmt → Option Pending
  | Stmt.interfaceDecl _ decl@(InterfaceDecl.mk _ form _ _ _) =>
    if form.ambient || f.hasClass form.name || f.merged.contains form.name then none
    else (f.accumulate decl).2
  | _ => none

/-- The members that interfaces of its name add to a class. -/
def joined (f : Frame) : Stmt → List TypeMember
  | Stmt.classDecl _ decl => ((ClassDecl.name? decl).map f.interfaceMembers).getD []
  | _ => []

/-- The frame once a statement has been dealt with. -/
def passing (f : Frame) : Stmt → Frame
  | Stmt.classDecl _ decl@(ClassDecl.mk _ form _ _ _ _ _ _ _) =>
    if form.ambient then f else f.mergeClass (ClassDecl.name? decl)
  | Stmt.interfaceDecl _ decl@(InterfaceDecl.mk _ form _ _ _) =>
    if form.ambient then f
    else if f.hasClass form.name then f.merge form.name
    else if f.merged.contains form.name then f
    else (f.accumulate decl).1
  | _ => f

/-- The names that are declared when a statement is dealt with.  An interface is declared at the
last of its declarations, and not at all where it belongs to a class. -/
def declared (f : Frame) : Stmt → List String
  | Stmt.classDecl _ decl => (ClassDecl.name? decl).toList
  | Stmt.varDecl _ (VarDecl.mk _ _ ds) => ds.toList.flatMap Declarator.boundNames
  | stmt@(Stmt.interfaceDecl _ (InterfaceDecl.mk _ form _ _ _)) =>
    if (f.whole stmt).isSome then [form.name] else []
  | Stmt.aliasDecl _ (AliasDecl.mk _ form _ _) => [form.name]
  | Stmt.enumDecl _ (EnumDecl.mk _ form _) => [form.name]
  | _ => []

end Frame

/-! ### What dealing with a statement changes -/

/-- From `w` to `w'` names have been declared in the innermost scope and the innermost frame has
changed; the rest of scopes and frames is as it was. -/
structure Passes (w w' : Walker) (names : List String) (frame : Frame → Frame) : Prop where
  scope : w'.context.scope = names.foldl Scope.declare w.context.scope
  frames : w'.context.frames = w.context.frames.modify frame

namespace Passes

variable {w w₁ w₂ : Walker} {names : List String} {frame frame' : Frame → Frame}

theorem of_effect {visited recorded} (h : Effect w w₁ visited recorded names frame) :
    Passes w w₁ names frame :=
  ⟨h.scope, h.frames⟩

theorem refl (w : Walker) : Passes w w [] id := ⟨rfl, rfl⟩

theorem still_trans (h : Passes w w₁ [] id) (h' : Passes w₁ w₂ names frame) :
    Passes w w₂ names frame where
  scope := by rw [h'.scope, h.scope]; rfl
  frames := by rw [h'.frames, h.frames]; rfl

/-- Only what becomes of the innermost frame matters. -/
theorem congr (h : Passes w w₁ names frame)
    (same : frame w.context.frame = frame' w.context.frame) : Passes w w₁ names frame' := by
  refine ⟨h.scope, h.frames.trans ?_⟩
  exact congrArg (fun f => (⟨f, w.context.frames.below⟩ : Stack Frame)) same

end Passes

theorem PlansMember.passes {className names w w' m plan}
    (h : PlansMember className names w m plan w') : Passes w w' [] id := by
  cases h with
  | func _ _ _ effect => exact .of_effect effect
  | _ => exact .refl w

theorem PlansMembers.passes {className names w w' ms plans}
    (h : PlansMembers className names w ms plans w') : Passes w w' [] id := by
  induction h with
  | nil => exact .refl _
  | cons head _ ih => exact head.passes.still_trans ih

theorem Frame.passing_of_other {form : StmtForm} (h : form.isDeclaration = false) (f : Frame)
    (marks : Marks (Form.width (c := .stmt) form)) (ts : Children (Form.arity (c := .stmt) form)) :
    f.passing (.node (c := .stmt) form marks ts) = f ∧
      f.declared (.node (c := .stmt) form marks ts) = [] := by
  cases form with
  | classDecl | funcDecl | varDecl | interfaceDecl | aliasDecl | enumDecl => cases h
  | _ => exact ⟨rfl, rfl⟩

section

variable {f : Frame} {m mark : Mark} {form : TypeDeclForm}
  {typeParams : Maybe (.many .typeParam)} {bases : Many .type} {members : Many .typeMember}
  {decl : InterfaceDecl}

theorem Frame.declared_interface (hd : decl = InterfaceDecl.mk mark form typeParams bases members) :
    f.declared (Stmt.interfaceDecl m decl) =
      if (f.whole (Stmt.interfaceDecl m decl)).isSome then [form.name] else [] := by
  subst hd
  rfl

theorem Frame.whole_interface (hd : decl = InterfaceDecl.mk mark form typeParams bases members) :
    f.whole (Stmt.interfaceDecl m decl) =
      if form.ambient || f.hasClass form.name || f.merged.contains form.name then none
      else (f.accumulate decl).2 := by
  subst hd
  rfl

theorem Frame.passing_interface (hd : decl = InterfaceDecl.mk mark form typeParams bases members) :
    f.passing (Stmt.interfaceDecl m decl) =
      if form.ambient then f
      else if f.hasClass form.name then f.merge form.name
      else if f.merged.contains form.name then f
      else (f.accumulate decl).1 := by
  subst hd
  rfl

end

/-- **Dealing with a statement** declares its names and takes it off the frame. -/
theorem Planned.passes {w w' s plan fs} (h : Planned w s plan fs w') :
    Passes w w' (w.context.frame.declared s) (·.passing s) := by
  cases h with
  | ambientClass hd ambient effect =>
    subst hd
    exact (Passes.of_effect effect).congr (if_pos ambient).symm
  | classDecl hd ambient _ planned _ effect =>
    subst hd
    refine (planned.passes.still_trans (.of_effect effect)).congr ?_
    exact (if_neg (by simp [ambient])).symm
  | varDecl _ effect | funcDecl _ _ effect | ambientAlias _ effect | aliasDecl _ _ effect
  | enumDecl effect => exact .of_effect effect
  | funcVisited => exact .refl w
  | ambientInterface ambient =>
    rw [Frame.declared_interface rfl, Frame.whole_interface rfl, ambient]
    refine (Passes.refl w).congr ?_
    rw [Frame.passing_interface rfl, ambient]
    rfl
  | classInterface ambient class' effect =>
    rw [Frame.declared_interface rfl, Frame.whole_interface rfl, ambient, class']
    refine (Passes.of_effect effect).congr ?_
    rw [Frame.passing_interface rfl, ambient, class']
    rfl
  | mergedInterface ambient class' merged =>
    rw [Context.isMerged] at merged
    rw [Frame.declared_interface rfl, Frame.whole_interface rfl, ambient, class', merged]
    refine (Passes.refl w).congr ?_
    rw [Frame.passing_interface rfl, ambient, class', merged]
    rfl
  | pendingInterface hd ambient class' merged last effect
  | interfaceDecl hd ambient class' merged last _ effect =>
    rw [Context.isMerged] at merged
    rw [Frame.declared_interface hd, Frame.whole_interface hd, ambient, class', merged, last]
    refine (Passes.of_effect effect).congr ?_
    rw [Frame.passing_interface hd, ambient, class', merged]
    rfl
  | @other form marks ts h =>
    obtain ⟨frame, names⟩ := Frame.passing_of_other h w.context.frame marks ts
    rw [names]
    exact (Passes.refl w).congr frame.symm

end Reify
