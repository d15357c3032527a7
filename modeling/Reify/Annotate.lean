import Reify.Context

/-!
# Filling in missing types

Before checks can be added, every variable, parameter and property needs a type.  Where none is
written, the inferred one is put in.  Return types are filled in as well if they can be inferred.
-/

namespace Reify

/-- A declaration that needs a type, has none, and none can be inferred. -/
structure Miss where
  loc : Loc
  /-- The name of what is declared. -/
  binding : Option String
deriving DecidableEq, Repr, Inhabited

/-- The state of the walk with the declarations left without a type. -/
structure Annotator where
  context : Context
  misses : List Miss := []

/-- A step of the walk that fills in types. -/
abbrev Annotating := StateM Annotator

namespace Annotating

/-- Counts a node as dealt with. -/
def markVisited (id : Nat) : Annotating Unit :=
  modify fun a => { a with context := a.context.markVisited id }

/-- Counts a node as dealt with and says whether this is the first time. -/
def firstVisit (id : Nat) : Annotating Bool := do
  let fresh := !(← get).context.wasVisited id
  markVisited id
  return fresh

/-- The inferred type of a node. -/
def infer (inference : Nat → Option TypeExpr) (id : Nat) : Annotating (Option TypeExpr) := do
  let a ← get
  let (context, t) := a.context.inferType inference id
  set { a with context }
  return t

/-- Makes an inferred type part of the unit. -/
def adopt (t : TypeExpr) : Annotating TypeExpr := do
  let a ← get
  let (context, t) := a.context.adopt t
  set { a with context }
  return t

/-- The type for a declaration that has none yet; if none can be inferred, it is a miss. -/
def bindingType (inference : Nat → Option TypeExpr) (mark : Mark) (name : Option String)
    (slot : Maybe .type) : Annotating (Option TypeExpr) := do
  if slot.toOption.isSome then return none
  match ← infer inference mark.id with
  | some t => return some (← adopt t)
  | none =>
    modify fun a => { a with misses := a.misses ++ [⟨mark.loc, name⟩] }
    return none

/-- The part of an inferred type that tells what is returned. -/
def resultPart : TypeExpr → TypeExpr
  | TypeExpr.func _ _ _ result => result
  | t => t

/-- The type for a result that has none yet, if it can be inferred. -/
def resultType (inference : Nat → Option TypeExpr) (id : Nat) (slot : Maybe .type) :
    Annotating (Option TypeExpr) := do
  if slot.toOption.isSome then return none
  match ← infer inference id with
  | some t => return some (← adopt (resultPart t))
  | none => return none

/-- The type to fill in at a node, which is dealt with only once.  Neither constructors nor
setters can have a result type. -/
def missingType (inference : Nat → Option TypeExpr) :
    {c : Category} → Tree c → Annotating (Option TypeExpr)
  | .param, p@(Param.mk mark _ _ _ type _) => do
    if !(← firstVisit mark.id) || Param.isReceiver p then return none
    bindingType inference mark (Param.name? p) type
  | .declarator, Declarator.mk mark binding type _ => do
    if !(← firstVisit mark.id) then return none
    bindingType inference mark (Binding.ident? binding) type
  | .classMember, m@(ClassMember.mk mark _ _ key type val) => do
    if !(← firstVisit mark.id) then return none
    match val with
    | MemberVal.property _ => bindingType inference mark (MemberKey.direct? key) type
    | MemberVal.function _ kind func =>
      if kind = .setter || ClassMember.isConstructor m then markVisited func.mark.id
      return none
    | _ => return none
  | .objMember, ObjMember.valued _ _ (MemberVal.function _ .setter func) => do
    markVisited func.mark.id
    return none
  | .typeMember, TypeMember.property site _ _ key type => do
    if !(← firstVisit site.form.id) then return none
    bindingType inference site.form (TypeKey.name? key) type
  | .typeMember, TypeMember.method site _ _ _ _ result => signature site result
  | .typeMember, TypeMember.construct site _ _ result => signature site result
  | .typeMember, TypeMember.call site _ _ result => signature site result
  | .func, Func.mk mark _ _ _ result body => do
    if !(← firstVisit mark.id) || body.toOption.isNone then return none
    resultType inference mark.id result
  | _, _ => return none
where
  /-- The result type of a signature. -/
  signature (site : Site) (result : Maybe .type) : Annotating (Option TypeExpr) := do
    if !(← firstVisit site.form.id) then return none
    resultType inference site.form.id result

end Annotating

/-- Fills a type into the slot of a tree. -/
def Tree.fillType (t : TypeExpr) : {c : Category} → Tree c → Tree c
  | .param, Param.mk mark form decorators binding _ default =>
    Param.mk mark form decorators binding (.present t) default
  | .declarator, Declarator.mk mark binding _ init =>
    Declarator.mk mark binding (.present t) init
  | .classMember, ClassMember.mk mark form decorators key _ val =>
    ClassMember.mk mark form decorators key (.present t) val
  | .typeMember, TypeMember.property site readonly optional key _ =>
    TypeMember.property site readonly optional key (.present t)
  | .typeMember, TypeMember.method site optional key typeParams params _ =>
    TypeMember.method site optional key typeParams params (.present t)
  | .typeMember, TypeMember.construct site typeParams params _ =>
    TypeMember.construct site typeParams params (.present t)
  | .typeMember, TypeMember.call site typeParams params _ =>
    TypeMember.call site typeParams params (.present t)
  | .func, Func.mk mark form typeParams params _ body =>
    Func.mk mark form typeParams params (.present t) body
  | _, tree => tree

/-- Runs one action for each of the listed categories, in order. -/
def Results.sequence {m : Type → Type} [Monad m] :
    {cs : List Category} → Results (fun c => m (Tree c)) cs → m (Children cs)
  | [], () => return .nil
  | _ :: _, (act, acts) => do
    let t ← act
    return .cons t (← sequence acts)

/-- Fills in the missing types of a tree, a node's own before those of its parts. -/
def Tree.annotate (inference : Nat → Option TypeExpr) {c : Category} (t : Tree c) :
    Annotating (Tree c) :=
  t.fold (X := fun c => Annotating (Tree c)) fun form marks children acts => do
    let missing ← Annotating.missingType inference (.node form marks children)
    let tree := Tree.node form marks (← Results.sequence acts)
    return (missing.map fun t => Tree.fillType t tree).getD tree

end Reify
