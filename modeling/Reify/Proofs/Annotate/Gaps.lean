import Reify.Annotate
import Reify.Proofs.Syntax.Renumber

/-!
# Gaps

A gap is an empty type slot that can be filled in: that of a variable, a parameter, a property, or
the result of a function or a signature.  `Tree.gaps` lists the gaps of a tree in source order, and
`Tree.complete` is the tree with each gap filled for which there is an answer.

Neither keeps a state.  Whether a function has a gap depends on what it is to the member around it,
for constructors and setters have no result type; `Tree.exempts` says so.
-/

namespace Reify

open List

/-! ### Gaps -/

/-- An empty type slot, with the mark of the node that it is asked for. -/
inductive TypeGap where
  /-- The type of something declared, which has to be known. -/
  | binding (host : Mark) (name : Option String)
  /-- The type of a result. -/
  | result (host : Mark)
deriving DecidableEq, Repr

namespace TypeGap

/-- The mark of the node that the type is asked for. -/
def host : TypeGap → Mark
  | binding host _ => host
  | result host => host

variable (inference : Nat → Option TypeExpr)

/-- The type for a gap: what is inferred for its node, of a function's type the result. -/
def answer : TypeGap → Option TypeExpr
  | binding host _ => inference host.id
  | result host => (inference host.id).map Annotating.resultPart

/-- What is reported about a gap.  A result may stay without a type. -/
def miss? : TypeGap → Option Miss
  | binding host name => if (inference host.id).isNone then some ⟨host.loc, name⟩ else none
  | result _ => none

end TypeGap

/-- Whether a member holds a setter. -/
def MemberVal.isSetter : MemberVal → Bool
  | MemberVal.function _ .setter _ => true
  | _ => false

namespace Tree

/-- A gap, if the slot is empty. -/
def gapIn (slot : Maybe .type) (gap : TypeGap) : Option TypeGap :=
  if slot.toOption.isSome then none else some gap

/-- The gap at the root of a tree.  An exempt function has none. -/
def gap? (exempt : Bool) : {c : Category} → Tree c → Option TypeGap
  | .param, p@(Param.mk mark _ _ _ type _) =>
    if Param.isReceiver p then none else gapIn type (.binding mark (Param.name? p))
  | .declarator, Declarator.mk mark binding type _ =>
    gapIn type (.binding mark (Binding.ident? binding))
  | .classMember, ClassMember.mk mark _ _ key type (MemberVal.property _) =>
    gapIn type (.binding mark (MemberKey.direct? key))
  | .typeMember, TypeMember.property site _ _ key type =>
    gapIn type (.binding site.form (TypeKey.name? key))
  | .typeMember, TypeMember.method site _ _ _ _ result
  | .typeMember, TypeMember.construct site _ _ result
  | .typeMember, TypeMember.call site _ _ result => gapIn result (.result site.form)
  | .func, Func.mk mark _ _ _ result body =>
    if exempt || body.toOption.isNone then none else gapIn result (.result mark)
  | _, _ => none

/-- Whether the part of a category is exempt in a tree: the function of a constructor or a setter
is. -/
def exempts (exempt : Bool) : {c : Category} → Tree c → Category → Bool
  | .classMember, m@(ClassMember.mk _ _ _ _ _ val), .memberVal =>
    ClassMember.isConstructor m || MemberVal.isSetter val
  | .objMember, ObjMember.valued _ _ val, .memberVal => MemberVal.isSetter val
  | .memberVal, _, .func => exempt
  | _, _, _ => false

end Tree

mutual

/-- The gaps of a tree, a node's own before those of its parts. -/
def Tree.gaps (exempt : Bool) : {c : Category} → Tree c → List TypeGap
  | _, .node form marks ts =>
    ((Tree.node form marks ts).gap? exempt).toList ++
      ts.gaps ((Tree.node form marks ts).exempts exempt)

/-- The gaps of several trees, given which of them are exempt. -/
def Children.gaps (exempt : Category → Bool) : {cs : List Category} → Children cs → List TypeGap
  | _, .nil => []
  | c :: _, .cons t ts => t.gaps (exempt c) ++ ts.gaps exempt

end

mutual

/-- The tree with its gaps filled where there is an answer. -/
def Tree.complete (inference : Nat → Option TypeExpr) (exempt : Bool) :
    {c : Category} → Tree c → Tree c
  | _, .node form marks ts =>
    let t := Tree.node form marks ts
    let parts := Tree.node form marks (ts.complete inference (t.exempts exempt))
    match (t.gap? exempt).bind (TypeGap.answer inference) with
    | some answer => Tree.fillType answer.detach parts
    | none => parts

/-- Trees with their gaps filled where there is an answer. -/
def Children.complete (inference : Nat → Option TypeExpr) (exempt : Category → Bool) :
    {cs : List Category} → Children cs → Children cs
  | _, .nil => .nil
  | c :: _, .cons t ts => .cons (t.complete inference (exempt c)) (ts.complete inference exempt)

end

/-! ### What the walk keeps count of -/

namespace Tree

/-- The function of an exempt member. -/
def held (exempt : Bool) : {c : Category} → Tree c → List Nat
  | .func, f => if exempt then [f.mark.id] else []
  | .memberVal, MemberVal.function _ _ f => if exempt then [f.mark.id] else []
  | _, _ => []

/-- The numbers under which a tree is dealt with.  A member that holds an exempt function deals with
the function too. -/
def hosts : {c : Category} → Tree c → List Nat
  | .param, t | .declarator, t | .func, t => [t.mark.id]
  | .classMember, m@(ClassMember.mk mark _ _ _ _ val) =>
    mark.id :: val.held (ClassMember.isConstructor m || MemberVal.isSetter val)
  | .objMember, ObjMember.valued _ _ val => val.held (MemberVal.isSetter val)
  | .typeMember, TypeMember.property site _ _ _ _
  | .typeMember, TypeMember.method site _ _ _ _ _
  | .typeMember, TypeMember.construct site _ _ _
  | .typeMember, TypeMember.call site _ _ _ => [site.form.id]
  | _, _ => []

end Tree

/-- The functions of exempt members. -/
def Children.held (exempt : Category → Bool) : {cs : List Category} → Children cs → List Nat
  | _, .nil => []
  | c :: _, .cons t ts => t.held (exempt c) ++ ts.held exempt

/-! ### Slots -/

/-- Categories of trees that may have a slot for a type. -/
def Category.isTyped : Category → Bool
  | .param | .declarator | .classMember | .typeMember | .func => true
  | _ => false

namespace Children

/-- Trees with a type put into the first slot for one. -/
def fillSlot (x : TypeExpr) : {cs : List Category} → Children cs → Children cs
  | .maybe .type :: _, .cons _ ts => .cons (.present x) ts
  | _ :: _, .cons t ts => .cons t (ts.fillSlot x)
  | [], .nil => .nil

/-- The first slot for a type is empty. -/
def SlotEmpty : {cs : List Category} → Children cs → Prop
  | .maybe .type :: _, .cons slot _ => slot.form = false
  | _ :: _, .cons _ ts => ts.SlotEmpty
  | [], .nil => False

/-- Trees of the same forms, one by one. -/
inductive SameForms : {cs : List Category} → Children cs → Children cs → Prop where
  | nil : SameForms .nil .nil
  | cons {c : Category} {cs : List Category} {t t' : Tree c} {ts ts' : Children cs}
      (head : t'.form = t.form) (rest : SameForms ts ts') : SameForms (.cons t ts) (.cons t' ts')

section

variable {c : Category} {cs : List Category} (hc : c ≠ .maybe .type) (t : Tree c) (ts : Children cs)

include hc

theorem fillSlot_cons (x : TypeExpr) : (cons t ts).fillSlot x = .cons t (ts.fillSlot x) :=
  fillSlot.eq_2 _ _ _ _ _ fun _ _ same => (hc same).elim

theorem slotEmpty_cons : (cons t ts).SlotEmpty = ts.SlotEmpty :=
  SlotEmpty.eq_2 _ _ _ _ fun _ _ same => (hc same).elim

end

theorem SameForms.slotEmpty {cs} {ts ts' : Children cs} (same : ts.SameForms ts')
    (h : ts.SlotEmpty) : ts'.SlotEmpty := by
  induction same with
  | nil => exact h
  | @cons c _ _ _ _ _ head _ ih =>
    by_cases hc : c = .maybe .type
    · subst hc
      exact head.trans h
    · rw [slotEmpty_cons hc] at h ⊢
      exact ih h

theorem renumber_fillSlot (x : TypeExpr) (f : Nat → Nat) : {cs : List Category} →
    (ts : Children cs) → (ts.fillSlot x).renumber f = (ts.renumber f).fillSlot (x.renumber f)
  | _, .nil => by simp only [fillSlot, renumber_nil]
  | c :: _, .cons t ts => by
    by_cases hc : c = .maybe .type
    · subst hc
      simp only [fillSlot, renumber_cons, Tree.renumber_node, renumber_nil]
      rfl
    · rw [renumber_cons, fillSlot_cons hc, fillSlot_cons hc, renumber_cons, renumber_fillSlot]

/-- What is filled in is all that is gained. -/
theorem marks_fillSlot (x : TypeExpr) : {cs : List Category} → (ts : Children cs) →
    ts.SlotEmpty → (ts.fillSlot x).marks.Perm (x.marks ++ ts.marks)
  | _, .nil, empty => empty.elim
  | c :: _, .cons t ts, empty => by
    by_cases hc : c = .maybe .type
    · subst hc
      match t, empty with
      | .absent, _ => simp [fillSlot, marks_cons, Tree.marks_node, marks_nil, Marks.toList]
    · rw [slotEmpty_cons hc] at empty
      rw [fillSlot_cons hc, marks_cons, marks_cons]
      exact ((marks_fillSlot x ts empty).append_left t.marks).trans
        (perm_append_comm_assoc _ _ _)

end Children

variable {g : TypeGap} {exempt : Bool}

theorem Tree.gapIn_eq_some {slot gap} (h : Tree.gapIn slot gap = some g) :
    slot.form = false ∧ gap = g := by
  match slot with
  | .absent => exact ⟨rfl, Option.some.inj h⟩
  | .present _ => cases h

namespace Tree

variable {c : Category} {form : Form c} {marks : Marks form.width} {ts : Children form.arity}

/-- A gap is an empty slot, and asked for under a mark of its tree. -/
theorem slot_of_gap (h : (Tree.node form marks ts).gap? exempt = some g) :
    g.host ∈ marks.toList ∧ c.isTyped = true ∧ ts.SlotEmpty := by
  cases c with
  | param =>
    obtain _ | mark := marks
    obtain _ | ⟨decorators, _ | ⟨binding, _ | ⟨type, _ | ⟨default, _ | _⟩⟩⟩⟩ := ts
    change (if Param.isReceiver _ then none else _) = _ at h
    split at h
    case isTrue => cases h
    case isFalse =>
      obtain ⟨empty, rfl⟩ := gapIn_eq_some h
      exact ⟨mem_cons_self, rfl, empty⟩
  | declarator =>
    obtain _ | mark := marks
    obtain _ | ⟨binding, _ | ⟨type, _ | ⟨init, _ | _⟩⟩⟩ := ts
    obtain ⟨empty, rfl⟩ := gapIn_eq_some h
    exact ⟨mem_cons_self, rfl, empty⟩
  | classMember =>
    match marks, ts, h with
    | .one mark, .cons _ (.cons _ (.cons _ (.cons (MemberVal.property _) .nil))), h =>
      obtain ⟨empty, rfl⟩ := gapIn_eq_some h
      exact ⟨mem_cons_self, rfl, empty⟩
  | typeMember =>
    obtain _ | _ | site := marks
    have own : site.form ∈ (Marks.two site).toList := mem_cons_of_mem _ mem_cons_self
    cases form with
    | property =>
      obtain _ | ⟨key, _ | ⟨type, _ | _⟩⟩ := ts
      obtain ⟨empty, rfl⟩ := gapIn_eq_some h
      exact ⟨own, rfl, empty⟩
    | method =>
      obtain _ | ⟨key, _ | ⟨typeParams, _ | ⟨params, _ | ⟨result, _ | _⟩⟩⟩⟩ := ts
      obtain ⟨empty, rfl⟩ := gapIn_eq_some h
      exact ⟨own, rfl, empty⟩
    | index => cases h
    | _ =>
      obtain _ | ⟨typeParams, _ | ⟨params, _ | ⟨result, _ | _⟩⟩⟩ := ts
      obtain ⟨empty, rfl⟩ := gapIn_eq_some h
      exact ⟨own, rfl, empty⟩
  | func =>
    obtain _ | mark := marks
    obtain _ | ⟨typeParams, _ | ⟨params, _ | ⟨result, _ | ⟨body, _ | _⟩⟩⟩⟩ := ts
    change (if exempt || body.toOption.isNone then none else _) = _ at h
    split at h
    case isTrue => cases h
    case isFalse =>
      obtain ⟨empty, rfl⟩ := gapIn_eq_some h
      exact ⟨mem_cons_self, rfl, empty⟩
  | _ => cases h

variable (x : TypeExpr)

/-- Filling a type into a tree fills its slot. -/
theorem fillType_node :
    fillType x (.node form marks ts) =
      .node form marks (if c.isTyped then ts.fillSlot x else ts) := by
  cases c with
  | param | classMember | func =>
    match marks, ts with
    | .one _, .cons _ (.cons _ (.cons _ (.cons _ .nil))) => rfl
  | declarator =>
    match marks, ts with
    | .one _, .cons _ (.cons _ (.cons _ .nil)) => rfl
  | typeMember =>
    cases form with
    | method =>
      match marks, ts with
      | .two _, .cons _ (.cons _ (.cons _ (.cons _ .nil))) => rfl
    | construct | call =>
      match marks, ts with
      | .two _, .cons _ (.cons _ (.cons _ .nil)) => rfl
    | _ =>
      match marks, ts with
      | .two _, .cons _ (.cons _ .nil) => rfl
  | _ => rfl

theorem form_fillType : (t : Tree c) → (fillType x t).form = t.form
  | .node form marks ts => by
    rw [fillType_node]
    rfl

theorem renumber_fillType {f : Nat → Nat} : (t : Tree c) →
    (fillType x t).renumber f = fillType (x.renumber f) (t.renumber f)
  | .node form marks ts => by
    rw [fillType_node, renumber_node, renumber_node, fillType_node]
    split
    · rw [Children.renumber_fillSlot]
    · rfl

/-- What is filled in is all that a tree gains. -/
theorem marks_fillType {ts'} (gap : (Tree.node form marks ts).gap? exempt = some g)
    (same : ts.SameForms ts') :
    (fillType x (.node form marks ts')).marks.Perm (x.marks ++ marks.toList ++ ts'.marks) := by
  obtain ⟨-, typed, empty⟩ := slot_of_gap gap
  rw [fillType_node, if_pos typed, marks_node, append_assoc]
  exact ((Children.marks_fillSlot x ts' (same.slotEmpty empty)).append_left _).trans
    (perm_append_comm_assoc _ _ _)

end Tree

mutual

/-- Every gap of a tree is asked for under a mark of the tree, and no two under the same. -/
theorem Tree.hosts_of_gaps (exempt : Bool) : {c : Category} → (t : Tree c) →
    Sublist ((t.gaps exempt).map TypeGap.host) t.marks
  | _, .node form marks ts => by
    rw [Tree.gaps, Tree.marks_node, map_append]
    refine .append ?_ (ts.hosts_of_gaps _)
    cases gap : (Tree.node form marks ts).gap? exempt with
    | none => exact nil_sublist _
    | some g => exact singleton_sublist.2 (Tree.slot_of_gap gap).1

theorem Children.hosts_of_gaps (exempt : Category → Bool) : {cs : List Category} →
    (ts : Children cs) → Sublist ((ts.gaps exempt).map TypeGap.host) ts.marks
  | _, .nil => by simp [Children.gaps]
  | _, .cons t ts => by
    rw [Children.gaps, Children.marks_cons, map_append]
    exact (t.hosts_of_gaps _).append (ts.hosts_of_gaps _)

end

end Reify
