import Reify.Check.Class
import Reify.Proofs.Syntax.Growth

/-!
# Outlines

A walk changes statements and expressions, and may turn the expression that a function returns into
statements.  What is around them it keeps: `Alike` relates a tree to those with the same outline.
So a class has the members that it had, in the same order, and a function has a body if it had one.
-/

namespace Reify

open List

/-- Categories whose trees the walk may replace as a whole. -/
def Category.isLoose : Category → Bool
  | .stmt | .expr | .forInit | .many .stmt => true
  | _ => false

/-- Categories whose trees keep their form. -/
def Category.isFirm : Category → Bool
  | .stmt | .expr | .forInit | .funcBody | .many _ => false
  | _ => true

/-- **Outlines**: the second thing differs from the first in statements and expressions only. -/
inductive Alike : (k : Shape) → k.Of → k.Of → Prop where
  | loose {c : Category} {t t' : Tree c} (hc : c.isLoose = true) : Alike (.tree c) t t'
  | block {ss ss' : Many .stmt} : Alike (.tree .funcBody) (FuncBody.block ss) (FuncBody.block ss')
  | expr {e : Expr} {b : FuncBody} : Alike (.tree .funcBody) (FuncBody.expr e) b
  | node {c : Category} {form : Form c} {marks : Marks form.width} {ts ts' : Children form.arity}
      (hc : c.isFirm = true) (parts : Alike (.parts form.arity) ts ts') :
      Alike (.tree c) (.node form marks ts) (.node form marks ts')
  | many {c : Category} {ts ts' : List (Tree c)} (each : Alike (.list c) ts ts') :
      Alike (.tree (.many c)) (.ofList ts) (.ofList ts')
  | partsNil : Alike (.parts []) .nil .nil
  | partsCons {c : Category} {cs : List Category} {t t' : Tree c} {ts ts' : Children cs}
      (head : Alike (.tree c) t t') (tail : Alike (.parts cs) ts ts') :
      Alike (.parts (c :: cs)) (.cons t ts) (.cons t' ts')
  | listNil {c : Category} : Alike (.list c) [] []
  | listCons {c : Category} {t t' : Tree c} {ts ts' : List (Tree c)} (head : Alike (.tree c) t t')
      (tail : Alike (.list c) ts ts') : Alike (.list c) (t :: ts) (t' :: ts')

/-- Trees of one form whose parts are alike. -/
inductive SameRoot {c : Category} : Tree c → Tree c → Prop where
  | mk {form : Form c} {marks : Marks form.width} {ts ts' : Children form.arity}
      (parts : Alike (.parts form.arity) ts ts') :
      SameRoot (.node form marks ts) (.node form marks ts')

variable {mark : Mark} {typeParams : Maybe (.many .typeParam)} {m' m : ClassMember}
  {type : Maybe .type} {decorators : Many .decorator} {key : MemberKey} {f : Func}
  {name : Maybe .name}

namespace Alike

variable {c : Category}

theorem toList {n} {ts ts' : Children (List.replicate n c)}
    (h : Alike (.parts (List.replicate n c)) ts ts') : Alike (.list c) ts.toList ts'.toList := by
  induction n with
  | zero => exact .listNil
  | succ n ih =>
    cases h with
    | partsCons head tail => exact .listCons head (ih tail)

/-- Trees of one form are alike if their parts are. -/
theorem of_parts {form marks ts ts'} (h : Alike (.parts form.arity) ts ts') :
    Alike (.tree c) (.node form marks ts) (.node form marks ts') := by
  cases c with
  | many c =>
    cases marks
    rw [← Tree.ofList_children ts, ← Tree.ofList_children ts']
    exact .many h.toList
  | funcBody =>
    match form, marks, ts, ts' with
    | .block, .none, .cons _ .nil, .cons _ .nil => exact .block
    | .expr, .none, .cons _ .nil, .cons _ .nil => exact .expr
  | stmt | expr | forInit => exact .loose rfl
  | _ => exact .node rfl h

mutual

theorem refl : {c : Category} → (t : Tree c) → Alike (.tree c) t t
  | _, .node _ _ ts => of_parts (reflParts ts)

theorem reflParts : {cs : List Category} → (ts : Children cs) → Alike (.parts cs) ts ts
  | _, .nil => .partsNil
  | _, .cons t ts => .partsCons (refl t) (reflParts ts)

end

theorem of_root {t t'} (h : SameRoot t t') : Alike (.tree c) t t' := by
  cases h with
  | mk parts => exact of_parts parts

theorem forall₂ {ts ts' : List (Tree c)} (h : Alike (.list c) ts ts') :
    Forall₂ (Alike (.tree c)) ts ts' := by
  induction ts generalizing ts' with
  | nil =>
    cases h
    exact .nil
  | cons t ts ih =>
    cases h with
    | listCons head tail => exact .cons head (ih tail)

/-! ### What is alike -/

theorem maybe_inv {t t' : Maybe c} (h : Alike (.tree (.maybe c)) t t') :
    (t = .absent ∧ t' = .absent) ∨
      ∃ u u', t = .present u ∧ t' = .present u' ∧ Alike (.tree c) u u' := by
  cases h with
  | loose hc => cases hc
  | @node _ form marks ts ts' _ parts =>
    cases form with
    | false =>
      cases marks
      cases parts
      exact .inl ⟨rfl, rfl⟩
    | true =>
      cases marks
      match parts with
      | .partsCons h .partsNil =>
        exact .inr ⟨_, _, rfl, rfl, h⟩

theorem many_inv {t t' : Many c} (hc : c ≠ .stmt) (h : Alike (.tree (.many c)) t t') :
    Forall₂ (Alike (.tree c)) t.toList t'.toList := by
  cases h with
  | loose loose =>
    cases c with
    | stmt => exact (hc rfl).elim
    | _ => cases loose
  | node hc => cases hc
  | many each => simpa using each.forall₂

theorem node_inv {form marks ts} {t' : Tree c} (h : Alike (.tree c) (.node form marks ts) t')
    (hc : c.isFirm = true) :
    ∃ ts', t' = .node form marks ts' ∧ Alike (.parts form.arity) ts ts' := by
  cases h with
  | loose loose =>
    cases c with
    | stmt | expr | forInit | many => cases hc
    | _ => cases loose
  | node _ parts => exact ⟨_, rfl, parts⟩
  | _ => cases hc

theorem body_inv {b b' : FuncBody} (h : Alike (.tree .funcBody) b b') :
    (∃ ss ss', b = .block ss ∧ b' = .block ss') ∨ ∃ e, b = .expr e := by
  cases h with
  | loose loose => cases loose
  | block => exact .inl ⟨_, _, rfl, rfl⟩
  | expr => exact .inr ⟨_, rfl⟩
  | node hc => cases hc

theorem func_inv {form params result body} {f' : Func}
    (h : Alike (.tree .func) (Func.mk mark form typeParams params result body) f') :
    ∃ typeParams' params' result' body',
      f' = Func.mk mark form typeParams' params' result' body' ∧
      Alike (.tree (.maybe .funcBody)) body body' := by
  obtain ⟨ts', rfl, parts⟩ := h.node_inv rfl
  match parts with
  | .partsCons _ (.partsCons _ (.partsCons _ (.partsCons bodies .partsNil))) =>
    exact ⟨_, _, _, _, rfl, bodies⟩

theorem member_inv {form val}
    (h : Alike (.tree .classMember) (ClassMember.mk mark form decorators key type val) m') :
    ∃ decorators' key' type' val', m' = ClassMember.mk mark form decorators' key' type' val' ∧
      Alike (.tree .memberKey) key key' ∧ Alike (.tree .memberVal) val val' := by
  obtain ⟨ts', rfl, parts⟩ := h.node_inv rfl
  match parts with
  | .partsCons _ (.partsCons key (.partsCons _ (.partsCons val .partsNil))) =>
    exact ⟨_, _, _, _, rfl, key, val⟩

theorem function_inv {kind} {val' : MemberVal}
    (h : Alike (.tree .memberVal) (MemberVal.function mark kind f) val') :
    ∃ f', val' = MemberVal.function mark kind f' ∧ Alike (.tree .func) f f' := by
  obtain ⟨ts', rfl, parts⟩ := h.node_inv rfl
  match parts with
  | .partsCons funcs .partsNil =>
    exact ⟨_, rfl, funcs⟩

theorem classDecl_inv {form base baseArgs implemented members} {d' : ClassDecl}
    (h : Alike (.tree .classDecl) (ClassDecl.mk mark form decorators name typeParams base baseArgs
      implemented members) d') :
    ∃ decorators' name' typeParams' base' baseArgs' implemented' members',
      d' = ClassDecl.mk mark form decorators' name' typeParams' base' baseArgs' implemented'
        members' ∧
      Forall₂ (Alike (.tree .classMember)) members.toList members'.toList := by
  obtain ⟨ts', rfl, parts⟩ := h.node_inv rfl
  match parts with
  | .partsCons _ (.partsCons _ (.partsCons _ (.partsCons _ (.partsCons _ (.partsCons _
      (.partsCons members .partsNil)))))) =>
    exact ⟨_, _, _, _, _, _, _, rfl, members.many_inv nofun⟩

theorem funcDecl_inv {form} {d' : FuncDecl}
    (h : Alike (.tree .funcDecl) (FuncDecl.mk mark form name f) d') :
    ∃ name' f', d' = FuncDecl.mk mark form name' f' ∧ Alike (.tree .func) f f' := by
  obtain ⟨ts', rfl, parts⟩ := h.node_inv rfl
  match parts with
  | .partsCons _ (.partsCons func .partsNil) =>
    exact ⟨_, _, rfl, func⟩

theorem declarator_inv {binding init} {d' : Declarator}
    (h : Alike (.tree .declarator) (Declarator.mk mark binding type init) d') :
    ∃ binding' type' init', d' = Declarator.mk mark binding' type' init' ∧
      Alike (.tree (.maybe .expr)) init init' := by
  obtain ⟨ts', rfl, parts⟩ := h.node_inv rfl
  match parts with
  | .partsCons _ (.partsCons _ (.partsCons inits .partsNil)) =>
    exact ⟨_, _, _, rfl, inits⟩

theorem varDecl_inv {form ds} {d' : VarDecl}
    (h : Alike (.tree .varDecl) (VarDecl.mk mark form ds) d') :
    ∃ ds', d' = VarDecl.mk mark form ds' ∧
      Forall₂ (Alike (.tree .declarator)) ds.toList ds'.toList := by
  obtain ⟨ts', rfl, parts⟩ := h.node_inv rfl
  match parts with
  | .partsCons declarators .partsNil =>
    exact ⟨_, rfl, declarators.many_inv nofun⟩

/-! ### What members of classes keep -/

theorem direct?_eq {key' : MemberKey} (h : Alike (.tree .memberKey) key key') :
    MemberKey.direct? key' = MemberKey.direct? key := by
  match key, h with
  | MemberKey.direct m name, h =>
    obtain ⟨ts', rfl, parts⟩ := h.node_inv rfl
    cases parts
    rfl
  | MemberKey.computed e, h =>
    obtain ⟨ts', rfl, parts⟩ := h.node_inv rfl
    match parts with
    | .partsCons _ .partsNil =>
      rfl

theorem isStatic_eq (h : Alike (.tree .classMember) m m') :
    ClassMember.isStatic m' = ClassMember.isStatic m := by
  match m, h with
  | ClassMember.mk mark form decorators key type val, h =>
    obtain ⟨decorators', key', type', val', rfl, -, -⟩ := h.member_inv
    rfl

theorem isConstructor_eq (h : Alike (.tree .classMember) m m') :
    ClassMember.isConstructor m' = ClassMember.isConstructor m := by
  match m, h with
  | ClassMember.mk mark form decorators key type val, h =>
    obtain ⟨decorators', key', type', val', rfl, keys, vals⟩ := h.member_inv
    have direct := keys.direct?_eq
    match val, vals with
    | MemberVal.function vm kind f, vals =>
      obtain ⟨f', rfl, -⟩ := vals.function_inv
      cases kind with
      | method =>
        change (_ && MemberKey.direct? key' == _ && true) = (_ && MemberKey.direct? key == _ && true)
        rw [direct]
      | _ => exact (Bool.and_false _).trans (Bool.and_false _).symm
    | MemberVal.property value, vals =>
      obtain ⟨ts', rfl, parts⟩ := vals.node_inv rfl
      match parts with
      | .partsCons _ .partsNil =>
        exact (Bool.and_false _).trans (Bool.and_false _).symm
    | MemberVal.index vm name k v, vals =>
      obtain ⟨ts', rfl, parts⟩ := vals.node_inv rfl
      match parts with
      | .partsCons _ (.partsCons _ .partsNil) =>
        exact (Bool.and_false _).trans (Bool.and_false _).symm

theorem isImplementation_eq (h : Alike (.tree .classMember) m m') :
    ClassMember.isImplementation m' = ClassMember.isImplementation m := by
  match m, h with
  | ClassMember.mk mark form decorators key type val, h =>
    obtain ⟨decorators', key', type', val', rfl, -, vals⟩ := h.member_inv
    match val, vals with
    | MemberVal.function vm kind (Func.mk fm ff typeParams params result body), vals =>
      obtain ⟨f', rfl, func⟩ := vals.function_inv
      obtain ⟨typeParams', params', result', body', rfl, alike⟩ := func.func_inv
      cases kind with
      | method =>
        change body'.toOption.isSome = body.toOption.isSome
        rcases alike.maybe_inv with ⟨rfl, rfl⟩ | ⟨b, b', rfl, rfl, -⟩ <;> rfl
      | _ => rfl
    | MemberVal.property value, vals =>
      obtain ⟨ts', rfl, parts⟩ := vals.node_inv rfl
      match parts with
      | .partsCons _ .partsNil =>
        rfl
    | MemberVal.index vm name k v, vals =>
      obtain ⟨ts', rfl, parts⟩ := vals.node_inv rfl
      match parts with
      | .partsCons _ (.partsCons _ .partsNil) =>
        rfl

theorem isTarget_eq (h : Alike (.tree .classMember) m m') :
    ConstructorPlan.isTarget m' = ConstructorPlan.isTarget m := by
  rw [ConstructorPlan.isTarget, ConstructorPlan.isTarget, h.isConstructor_eq, h.isImplementation_eq]

/-! ### What classes keep -/

theorem typeParamNames_eq {ps ps' : Maybe (.many .typeParam)}
    (h : Alike (.tree (.maybe (.many .typeParam))) ps ps') :
    ps'.toLists.map TypeParam.name = ps.toLists.map TypeParam.name := by
  rcases h.maybe_inv with ⟨rfl, rfl⟩ | ⟨u, u', rfl, rfl, alike⟩
  · rfl
  have names : ∀ p p', Alike (.tree .typeParam) p p' → TypeParam.name p' = TypeParam.name p := by
    intro p p' h
    match p, h with
    | TypeParam.mk _ _ _ _, h =>
      obtain ⟨ts', rfl, parts⟩ := h.node_inv rfl
      match parts with
      | .partsCons _ (.partsCons _ .partsNil) =>
        rfl
  have each : Forall₂ (Alike (.tree .typeParam)) u.toList u'.toList := alike.many_inv nofun
  change u'.toList.map _ = u.toList.map _
  generalize u.toList = us at each ⊢
  generalize u'.toList = us' at each ⊢
  induction each with
  | nil => rfl
  | cons head _ ih => rw [map_cons, map_cons, names _ _ head, ih]

theorem name?_eq {name' : Maybe .name} (h : Alike (.tree (.maybe .name)) name name') :
    name'.toOption.map Name.text = name.toOption.map Name.text := by
  rcases h.maybe_inv with ⟨rfl, rfl⟩ | ⟨u, u', rfl, rfl, alike⟩
  · rfl
  match u, alike with
  | Name.mk _ _, alike =>
    obtain ⟨ts', rfl, parts⟩ := alike.node_inv rfl
    cases parts
    rfl

end Alike

end Reify
