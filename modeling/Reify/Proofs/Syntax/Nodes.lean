import Reify.Instrument
import Reify.Proofs.Syntax.Tree

/-!
# The nodes that a walk deals with

A walk keeps count of statements, functions and the variable declarations in loop headers, by the
numbers of their nodes.  `Tree.idsOf` lists those numbers, of some forms only and outside some
categories.
-/

namespace Reify

open List Tree

/-- The number by which the walk knows a form, if it keeps count of it. -/
def Form.nodeIds : {c : Category} → (form : Form c) → Marks form.width → Children form.arity →
    List Nat
  | .stmt, _, marks, _ | .func, _, marks, _ => [marks.first.id]
  | .forInit, .decl, _, .cons decl .nil => [decl.mark.id]
  | _, _, _, _ => []

section

variable (keep : (c : Category) → Form c → Bool) (skip : Category → Bool)

/-- What `Tree.idsOf` does at a form. -/
def Form.idsOf {c : Category} (form : Form c) (marks : Marks form.width)
    (ts : Children form.arity) (rs : Results (fun _ => List Nat) form.arity) : List Nat :=
  if skip c then [] else (if keep c form then form.nodeIds marks ts else []) ++ rs.values.flatten

/-- The numbers of the forms `keep` outside the categories `skip`, in source order. -/
def Tree.idsOf {c : Category} (t : Tree c) : List Nat :=
  t.fold (X := fun _ => List Nat) (Form.idsOf keep skip)

/-- The numbers of the forms `keep` outside the categories `skip`, in source order. -/
def Children.idsOf {cs : List Category} (ts : Children cs) : List Nat :=
  (ts.fold (X := fun _ => List Nat) (Form.idsOf keep skip)).values.flatten

variable {keep skip} {c : Category}

theorem Tree.idsOf_node (form : Form c) (marks : Marks form.width) (ts : Children form.arity) :
    (Tree.node form marks ts).idsOf keep skip =
      if skip c then []
      else (if keep c form then form.nodeIds marks ts else []) ++ ts.idsOf keep skip := rfl

@[simp] theorem Children.idsOf_nil : Children.nil.idsOf keep skip = [] := rfl

@[simp] theorem Children.idsOf_cons {cs} (t : Tree c) (ts : Children cs) :
    (Children.cons t ts).idsOf keep skip = t.idsOf keep skip ++ ts.idsOf keep skip := rfl

theorem Children.idsOf_ofList (ts : List (Tree c)) :
    (Children.ofList ts).idsOf keep skip = ts.flatMap (Tree.idsOf keep skip) := by
  induction ts with
  | nil => rfl
  | cons t ts ih =>
    rw [flatMap_cons, ← ih]
    rfl

theorem Tree.idsOf_ofList (h : skip (.many c) = false) (ts : List (Tree c)) :
    (Tree.ofList ts).idsOf keep skip = ts.flatMap (Tree.idsOf keep skip) := by
  rw [Tree.ofList, idsOf_node, h, Children.idsOf_ofList]
  simp [Form.nodeIds]

theorem Tree.idsOf_absent : (Tree.absent (c := c)).idsOf keep skip = [] := by
  rw [idsOf_node]
  simp [Form.nodeIds]

theorem Tree.idsOf_present (h : skip (.maybe c) = false) (t : Tree c) :
    (Tree.present t).idsOf keep skip = t.idsOf keep skip := by
  rw [idsOf_node, h]
  simp [Form.nodeIds]

theorem Tree.idsOf_toList (h : skip (.many c) = false) (t : Many c) :
    t.toList.flatMap (Tree.idsOf keep skip) = t.idsOf keep skip := by
  rw [← idsOf_ofList h, ofList_toList]

end

/-! ### Numbers of distinct nodes -/

/-- The number of a variable declaration, which a loop header goes by. -/
def Tree.headIds : {c : Category} → Tree c → List Nat
  | .varDecl, decl => [decl.mark.id]
  | _, _ => []

/-- The number of a variable declaration that stands alone. -/
def Children.headIds : {cs : List Category} → Children cs → List Nat
  | [.varDecl], .cons decl .nil => [decl.mark.id]
  | _, _ => []

theorem Form.nodeIds_sublist {c} (form : Form c) (marks : Marks form.width)
    (ts : Children form.arity) {ids all} (h : (ts.headIds ++ ids).Sublist all) :
    ((Tree.node form marks ts).headIds ++ (form.nodeIds marks ts ++ ids)).Sublist
      (marks.toList.map Mark.id ++ all) := by
  have parts : ids.Sublist all := (sublist_append_right _ _).trans h
  have first (hw : 0 < form.width) : [marks.first.id].Sublist (marks.toList.map Mark.id) :=
    singleton_sublist.2 (mem_map_of_mem (marks.first_mem hw))
  cases c with
  | stmt => exact (first (StmtForm.width_pos form)).append parts
  | func | varDecl => exact (first (Nat.succ_pos _)).append parts
  | forInit =>
    match form, marks, ts with
    | .decl, .none, .cons decl .nil => exact h
    | .absent, .none, .nil | .expr, .none, .cons _ .nil => exact parts
  | _ => exact (nil_sublist _).append parts

section

variable (keep : (c : Category) → Form c → Bool) (skip : Category → Bool)

mutual

theorem Tree.headIds_sublist : {c : Category} → (t : Tree c) →
    (t.headIds ++ t.idsOf keep skip).Sublist (t.marks.map Mark.id)
  | c, .node form marks ts => by
    have whole := form.nodeIds_sublist marks ts ts.headIds_sublist
    rw [idsOf_node, marks_node, map_append]
    refine Sublist.trans (Sublist.append (.refl _) ?_) whole
    split
    · exact nil_sublist _
    · refine Sublist.append ?_ (.refl _)
      split
      · exact .refl _
      · exact nil_sublist _

theorem Children.headIds_sublist : {cs : List Category} → (ts : Children cs) →
    (ts.headIds ++ ts.idsOf keep skip).Sublist (ts.marks.map Mark.id)
  | _, .nil => by simp [Children.headIds]
  | c :: _, .cons t .nil => by
    have head := t.headIds_sublist
    rw [Children.idsOf_cons, Children.idsOf_nil, append_nil, Children.marks_cons,
      Children.marks_nil, append_nil]
    cases c with
    | varDecl => exact head
    | _ => exact (sublist_append_right _ _).trans head
  | c :: _ :: _, .cons t (.cons u ts) => by
    have head := (sublist_append_right _ _).trans t.headIds_sublist
    have tail := (sublist_append_right _ _).trans (Children.cons u ts).headIds_sublist
    rw [Children.idsOf_cons, Children.marks_cons, map_append]
    cases c <;> exact head.append tail

end

/-- The numbers are those of nodes of the tree, and no node is listed twice. -/
theorem Tree.idsOf_sublist {c} (t : Tree c) : (t.idsOf keep skip).Sublist (t.marks.map Mark.id) :=
  (sublist_append_right _ _).trans (t.headIds_sublist keep skip)

end

section

variable {keep keep' : (c : Category) → Form c → Bool} {skip skip' : Category → Bool}

mutual

theorem Tree.idsOf_mono (hk : ∀ c form, keep c form = true → keep' c form = true)
    (hs : ∀ c, skip' c = true → skip c = true) :
    {c : Category} → (t : Tree c) → (t.idsOf keep skip).Sublist (t.idsOf keep' skip')
  | c, .node form marks ts => by
    have parts := ts.idsOf_mono hk hs
    rw [idsOf_node, idsOf_node]
    split
    case isTrue => exact nil_sublist _
    case isFalse entered =>
      rw [if_neg fun h => entered (hs c h)]
      refine Sublist.append ?_ parts
      split
      case isTrue kept => simp [hk c form kept]
      case isFalse => exact nil_sublist _

theorem Children.idsOf_mono (hk : ∀ c form, keep c form = true → keep' c form = true)
    (hs : ∀ c, skip' c = true → skip c = true) :
    {cs : List Category} → (ts : Children cs) → (ts.idsOf keep skip).Sublist (ts.idsOf keep' skip')
  | _, .nil => .refl _
  | _, .cons t ts => by
    rw [Children.idsOf_cons, Children.idsOf_cons]
    exact (t.idsOf_mono hk hs).append (ts.idsOf_mono hk hs)

end

end

/-! ### What a walk leaves alone -/

/-- Categories of what a walk leaves as it is: types and their parts, decorators, members of enums
and imports. -/
def Category.isLeft : Category → Bool
  | .type | .typeMember | .typeKey | .typeParam | .sigParam | .decorator | .enumMember
  | .importDecl | .importNames | .importName => true
  | _ => false

/-- Categories of trees in which a walk has nothing to keep count of. -/
def Category.isQuiet : Category → Bool
  | .name | .interfaceDecl | .aliasDecl | .enumDecl => true
  | .many c | .maybe c => c.isQuiet
  | c => c.isLeft

theorem Form.isQuiet_arity {c} (hq : c.isQuiet = true) (hl : c.isLeft = false) (form : Form c) :
    ∀ d ∈ form.arity, d.isQuiet = true := by
  cases c with
  | name => simp
  | interfaceDecl | aliasDecl | enumDecl => simp [Category.isQuiet, Category.isLeft]
  | many c =>
    intro d hd
    rw [eq_of_mem_replicate hd]
    exact hq
  | maybe c =>
    cases form with
    | false => simp
    | true => exact forall_mem_singleton.2 hq
  | type | typeMember | typeKey | typeParam | sigParam | decorator | enumMember | importDecl
  | importNames | importName => cases hl
  | _ => cases hq

theorem Form.nodeIds_of_quiet {c} (hq : c.isQuiet = true) (form : Form c) (marks : Marks form.width)
    (ts : Children form.arity) : form.nodeIds marks ts = [] := by
  cases c with
  | stmt | func | forInit => cases hq
  | _ => rfl

section

variable (keep : (c : Category) → Form c → Bool) {skip : Category → Bool}

mutual

theorem Tree.idsOf_of_quiet (left : ∀ c, c.isLeft = true → skip c = true) : {c : Category} → (t : Tree c) → c.isQuiet = true →
    t.idsOf keep skip = []
  | c, .node form marks ts, hq => by
    rw [idsOf_node]
    split
    case isTrue => rfl
    case isFalse hl =>
      rw [ts.idsOf_of_quiet left (form.isQuiet_arity hq (by simpa using mt (left c) hl)),
        form.nodeIds_of_quiet hq]
      simp

theorem Children.idsOf_of_quiet (left : ∀ c, c.isLeft = true → skip c = true) : {cs : List Category} → (ts : Children cs) →
    (∀ c ∈ cs, c.isQuiet = true) → ts.idsOf keep skip = []
  | _, .nil, _ => rfl
  | _, .cons t ts, hq => by
    rw [forall_mem_cons] at hq
    rw [Children.idsOf_cons, t.idsOf_of_quiet left hq.1, ts.idsOf_of_quiet left hq.2]
    rfl

end

end

/-! ### Forms that count as changed -/

/-- Forms that are recorded as changed: declarations of classes, interfaces, type aliases and
variables, the latter in loop headers as well, and functions. -/
def Form.isRecorded : (c : Category) → Form c → Bool
  | .stmt, .classDecl | .stmt, .interfaceDecl | .stmt, .aliasDecl | .stmt, .varDecl => true
  | .forInit, .decl => true
  | .func, _ => true
  | _, _ => false

/-- Forms of functions. -/
def Form.isFunc : (c : Category) → Form c → Bool
  | .func, _ => true
  | _, _ => false

theorem Form.isRecorded_of_func (c : Category) (form : Form c) (h : Form.isFunc c form = true) :
    Form.isRecorded c form = true := by
  cases c with
  | func => rfl
  | _ => cases h

/-- The numbers of all nodes that are recorded as changed, outside the categories `skip`. -/
def Tree.recorded (skip : Category → Bool) {c : Category} (t : Tree c) : List Nat :=
  t.idsOf Form.isRecorded skip

/-- The numbers of all nodes that a walk keeps count of. -/
def Tree.counted {c : Category} (t : Tree c) : List Nat :=
  t.idsOf (fun _ _ => true) Category.isLeft

end Reify
