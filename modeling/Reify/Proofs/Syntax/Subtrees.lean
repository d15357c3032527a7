import Mathlib.Data.List.Nodup
import Reify.Proofs.Syntax.Nodes

/-!
# Subtrees

`Tree.subtrees` lists the trees of one category inside a tree, in source order, and may leave out
whole categories.  The statement lists of a tree are `Tree.lists`, its functions `Tree.funcs`.
Where all marks have distinct numbers, a subtree is known by its own (`Tree.eq_of_mark_id`).
-/

namespace Reify

open List Tree

/-- Sequences whose trees are related one by one. -/
inductive Children.Related (R : (c : Category) → Tree c → Tree c → Prop) :
    {cs : List Category} → Children cs → Children cs → Prop where
  | nil : Children.Related R .nil .nil
  | cons {c : Category} {cs : List Category} {t t' : Tree c} {ts ts' : Children cs}
      (head : R c t t') (tail : Children.Related R ts ts') :
      Children.Related R (.cons t ts) (.cons t' ts')

/-- The tree itself, if it is of the category `d`. -/
def Tree.ofCategory (d c : Category) (t : Tree c) : List (Tree d) :=
  if h : c = d then [h ▸ t] else []

section

variable (skip : Category → Bool) (d : Category)

/-- What `Tree.subtrees` does at a form. -/
def Form.subtrees {c : Category} (form : Form c) (marks : Marks form.width)
    (ts : Children form.arity) (rs : Results (fun _ => List (Tree d)) form.arity) : List (Tree d) :=
  if skip c then [] else Tree.ofCategory d c (.node form marks ts) ++ rs.values.flatten

/-- The trees of the category `d` in a tree, outside the categories `skip`. -/
def Tree.subtrees {c : Category} (t : Tree c) : List (Tree d) :=
  t.fold (X := fun _ => List (Tree d)) (Form.subtrees skip d)

/-- The trees of the category `d` in some trees, outside the categories `skip`. -/
def Children.subtrees {cs : List Category} (ts : Children cs) : List (Tree d) :=
  (ts.fold (X := fun _ => List (Tree d)) (Form.subtrees skip d)).values.flatten

end

/-- No category is left out. -/
def Category.none (_ : Category) : Bool := false

/-- The statement lists in a tree. -/
def Tree.lists {c : Category} (t : Tree c) : List (List Stmt) :=
  (t.subtrees Category.none (.many .stmt)).map Tree.toList

/-- The functions in a tree. -/
def Tree.funcs {c : Category} (t : Tree c) : List Func := t.subtrees Category.none .func

/-- The types in a tree. -/
def Tree.types {c : Category} (t : Tree c) : List TypeExpr := t.subtrees Category.none .type

section

variable {skip : Category → Bool} {c d : Category} {u : Tree d}

@[simp] theorem Tree.ofCategory_self (t : Tree d) : Tree.ofCategory d d t = [t] := by
  simp [Tree.ofCategory]

theorem Tree.ofCategory_of_ne (h : c ≠ d) (t : Tree c) : Tree.ofCategory d c t = [] := by
  simp [Tree.ofCategory, h]

theorem Tree.subtrees_node (form : Form c) (marks : Marks form.width) (ts : Children form.arity) :
    (Tree.node form marks ts).subtrees skip d =
      if skip c then [] else Tree.ofCategory d c (.node form marks ts) ++ ts.subtrees skip d := rfl

variable {cs : List Category} {ts : Children cs}

@[simp] theorem Children.subtrees_cons (t : Tree c) (ts : Children cs) :
    (Children.cons t ts).subtrees skip d = t.subtrees skip d ++ ts.subtrees skip d := rfl

theorem Children.subtrees_ofList (ts : List (Tree c)) :
    (Children.ofList ts).subtrees skip d = ts.flatMap (Tree.subtrees skip d) := by
  induction ts with
  | nil => rfl
  | cons t ts ih =>
    rw [flatMap_cons, ← ih]
    rfl

theorem Tree.subtrees_ofList (ts : List (Tree c)) :
    (Tree.ofList ts).subtrees skip d =
      if skip (.many c) then []
      else Tree.ofCategory d _ (Tree.ofList ts) ++ ts.flatMap (Tree.subtrees skip d) := by
  rw [← Children.subtrees_ofList]
  rfl

theorem Tree.subtrees_many (hc : skip (.many c) = false) (hd : .many c ≠ d) (t : Many c) :
    t.subtrees skip d = t.toList.flatMap (Tree.subtrees skip d) := by
  rw [← ofList_toList t, subtrees_ofList, hc, ofCategory_of_ne hd,
    toList_ofList]
  rfl

theorem Tree.mem_subtrees_self (h : skip d = false) (t : Tree d) : t ∈ t.subtrees skip d := by
  match t with
  | .node form marks ts =>
    rw [subtrees_node, h, ofCategory_self]
    exact mem_cons_self

/-- What is inside a part of a tree is inside the tree. -/
theorem Tree.mem_subtrees_of_parts {form : Form c} {marks ts} (hc : skip c = false)
    (h : u ∈ ts.subtrees skip d) : u ∈ (Tree.node form marks ts).subtrees skip d := by
  rw [subtrees_node, hc]
  exact mem_append_right _ h

theorem Children.mem_subtrees_head {t : Tree c} (h : u ∈ t.subtrees skip d) :
    u ∈ (Children.cons t ts).subtrees skip d :=
  mem_append_left _ h

theorem Children.mem_subtrees_tail {t : Tree c} (h : u ∈ ts.subtrees skip d) :
    u ∈ (Children.cons t ts).subtrees skip d :=
  mem_append_right _ h

theorem Tree.mem_subtrees_present {t : Tree c} (hc : skip (.maybe c) = false)
    (h : u ∈ t.subtrees skip d) : u ∈ (Tree.present t).subtrees skip d :=
  mem_subtrees_of_parts hc (Children.mem_subtrees_head h)

theorem Tree.mem_subtrees_ofList {ts} {t : Tree c} (hc : skip (.many c) = false) (ht : t ∈ ts)
    (h : u ∈ t.subtrees skip d) : u ∈ (Tree.ofList ts).subtrees skip d := by
  rw [subtrees_ofList, hc]
  exact mem_append_right _ (mem_flatMap.2 ⟨t, ht, h⟩)

theorem Tree.subtrees_toList (hc : skip (.many c) = false) (t : Many c) :
    t.toList.flatMap (Tree.subtrees skip d) ⊆ t.subtrees skip d := by
  intro u hu
  obtain ⟨v, hv, hu⟩ := mem_flatMap.1 hu
  rw [← ofList_toList t]
  exact mem_subtrees_ofList hc hv hu

theorem Tree.subtrees_of_mem_toLists (hc : skip (.maybe (.many c)) = false)
    (hm : skip (.many c) = false) {ts : Maybe (.many c)} {t} (h : t ∈ ts.toLists) :
    t.subtrees skip d ⊆ ts.subtrees skip d := by
  match ts, h with
  | .present us, h =>
    intro u hu
    exact mem_subtrees_present hc (subtrees_toList hm us (mem_flatMap.2 ⟨t, h, hu⟩))

end

section

variable {keep : (c : Category) → Form c → Bool} {skip : Category → Bool}

mutual

/-- Functions have their numbers listed. -/
theorem Tree.mark_id_mem_idsOf (hk : ∀ form, keep .func form = true) {f : Func} :
    {c : Category} → (t : Tree c) → f ∈ t.subtrees skip .func → f.mark.id ∈ t.idsOf keep skip
  | c, .node form marks ts, hf => by
    rw [subtrees_node] at hf
    rw [idsOf_node]
    split at hf
    · cases hf
    case isFalse entered =>
      rw [if_neg entered]
      rcases mem_append.1 hf with hf | hf
      · by_cases same : c = .func
        · subst same
          rw [ofCategory_self, mem_singleton] at hf
          rw [hf, if_pos (hk form)]
          exact mem_cons_self
        · rw [ofCategory_of_ne same] at hf
          cases hf
      · exact mem_append_right _ (Children.mark_id_mem_idsOf hk ts hf)

theorem Children.mark_id_mem_idsOf (hk : ∀ form, keep .func form = true) {f : Func} :
    {cs : List Category} → (ts : Children cs) → f ∈ ts.subtrees skip .func →
      f.mark.id ∈ ts.idsOf keep skip
  | _, .cons t ts, hf => by
    rw [Children.idsOf_cons]
    rcases mem_append.1 hf with hf | hf
    · exact mem_append_left _ (Tree.mark_id_mem_idsOf hk t hf)
    · exact mem_append_right _ (Children.mark_id_mem_idsOf hk ts hf)

end

end

/-! ### Trees are known by their marks -/

/-- What `Tree.nodes` does at a form. -/
def Form.nodes {c : Category} (form : Form c) (marks : Marks form.width) (ts : Children form.arity)
    (rs : Results (fun _ => List (Σ c, Tree c)) form.arity) : List (Σ c, Tree c) :=
  (if form.width = 0 then [] else [⟨c, .node form marks ts⟩]) ++ rs.values.flatten

/-- The trees in a tree that have a mark of their own. -/
def Tree.nodes {c : Category} (t : Tree c) : List (Σ c, Tree c) :=
  t.fold (X := fun _ => List (Σ c, Tree c)) Form.nodes

/-- The trees in some trees that have a mark of their own. -/
def Children.nodes {cs : List Category} (ts : Children cs) : List (Σ c, Tree c) :=
  (ts.fold (X := fun _ => List (Σ c, Tree c)) Form.nodes).values.flatten

theorem Tree.nodes_node {c} (form : Form c) (marks : Marks form.width) (ts : Children form.arity) :
    (Tree.node form marks ts).nodes =
      (if form.width = 0 then [] else [⟨c, .node form marks ts⟩]) ++ ts.nodes := rfl

mutual

theorem Tree.nodes_sublist : {c : Category} → (t : Tree c) →
    (t.nodes.map fun n => n.2.mark.id).Sublist (t.marks.map Mark.id)
  | c, .node form marks ts => by
    rw [nodes_node, marks_node, map_append, map_append]
    refine Sublist.append ?_ ts.nodes_sublist
    split
    · exact nil_sublist _
    case isFalse some =>
      refine singleton_sublist.2 (mem_map_of_mem ?_)
      exact marks.first_mem (Nat.pos_of_ne_zero some)

theorem Children.nodes_sublist : {cs : List Category} → (ts : Children cs) →
    (ts.nodes.map fun n => n.2.mark.id).Sublist (ts.marks.map Mark.id)
  | _, .nil => nil_sublist _
  | _, .cons t ts => by
    rw [Children.marks_cons, map_append]
    change Sublist (List.map _ (t.nodes ++ ts.nodes)) _
    rw [map_append]
    exact t.nodes_sublist.append ts.nodes_sublist

end

mutual

theorem Tree.mem_nodes {skip : Category → Bool} {d : Category} (hd : ∀ form : Form d, form.width ≠ 0)
    {u : Tree d} : {c : Category} → (t : Tree c) → u ∈ t.subtrees skip d → ⟨d, u⟩ ∈ t.nodes
  | c, .node form marks ts, hu => by
    rw [subtrees_node] at hu
    rw [nodes_node]
    split at hu
    · cases hu
    rcases mem_append.1 hu with hu | hu
    · by_cases same : c = d
      · subst same
        rw [ofCategory_self, mem_singleton] at hu
        rw [if_neg (hd form), hu]
        exact mem_cons_self
      · rw [ofCategory_of_ne same] at hu
        cases hu
    · exact mem_append_right _ (ts.mem_nodes hd hu)

theorem Children.mem_nodes {skip : Category → Bool} {d : Category}
    (hd : ∀ form : Form d, form.width ≠ 0) {u : Tree d} : {cs : List Category} →
    (ts : Children cs) → u ∈ ts.subtrees skip d → ⟨d, u⟩ ∈ ts.nodes
  | _, .cons t ts, hu => by
    rcases mem_append.1 hu with hu | hu
    · exact mem_append_left _ (Tree.mem_nodes hd t hu)
    · exact mem_append_right _ (ts.mem_nodes hd hu)

end

/-- Subtrees with the same number are one and the same. -/
theorem Tree.eq_of_mark_id {c} {t : Tree c} (distinct : (t.marks.map Mark.id).Nodup) {m n}
    (hm : m ∈ t.nodes) (hn : n ∈ t.nodes) (same : m.2.mark.id = n.2.mark.id) : m = n :=
  inj_on_of_nodup_map (distinct.sublist t.nodes_sublist) hm hn same

end Reify
