import Reify.Proofs.Syntax.Everywhere

/-!
# Numbered trees

Numbering a tree from `n` on gives its nodes the numbers from `n` on, in the order of visits, in
which a node comes before its parts.  Nothing else changes, and the numbers after the largest one
are new.  Detaching the tree takes the numbers away again (`Tree.number_consecutive`).
-/

namespace Reify

open List Tree

variable {c : Category}

/-- The numbers go up along the tree. -/
def Tree.Ascends (t : Tree c) : Prop := t.marks.Pairwise fun m k => m.id < k.id

/-- The node has a smaller number than those inside it; of the two marks of a phrase, its position
comes first. -/
def Tree.Leads : (c : Category) → Tree c → Prop
  | _, .node _ marks ts =>
    marks.toList.Pairwise (fun m k => m.id < k.id) ∧ ∀ m ∈ marks.toList, ∀ k ∈ ts.marks, m.id < k.id

mutual

theorem Tree.Ascends.leads : {c : Category} → {t : Tree c} → t.Ascends →
    t.Everywhere Tree.Leads
  | _, .node form marks ts, h => by
    rw [Ascends, marks_node] at h
    obtain ⟨own, parts, before⟩ := pairwise_append.1 h
    exact everywhere_node.2 ⟨⟨own, before⟩, Children.leads parts⟩

theorem Children.leads : {cs : List Category} → {ts : Children cs} →
    ts.marks.Pairwise (fun m k => m.id < k.id) → ts.Everywhere Tree.Leads
  | _, .nil, _ => Children.everywhere_nil
  | _, .cons t ts, h => by
    rw [Children.marks_cons] at h
    obtain ⟨first, rest, -⟩ := pairwise_append.1 h
    exact Children.everywhere_cons.2 ⟨Tree.Ascends.leads first, Children.leads rest⟩

end

theorem Tree.bare_number (t : Tree c) (n : Nat) : (t.number n).1.bare = t.bare := by
  have undone := congrArg bare (t.renumber_number (n := n) (f := fun _ => 0) fun _ _ => rfl)
  rwa [bare_renumber, detach_eq, bare_renumber] at undone

theorem Tree.size_detach (t : Tree c) : t.detach.size = t.size := by
  rw [detach_eq, size, marks_renumber, length_map, size]

theorem Tree.ids_detach (t : Tree c) : t.detach.ids = [] := by
  rw [ids, filter_eq_nil_iff]
  intro i hi
  obtain ⟨m, hm, rfl⟩ := mem_map.1 hi
  simpa using t.synthetic_detach m hm

theorem Tree.ids_number (t : Tree c) {n : Nat} (hn : 1 ≤ n) :
    (t.number n).1.ids = List.range' n t.size := by
  rw [ids, (t.renumbered_number n).ids, filter_eq_self.2 fun i hi => ?_, size]
  have := (mem_range'_1.1 hi).1
  simp only [ne_eq, decide_eq_true_eq]
  omega

theorem Tree.ascends_number (t : Tree c) (n : Nat) : (t.number n).1.Ascends := by
  have ids : ((t.number n).1.marks.map Mark.id).Pairwise (· < ·) :=
    (t.renumbered_number n).ids ▸ pairwise_lt_range'
  exact pairwise_map.1 ids

/-- A number that is in use is at most the largest one. -/
theorem Tree.le_maxId_of_mem_ids {t : Tree c} {i : Nat} (h : i ∈ t.ids) : i ≤ t.maxId :=
  (le_foldl_max t.ids 0).2 i h

/-- **Numbering.**  A tree that is numbered from `n` on has the numbers from `n` on, as many as it has
nodes and each node's before those inside it; trees numbered after its largest number get other
numbers; and detaching takes all numbers away.  Both leave the tree as it is otherwise. -/
theorem Tree.number_consecutive (t : Tree c) {n : Nat} (hn : 1 ≤ n) :
    (t.number n).1.bare = t.bare ∧ (t.number n).1.ids = List.range' n t.size ∧
      (t.number n).1.Everywhere Tree.Leads ∧ (t.number n).2 = n + t.size ∧
      (∀ {d : Category} (u : Tree d),
        ∀ i ∈ (u.number ((t.number n).1.maxId + 1)).1.ids, i ∉ (t.number n).1.ids) ∧
      (t.number n).1.detach.bare = t.bare ∧ (t.number n).1.detach.ids = [] ∧
      (t.number n).1.detach.size = t.size := by
  have size : (t.number n).1.size = t.size := by
    have := congrArg List.length (t.renumbered_number n).ids
    rwa [length_map, length_range'] at this
  refine ⟨t.bare_number n, t.ids_number hn, (t.ascends_number n).leads,
    (t.renumbered_number n).next, fun u i hi used => ?_, ?_, ids_detach _, ?_⟩
  · rw [u.ids_number (Nat.le_add_left 1 _)] at hi
    have new := (mem_range'_1.1 hi).1
    have old := le_maxId_of_mem_ids used
    omega
  · rw [detach_eq, bare_renumber, bare_number]
  · rw [size_detach, size]

/-- `x[y]`, numbered from 5 on. -/
theorem Tree.number_consecutive_index :
    let t : Expr := .index {} false (.ident {} "x") (.ident {} "y")
    t.size = 6 ∧ 1 ≤ 5 ∧ (t.number 5).1.ids = [5, 6, 7, 8, 9, 10] := by
  intro t
  refine ⟨by decide, by decide, ?_⟩
  exact (t.number_consecutive (n := 5) (by decide)).2.1

end Reify
