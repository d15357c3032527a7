import Reify.Reflection.Overload

/-!
# Sequences and marks of trees

A sequence is its list of trees (`Tree.ofList_toList`), so what is known of each tree of a list is
known of the sequence.  A tree is *synthetic* if the program made all of it, and *original* if it
made none of it; a copy that has been detached is synthetic.
-/

namespace Reify

open List

/-! ### Sequences -/

namespace Tree

variable {c : Category}

/-- Puts a tree in front of a sequence. -/
def consMany (t : Tree c) : Many c → Many c
  | .node (c := .many _) n .none ts => .node (c := .many c) (n + 1) .none (.cons t ts)

theorem ofList_cons (t : Tree c) (ts : List (Tree c)) : ofList (t :: ts) = consMany t (ofList ts) :=
  rfl

theorem ofList_children {n} (ts : Children (List.replicate n c)) :
    ofList ts.toList = .node (c := .many c) n .none ts := by
  induction n with
  | zero =>
    cases ts
    rfl
  | succ n ih =>
    match ts with
    | .cons t ts => rw [Children.toList, ofList_cons, ih, consMany]

@[simp] theorem ofList_toList (t : Many c) : ofList t.toList = t := by
  match t with
  | .node (c := .many _) n .none ts => exact ofList_children ts

end Tree

/-- The results of a fold over a sequence. -/
theorem Results.toList_fold_ofList {X : Category → Type} {c} (step : Step X) (ts : List (Tree c)) :
    Results.toList ((Children.ofList ts).fold step) = ts.map (Tree.fold step) := by
  induction ts with
  | nil => rfl
  | cons t ts ih =>
    rw [Children.ofList, Children.fold, Results.toList, ih]
    rfl

/-! ### Marks -/

namespace Children

@[simp] theorem marks_nil : Children.nil.marks = [] := by rw [marks]

@[simp] theorem marks_cons {c cs} (t : Tree c) (ts : Children cs) :
    (Children.cons t ts).marks = t.marks ++ ts.marks := by rw [marks]

@[simp] theorem marks_ofList {c} (ts : List (Tree c)) :
    (ofList ts).marks = ts.flatMap Tree.marks := by
  induction ts with
  | nil => exact marks_nil
  | cons t ts ih =>
    rw [ofList, flatMap_cons, ← ih]
    exact marks_cons t (ofList ts)

end Children

namespace Tree

variable {c : Category}

@[simp] theorem marks_node (form : Form c) (marks : Marks form.width)
    (ts : Children form.arity) : (node form marks ts).marks = marks.toList ++ ts.marks := by
  rw [Tree.marks]

@[simp] theorem marks_ofList (ts : List (Tree c)) : (ofList ts).marks = ts.flatMap marks := by
  rw [ofList, marks_node, Children.marks_ofList]
  rfl

end Tree

/-! ### Trees made by the program -/

theorem StmtForm.width_pos (form : StmtForm) : 0 < StmtForm.width form := by
  cases form <;> exact Nat.succ_pos _

namespace Tree

variable {c : Category}

/-- Every node of the tree was made by the program. -/
def Synthetic (t : Tree c) : Prop := ∀ m ∈ t.marks, m.id = 0

/-- No node of the tree was made by the program. -/
def Original (t : Tree c) : Prop := ∀ m ∈ t.marks, m.id ≠ 0

instance (t : Tree c) : Decidable t.Synthetic := inferInstanceAs (Decidable (∀ m ∈ t.marks, _))

instance (t : Tree c) : Decidable t.Original := inferInstanceAs (Decidable (∀ m ∈ t.marks, _))

end Tree

namespace Children

variable {c : Category} {cs : List Category}

/-- Every node of the trees was made by the program. -/
def Synthetic (ts : Children cs) : Prop := ∀ m ∈ ts.marks, m.id = 0

/-- No node of the trees was made by the program. -/
def Original (ts : Children cs) : Prop := ∀ m ∈ ts.marks, m.id ≠ 0

@[simp] theorem synthetic_nil : Children.nil.Synthetic := by simp [Synthetic]

@[simp] theorem synthetic_cons {t : Tree c} {ts : Children cs} :
    (Children.cons t ts).Synthetic ↔ t.Synthetic ∧ ts.Synthetic := by
  simp only [Synthetic, Tree.Synthetic, marks_cons, forall_mem_append]

@[simp] theorem original_cons {t : Tree c} {ts : Children cs} :
    (Children.cons t ts).Original ↔ t.Original ∧ ts.Original := by
  simp only [Original, Tree.Original, marks_cons, forall_mem_append]

end Children

namespace Marks

/-- Every mark belongs to a node made by the program. -/
def Synthetic {n : Nat} (marks : Marks n) : Prop := ∀ m ∈ marks.toList, m.id = 0

/-- No mark belongs to a node made by the program. -/
def Original {n : Nat} (marks : Marks n) : Prop := ∀ m ∈ marks.toList, m.id ≠ 0

@[simp] theorem synthetic_none : Marks.none.Synthetic := by simp [Synthetic, toList]

@[simp] theorem synthetic_one {m} : (Marks.one m).Synthetic ↔ m.id = 0 := by
  simp [Synthetic, toList]

@[simp] theorem synthetic_two {s} : (Marks.two s).Synthetic ↔ s.slot.id = 0 ∧ s.form.id = 0 := by
  simp [Synthetic, toList]

theorem Synthetic.first_id {n} {marks : Marks n} (h : marks.Synthetic) : marks.first.id = 0 := by
  cases marks with
  | none => rfl
  | one m => exact synthetic_one.1 h
  | two s => exact (synthetic_two.1 h).1

theorem first_mem {n} (marks : Marks n) (hn : 0 < n) : marks.first ∈ marks.toList := by
  cases marks <;> simp_all [Marks.first, toList]

theorem Original.first {n} {marks : Marks n} (h : marks.Original) (hn : 0 < n) :
    marks.first.isSynthetic = false := by
  simpa [Mark.isSynthetic] using h _ (marks.first_mem hn)

end Marks

namespace Tree

variable {c : Category}

@[simp] theorem synthetic_node {form : Form c} {marks ts} :
    (node form marks ts).Synthetic ↔ marks.Synthetic ∧ ts.Synthetic := by
  simp only [Synthetic, Marks.Synthetic, Children.Synthetic, marks_node, forall_mem_append]

theorem original_node {form : Form c} {marks ts} :
    (node form marks ts).Original ↔ marks.Original ∧ ts.Original := by
  simp only [Original, Marks.Original, Children.Original, marks_node, forall_mem_append]

@[simp] theorem synthetic_ofList {ts : List (Tree c)} :
    (ofList ts).Synthetic ↔ ∀ t ∈ ts, t.Synthetic := by
  simp only [Synthetic, marks_ofList, mem_flatMap, forall_exists_index, and_imp]
  exact ⟨fun h t ht m hm => h m t ht hm, fun h m t ht hm => h t ht m hm⟩

theorem original_ofList {ts : List (Tree c)} :
    (ofList ts).Original ↔ ∀ t ∈ ts, t.Original := by
  simp only [Original, marks_ofList, mem_flatMap, forall_exists_index, and_imp]
  exact ⟨fun h t ht m hm => h m t ht hm, fun h m t ht hm => h t ht m hm⟩

/-- A tree made by the program is marked so. -/
theorem Synthetic.mark_id {t : Tree c} (h : t.Synthetic) : t.mark.id = 0 := by
  match t with
  | .node form marks ts => exact (synthetic_node.1 h).1.first_id

end Tree

/-! ### Detached copies -/

namespace Marks

theorem toList_visit {n} (f : Mark → Mark) (marks : Marks n) :
    (Id.run (marks.visit fun m => pure (f m))).toList = marks.toList.map f := by
  cases marks <;> rfl

end Marks

mutual

theorem Tree.marks_visit (f : Mark → Mark) : {c : Category} → (t : Tree c) →
    (Id.run (t.visit fun m => pure (f m))).marks = t.marks.map f
  | _, .node form marks ts => by
    have own := Marks.toList_visit f marks
    have parts := ts.marks_visit f
    rw [Tree.marks_node, map_append, ← own, ← parts, Tree.visit]
    exact Tree.marks_node _ _ _

theorem Children.marks_visit (f : Mark → Mark) : {cs : List Category} → (ts : Children cs) →
    (Id.run (ts.visit fun m => pure (f m))).marks = ts.marks.map f
  | _, .nil => by simp [Children.visit]
  | _, .cons t ts => by
    have head := t.marks_visit f
    have tail := ts.marks_visit f
    rw [Children.marks_cons, map_append, ← head, ← tail, Children.visit]
    exact Children.marks_cons _ _

end

@[simp] theorem Tree.synthetic_detach {c} (t : Tree c) : t.detach.Synthetic := by
  intro m hm
  rw [Tree.detach, Tree.marks_visit] at hm
  obtain ⟨_, _, rfl⟩ := mem_map.1 hm
  rfl

end Reify
