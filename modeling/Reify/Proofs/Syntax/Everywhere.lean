import Reify.Proofs.Syntax.Renumber
import Reify.Proofs.Syntax.Subtrees

/-!
# What holds everywhere in a tree

`Tree.Everywhere P t` says that `P` holds of `t` and of every tree inside it.  `Tree.gather` lists
what is found at a tree and at the trees inside it, and may leave out whole categories; what holds
of all that is found is an instance of the first (`Tree.forall_gather`).
-/

namespace Reify

open List Tree

/-! ### Predicates -/

mutual

/-- The predicate holds of the tree and of all trees inside it. -/
def Tree.Everywhere (P : (c : Category) → Tree c → Prop) : {c : Category} → Tree c → Prop
  | c, .node form marks ts => P c (.node form marks ts) ∧ ts.Everywhere P

/-- The predicate holds of the trees and of all trees inside them. -/
def Children.Everywhere (P : (c : Category) → Tree c → Prop) : {cs : List Category} →
    Children cs → Prop
  | _, .nil => True
  | _, .cons t ts => t.Everywhere P ∧ ts.Everywhere P

end

variable {cs : List Category}

section

variable {P Q : (c : Category) → Tree c → Prop} {c : Category}

theorem Tree.everywhere_node {form marks ts} :
    (Tree.node form marks ts).Everywhere P ↔ P c (.node form marks ts) ∧ ts.Everywhere P := by
  rw [Tree.Everywhere]

@[simp] theorem Children.everywhere_nil : Children.nil.Everywhere P := by
  rw [Children.Everywhere]
  trivial

@[simp] theorem Children.everywhere_cons {t : Tree c} {ts : Children cs} :
    (Children.cons t ts).Everywhere P ↔ t.Everywhere P ∧ ts.Everywhere P := by
  rw [Children.Everywhere]

theorem Tree.Everywhere.root {t} (h : t.Everywhere P) : P c t := by
  match t, h with
  | .node _ _ _, h => exact (everywhere_node.1 h).1

theorem Tree.Everywhere.parts {form : Form c} {marks ts}
    (h : (Tree.node form marks ts).Everywhere P) : ts.Everywhere P :=
  (everywhere_node.1 h).2

theorem Children.everywhere_ofList {ts : List (Tree c)} :
    (Children.ofList ts).Everywhere P ↔ ∀ t ∈ ts, t.Everywhere P := by
  induction ts with
  | nil => simp [Children.ofList]
  | cons t ts ih => simp [Children.ofList, ih]

theorem Tree.everywhere_ofList {ts : List (Tree c)} :
    (Tree.ofList ts).Everywhere P ↔ P _ (Tree.ofList ts) ∧ ∀ t ∈ ts, t.Everywhere P := by
  rw [Tree.ofList, everywhere_node, Children.everywhere_ofList]

theorem Tree.Everywhere.toList {t : Many c} (h : t.Everywhere P) : ∀ u ∈ t.toList, u.Everywhere P := by
  rw [← ofList_toList t] at h
  exact (everywhere_ofList.1 h).2

theorem Tree.Everywhere.toOption {t : Maybe c} (h : t.Everywhere P) :
    ∀ u ∈ t.toOption, u.Everywhere P := by
  match t, h with
  | .absent, _ => exact nofun
  | .present u, h =>
    rintro _ ⟨⟩
    exact h.2.1

theorem Tree.Everywhere.toLists {t : Maybe (.many c)} (h : t.Everywhere P) :
    ∀ u ∈ t.toLists, u.Everywhere P := by
  match t, h with
  | .absent, _ => exact nofun
  | .present us, h => exact (h.toOption us rfl).toList

mutual

theorem Tree.everywhere_and : {c : Category} → {t : Tree c} →
    (t.Everywhere (fun c t => P c t ∧ Q c t) ↔ t.Everywhere P ∧ t.Everywhere Q)
  | _, .node _ _ ts => by
    rw [everywhere_node, everywhere_node, everywhere_node, ts.everywhere_and]
    exact and_and_and_comm

theorem Children.everywhere_and : {cs : List Category} → (ts : Children cs) →
    (ts.Everywhere (fun c t => P c t ∧ Q c t) ↔ ts.Everywhere P ∧ ts.Everywhere Q)
  | _, .nil => by simp
  | _, .cons t ts => by
    rw [Children.everywhere_cons, Children.everywhere_cons, Children.everywhere_cons,
      Tree.everywhere_and, ts.everywhere_and]
    exact and_and_and_comm

end

mutual

/-- What follows at a tree from holding everywhere below it holds everywhere, where one thing that
holds everywhere may be used. -/
theorem Tree.Everywhere.induction (step : ∀ {c : Category} (form : Form c) (marks : Marks form.width)
      (ts : Children form.arity), P c (.node form marks ts) → ts.Everywhere Q →
        Q c (.node form marks ts)) :
    {c : Category} → {t : Tree c} → t.Everywhere P → t.Everywhere Q
  | _, .node form marks ts, h => by
    have parts := h.parts.induction step
    exact everywhere_node.2 ⟨step form marks ts h.root parts, parts⟩

theorem Children.Everywhere.induction (step : ∀ {c : Category} (form : Form c)
      (marks : Marks form.width) (ts : Children form.arity), P c (.node form marks ts) →
        ts.Everywhere Q → Q c (.node form marks ts)) :
    {cs : List Category} → {ts : Children cs} → ts.Everywhere P → ts.Everywhere Q
  | _, .nil, _ => Children.everywhere_nil
  | _, .cons t ts, h => by
    rw [Children.everywhere_cons] at h ⊢
    exact ⟨h.1.induction step, h.2.induction step⟩

end

theorem Tree.Everywhere.mono (hp : ∀ c t, P c t → Q c t) {t : Tree c} (h : t.Everywhere P) :
    t.Everywhere Q :=
  h.induction fun _ _ _ own _ => hp _ _ own

mutual

/-- What holds everywhere in a tree holds everywhere in the trees inside it. -/
theorem Tree.Everywhere.subtree {skip : Category → Bool} {d : Category} {u : Tree d} :
    {c : Category} → {t : Tree c} → t.Everywhere P → u ∈ t.subtrees skip d → u.Everywhere P
  | c, .node form marks ts, h, hu => by
    rw [subtrees_node] at hu
    split at hu
    · cases hu
    rcases mem_append.1 hu with hu | hu
    · by_cases same : c = d
      · subst same
        rw [ofCategory_self, mem_singleton] at hu
        rwa [hu]
      · rw [ofCategory_of_ne same] at hu
        cases hu
    · exact h.parts.subtree hu

theorem Children.Everywhere.subtree {skip : Category → Bool} {d : Category} {u : Tree d} :
    {cs : List Category} → {ts : Children cs} → ts.Everywhere P → u ∈ ts.subtrees skip d →
      u.Everywhere P
  | _, .cons t ts, h, hu => by
    rw [Children.everywhere_cons] at h
    rcases mem_append.1 hu with hu | hu
    · exact h.1.subtree hu
    · exact h.2.subtree hu

end

mutual

theorem Tree.Everywhere.renumber {f : Nat → Nat}
    (hp : ∀ {c : Category} (t : Tree c), P c t → P c (t.renumber f)) : {c : Category} →
    {t : Tree c} → t.Everywhere P → (t.renumber f).Everywhere P
  | c, .node form marks ts, h => by
    have own := hp _ h.root
    rw [renumber_node] at own ⊢
    exact everywhere_node.2 ⟨own, h.parts.renumber hp⟩

theorem Children.Everywhere.renumber {f : Nat → Nat}
    (hp : ∀ {c : Category} (t : Tree c), P c t → P c (t.renumber f)) : {cs : List Category} →
    {ts : Children cs} → ts.Everywhere P → (ts.renumber f).Everywhere P
  | _, .nil, _ => by simp
  | _, .cons t ts, h => by
    rw [Children.everywhere_cons] at h
    rw [Children.renumber_cons, Children.everywhere_cons]
    exact ⟨h.1.renumber hp, h.2.renumber hp⟩

end

/-- What does not look at numbers holds of a copy. -/
theorem Tree.Everywhere.detach (hp : ∀ {c : Category} (t : Tree c), P c t → P c t.detach)
    {t : Tree c} (h : t.Everywhere P) : t.detach.Everywhere P := by
  rw [detach_eq]
  refine h.renumber fun u hu => ?_
  rw [← detach_eq]
  exact hp u hu

end

/-! ### Lists -/

section

variable {α : Type} (skip : Category → Bool) (own : (c : Category) → Tree c → List α)

/-- What `Tree.gather` does at a form. -/
def Form.gather {c : Category} (form : Form c) (marks : Marks form.width) (ts : Children form.arity)
    (rs : Results (fun _ => List α) form.arity) : List α :=
  if skip c then [] else own c (.node form marks ts) ++ rs.values.flatten

/-- What is found at a tree and at the trees inside it, outside the categories `skip`. -/
def Tree.gather {c : Category} (t : Tree c) : List α :=
  t.fold (X := fun _ => List α) (Form.gather skip own)

/-- What is found at some trees and at the trees inside them, outside the categories `skip`. -/
def Children.gather {cs : List Category} (ts : Children cs) : List α :=
  (ts.fold (X := fun _ => List α) (Form.gather skip own)).values.flatten

end

section

variable {α : Type} {skip : Category → Bool} {own : (c : Category) → Tree c → List α} {c : Category}

theorem Tree.gather_node {form marks ts} :
    (Tree.node form marks ts).gather skip own =
      if skip c then [] else own c (.node form marks ts) ++ ts.gather skip own := rfl

@[simp] theorem Children.gather_nil : Children.nil.gather skip own = [] := rfl

@[simp] theorem Children.gather_cons {t : Tree c} {ts : Children cs} :
    (Children.cons t ts).gather skip own = t.gather skip own ++ ts.gather skip own := rfl

theorem Children.gather_ofList (ts : List (Tree c)) :
    (Children.ofList ts).gather skip own = ts.flatMap (Tree.gather skip own) := by
  induction ts with
  | nil => rfl
  | cons t ts ih =>
    rw [flatMap_cons, ← ih]
    rfl

theorem Tree.gather_ofList (ts : List (Tree c)) :
    (Tree.ofList ts).gather skip own =
      if skip (.many c) then []
      else own _ (Tree.ofList ts) ++ ts.flatMap (Tree.gather skip own) := by
  rw [← Children.gather_ofList]
  rfl

mutual

theorem Tree.forall_gather {Q : α → Prop} : {c : Category} → {t : Tree c} →
    ((∀ x ∈ t.gather Category.none own, Q x) ↔ t.Everywhere fun c u => ∀ x ∈ own c u, Q x)
  | _, .node form marks ts => by
    rw [gather_node, everywhere_node, ← Children.forall_gather]
    exact forall_mem_append

theorem Children.forall_gather {Q : α → Prop} : {cs : List Category} → {ts : Children cs} →
    ((∀ x ∈ ts.gather Category.none own, Q x) ↔ ts.Everywhere fun c u => ∀ x ∈ own c u, Q x)
  | _, .nil => by simp
  | _, .cons t ts => by
    rw [Children.gather_cons, Children.everywhere_cons, ← Tree.forall_gather,
      ← Children.forall_gather]
    exact forall_mem_append

end

end

end Reify
