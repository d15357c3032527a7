import Reify.Proofs.Reflection.Synthetic

/-!
# Growth

`Grows` relates a tree to the trees that come of it by adding code: statements, decorators and
class members put into sequences, an assertion put around an expression, a block put around a
single statement, and an expression body turned into a block that returns the expression.
Nothing is taken away and nothing moves.
-/

namespace Reify

open List

/-! ### Sequences with elements put in -/

/-- The second list is the first with elements that satisfy `p` put in. -/
inductive Padded {α : Type} (p : α → Prop) : List α → List α → Prop where
  | nil : Padded p [] []
  | keep {x xs ys} (h : Padded p xs ys) : Padded p (x :: xs) (x :: ys)
  | add {y xs ys} (hy : p y) (h : Padded p xs ys) : Padded p xs (y :: ys)

namespace Padded

variable {α β : Type} {p : α → Prop} {xs xs' ys ys' zs : List α}

theorem refl (xs : List α) : Padded p xs xs := by
  induction xs with
  | nil => exact .nil
  | cons x xs ih => exact .keep ih

theorem append (h : Padded p xs ys) (h' : Padded p xs' ys') :
    Padded p (xs ++ xs') (ys ++ ys') := by
  induction h with
  | nil => exact h'
  | keep _ ih => exact .keep ih
  | add hy _ ih => exact .add hy ih

theorem of_added (h : ∀ z ∈ zs, p z) : Padded p [] zs := by
  induction zs with
  | nil => exact .nil
  | cons z zs ih => exact .add (h z (by simp)) (ih fun z hz => h z (by simp [hz]))

/-- What a part of the second list comes from. -/
theorem split (h : Padded p xs (ys ++ ys')) :
    ∃ xs₁ xs₂, xs = xs₁ ++ xs₂ ∧ Padded p xs₁ ys ∧ Padded p xs₂ ys' := by
  induction ys generalizing xs with
  | nil => exact ⟨[], xs, rfl, .nil, h⟩
  | cons y ys ih =>
    cases h with
    | keep h =>
      obtain ⟨xs₁, xs₂, rfl, h₁, h₂⟩ := ih h
      exact ⟨y :: xs₁, xs₂, rfl, .keep h₁, h₂⟩
    | add hy h =>
      obtain ⟨xs₁, xs₂, rfl, h₁, h₂⟩ := ih h
      exact ⟨xs₁, xs₂, rfl, .add hy h₁, h₂⟩

/-- A function that leaves the added elements alone. -/
theorem map (f : α → α) (hf : ∀ y, p y → f y = y) (h : Padded p xs ys) :
    Padded p (xs.map f) (ys.map f) := by
  induction h with
  | nil => exact .nil
  | keep _ ih => exact .keep ih
  | add hy _ ih =>
    rw [map_cons, hf _ hy]
    exact .add hy ih

theorem mem (h : Padded p xs ys) {y} (hy : y ∈ ys) : y ∈ xs ∨ p y := by
  induction h with
  | nil => cases hy
  | keep _ ih =>
    rcases mem_cons.1 hy with rfl | hy
    · exact .inl (by simp)
    · exact (ih hy).imp_left (mem_cons_of_mem _)
  | add h _ ih =>
    rcases mem_cons.1 hy with rfl | hy
    · exact .inr h
    · exact ih hy

end Padded

/-! ### Trees with code added -/

/-- Forms of statements that hold no other statement and return nothing. -/
def StmtForm.isSimple : StmtForm → Bool
  | expr | importing | varDecl => true
  | _ => false

/-- Forms of statements that others may follow: those that declare named types. -/
def StmtForm.hasFollowers : StmtForm → Bool
  | interfaceDecl | aliasDecl => true
  | _ => false

/-- What is added to a sequence: simple statements, decorators and members of classes. -/
def Tree.IsAdded : {c : Category} → Tree c → Prop
  | .stmt, s => s.Synthetic ∧ StmtForm.isSimple s.form = true
  | .decorator, d => d.Synthetic
  | .classMember, m => m.Synthetic
  | _, _ => False

theorem Tree.IsAdded.synthetic {c} {t : Tree c} (h : t.IsAdded) : t.Synthetic := by
  cases c with
  | stmt => exact h.1
  | decorator | classMember => exact h
  | _ => exact h.elim

/-- Whether a category is one of sequences. -/
def Category.isMany : Category → Bool
  | .many _ => true
  | _ => false

/-- What grows: a tree, the parts of a tree or the trees of a sequence. -/
inductive Shape where
  | tree (c : Category)
  | parts (cs : List Category)
  | list (c : Category)

/-- The things of a shape. -/
abbrev Shape.Of : Shape → Type
  | tree c => Tree c
  | parts cs => Children cs
  | list c => List (Tree c)

/-- **Growth**: the second thing is the first with code added. -/
inductive Grows : (k : Shape) → k.Of → k.Of → Prop where
  | node {c} {form : Form c} {marks : Marks form.width} {ts ts' : Children form.arity}
      (hc : c.isMany = false) (parts : Grows (.parts form.arity) ts ts') :
      Grows (.tree c) (.node form marks ts) (.node form marks ts')
  | many {c} {ts us us' : List (Tree c)} (each : Grows (.list c) ts us)
      (padded : Padded Tree.IsAdded us us') :
      Grows (.tree (.many c)) (.ofList ts) (.ofList us')
  | checked {loc} {e e' r : Expr} (hr : r.Synthetic) (value : Grows (.tree .expr) e e') :
      Grows (.tree .expr) e (assertion loc r [e'])
  | wrapped {loc} {s s' : Stmt} {ss : List Stmt} (hs : StmtForm.hasFollowers s.form = true)
      (stmt : Grows (.tree .stmt) s s') (padded : Padded Tree.IsAdded [s'] ss) :
      Grows (.tree .stmt) s
        (Stmt.block (.synthetic loc) (Block.mk (.synthetic loc) (.ofList ss)))
  | returned {loc} {e e' : Expr} {ss : List Stmt} (value : Grows (.tree .expr) e e')
      (padded : Padded Tree.IsAdded [Synthetic.returnStmt loc e'] ss) :
      Grows (.tree .funcBody) (FuncBody.expr e) (FuncBody.block (.ofList ss))
  | partsNil : Grows (.parts []) .nil .nil
  | partsCons {c cs} {t t' : Tree c} {ts ts' : Children cs} (head : Grows (.tree c) t t')
      (tail : Grows (.parts cs) ts ts') :
      Grows (.parts (c :: cs)) (.cons t ts) (.cons t' ts')
  | listNil {c} : Grows (.list c) [] []
  | listCons {c} {t t' : Tree c} {ts ts' : List (Tree c)} (head : Grows (.tree c) t t')
      (tail : Grows (.list c) ts ts') :
      Grows (.list c) (t :: ts) (t' :: ts')

namespace Grows

variable {c : Category}

theorem toList {n} {ts ts' : Children (List.replicate n c)}
    (h : Grows (.parts (List.replicate n c)) ts ts') : Grows (.list c) ts.toList ts'.toList := by
  induction n with
  | zero => exact .listNil
  | succ n ih =>
    cases h with
    | partsCons head tail => exact .listCons head (ih tail)

/-- A tree grows if its parts do. -/
theorem of_parts {form marks ts ts'} (h : Grows (.parts form.arity) ts ts') :
    Grows (.tree c) (.node form marks ts) (.node form marks ts') := by
  cases c with
  | many c =>
    cases marks
    rw [← Tree.ofList_children ts, ← Tree.ofList_children ts']
    exact .many h.toList (.refl _)
  | _ => exact .node rfl h

mutual

theorem refl : {c : Category} → (t : Tree c) → Grows (.tree c) t t
  | _, .node _ _ ts => of_parts (reflParts ts)

theorem reflParts : {cs : List Category} → (ts : Children cs) → Grows (.parts cs) ts ts
  | _, .nil => .partsNil
  | _, .cons t ts => .partsCons (refl t) (reflParts ts)

end

/-! ### What a tree can have become -/

theorem maybe_inv {t t' : Maybe c} (h : Grows (.tree (.maybe c)) t t') :
    (t = .absent ∧ t' = .absent) ∨
      ∃ u u', t = .present u ∧ t' = .present u' ∧ Grows (.tree c) u u' := by
  cases h with
  | @node _ form marks ts ts' _ parts =>
    cases form with
    | false =>
      cases marks
      cases parts
      exact .inl ⟨rfl, rfl⟩
    | true =>
      cases marks
      match parts with
      | .partsCons h .partsNil =>
        exact .inr ⟨_, _, rfl, rfl, h⟩

theorem many_inv {t t' : Many c} (h : Grows (.tree (.many c)) t t') :
    ∃ us, Grows (.list c) t.toList us ∧ Padded Tree.IsAdded us t'.toList := by
  cases h with
  | node hc => cases hc
  | many each padded => exact ⟨_, by simpa using each, by simpa using padded⟩

/-- A statement that returns is not put into a block. -/
theorem returnStmt_inv {loc e} {s : Stmt} (h : Grows (.tree .stmt) (Synthetic.returnStmt loc e) s) :
    ∃ e', s = Synthetic.returnStmt loc e' ∧ Grows (.tree .expr) e e' := by
  cases h with
  | wrapped hs => cases hs
  | node _ parts =>
  match parts with
  | .partsCons value .partsNil =>
    rcases value.maybe_inv with ⟨absent, -⟩ | ⟨_, e', present, rfl, value⟩
    · cases absent
    · cases present
      exact ⟨e', rfl, value⟩

end Grows

end Reify
