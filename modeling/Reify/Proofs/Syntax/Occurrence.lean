import Reify.Check.Class
import Reify.Proofs.Reflection.Synthetic

/-!
# Expressions in trees

`Tree.exprs` lists the expressions that occur in a tree, the tree itself among them if it is one.
What is put into a phrase of the program's own making occurs in it.
-/

namespace Reify

open List Tree Synthetic

/-- The tree itself, if it is an expression. -/
def Tree.ownExprs : {c : Category} → Tree c → List Expr
  | .expr, e => [e]
  | _, _ => []

/-- What `Tree.exprs` does at a form. -/
def Form.exprs {c : Category} (form : Form c) (marks : Marks form.width) (ts : Children form.arity)
    (rs : Results (fun _ => List Expr) form.arity) : List Expr :=
  (Tree.node form marks ts).ownExprs ++ rs.values.flatten

/-- The expressions that occur in a tree, in source order. -/
def Tree.exprs {c : Category} (t : Tree c) : List Expr := t.fold (X := fun _ => List Expr) Form.exprs

/-- The expressions that occur in trees, in source order. -/
def Children.exprs {cs : List Category} (ts : Children cs) : List Expr :=
  (ts.fold (X := fun _ => List Expr) Form.exprs).values.flatten

variable {cs : List Category} {ts : Children cs} {callee : Expr} {args : List Expr}
  {stmts : List Stmt}

section

variable {c : Category} {e e' : Expr}

theorem Tree.exprs_node (form : Form c) (marks : Marks form.width) (ts : Children form.arity) :
    (Tree.node form marks ts).exprs = (Tree.node form marks ts).ownExprs ++ ts.exprs := rfl

@[simp] theorem Children.exprs_cons (t : Tree c) (ts : Children cs) :
    (Children.cons t ts).exprs = t.exprs ++ ts.exprs := rfl

/-- What occurs in a part of a tree occurs in the tree. -/
theorem Tree.mem_exprs_of_parts {form : Form c} {marks ts} (h : e ∈ ts.exprs) :
    e ∈ (Tree.node form marks ts).exprs :=
  mem_append_right _ h

theorem Expr.mem_exprs_self (e : Expr) : e ∈ e.exprs := by
  match e with
  | .node (c := .expr) _ _ _ => exact mem_cons_self

theorem Children.exprs_ofList (ts : List (Tree c)) :
    (Children.ofList ts).exprs = ts.flatMap Tree.exprs := by
  induction ts with
  | nil => rfl
  | cons t ts ih =>
    rw [flatMap_cons, ← ih]
    rfl

@[simp] theorem Tree.exprs_ofList (ts : List (Tree c)) :
    (Tree.ofList ts).exprs = ts.flatMap Tree.exprs :=
  Children.exprs_ofList ts

theorem Tree.exprs_toList (t : Many c) : t.toList.flatMap Tree.exprs = t.exprs := by
  rw [← exprs_ofList, ofList_toList]

@[simp] theorem Tree.exprs_present (t : Tree c) : (Tree.present t).exprs = t.exprs := by
  change t.exprs ++ [] = _
  rw [append_nil]

theorem Children.mem_exprs_head {t : Tree c} (h : e ∈ t.exprs) : e ∈ (Children.cons t ts).exprs :=
  mem_append_left _ h

theorem Children.mem_exprs_tail {t : Tree c} (h : e ∈ ts.exprs) : e ∈ (Children.cons t ts).exprs :=
  mem_append_right _ h

theorem Tree.mem_exprs_ofList {ts} {t : Tree c} (ht : t ∈ ts) (h : e ∈ t.exprs) :
    e ∈ (Tree.ofList ts).exprs := by
  rw [exprs_ofList, mem_flatMap]
  exact ⟨t, ht, h⟩

theorem Tree.mem_exprs_present {t : Tree c} (h : e ∈ t.exprs) : e ∈ (Tree.present t).exprs :=
  mem_exprs_of_parts (Children.mem_exprs_head h)

/-- More occurs in trees if more occurs in one of them. -/
theorem Children.exprs_mono {t t' : Tree c} {ts' : Children cs} (head : t.exprs ⊆ t'.exprs)
    (tail : ts.exprs ⊆ ts'.exprs) : (Children.cons t ts).exprs ⊆ (Children.cons t' ts').exprs := by
  intro e he
  rcases mem_append.1 he with he | he
  · exact mem_append_left _ (head he)
  · exact mem_append_right _ (tail he)

/-- More occurs in a tree that is no expression if more occurs in its parts. -/
theorem Tree.exprs_mono {form : Form c} {marks ts ts'}
    (own : (Tree.node form marks ts).ownExprs = []) (h : ts.exprs ⊆ ts'.exprs) :
    (Tree.node form marks ts).exprs ⊆ (Tree.node form marks ts').exprs := by
  intro e he
  rw [exprs_node, own, nil_append] at he
  exact mem_exprs_of_parts (h he)

theorem Tree.exprs_ofList_mono {ts ts' : List (Tree c)}
    (h : ts.flatMap Tree.exprs ⊆ ts'.flatMap Tree.exprs) :
    (Tree.ofList ts).exprs ⊆ (Tree.ofList ts').exprs := by
  rwa [exprs_ofList, exprs_ofList]

mutual

/-- What occurs in an expression of a tree occurs in the tree. -/
theorem Tree.exprs_trans : {c : Category} → {t : Tree c} → e ∈ t.exprs → e' ∈ e.exprs → e' ∈ t.exprs
  | .expr, .node form marks ts, h, h' => by
    rcases mem_cons.1 h with rfl | h
    · exact h'
    · exact mem_exprs_of_parts (ts.exprs_trans h h')
  | c, .node form marks ts, h, h' => by
    rcases mem_append.1 h with h | h
    · cases c with
      | expr =>
        obtain rfl := mem_singleton.1 h
        exact h'
      | _ => cases h
    · exact mem_exprs_of_parts (ts.exprs_trans h h')

theorem Children.exprs_trans : {cs : List Category} → (ts : Children cs) → e ∈ ts.exprs →
    e' ∈ e.exprs → e' ∈ ts.exprs
  | _, .cons t ts, h, h' => by
    rw [Children.exprs_cons, mem_append] at h ⊢
    rcases h with h | h
    · exact .inl (t.exprs_trans h h')
    · exact .inr (ts.exprs_trans h h')

end

end

/-! ### Phrases -/

section

variable {e a : Expr} {loc : Loc} {name : String}

theorem mem_exprs_callee (h : e ∈ callee.exprs) : e ∈ (call loc callee args).exprs :=
  mem_exprs_of_parts (Children.mem_exprs_head h)

theorem mem_exprs_call (ha : a ∈ args) (h : e ∈ a.exprs) :
    e ∈ (call loc callee args).exprs := by
  have arg : e ∈ (arg a).exprs := mem_exprs_of_parts (Children.mem_exprs_head h)
  have args := mem_exprs_ofList (mem_map_of_mem ha) arg
  exact mem_exprs_of_parts (Children.mem_exprs_tail (Children.mem_exprs_head args))

theorem mem_exprs_array {elems} (ha : a ∈ elems) (h : e ∈ a.exprs) :
    e ∈ (array loc elems).exprs := by
  have elem : e ∈ (ArrayElem.single a).exprs := mem_exprs_of_parts (Children.mem_exprs_head h)
  have elems := mem_exprs_ofList (mem_map_of_mem ha) elem
  exact mem_exprs_of_parts (Children.mem_exprs_head elems)

theorem mem_exprs_object {entries} (ha : (name, a) ∈ entries) (h : e ∈ a.exprs) :
    e ∈ (object loc entries).exprs := by
  have value : e ∈ (MemberVal.property (.present a)).exprs :=
    mem_exprs_of_parts (Children.mem_exprs_head (mem_exprs_present h))
  have entry : e ∈ (ObjMember.valued (.synthetic loc) (directKey loc name)
      (.property (.present a))).exprs :=
    mem_exprs_of_parts (Children.mem_exprs_tail (Children.mem_exprs_head value))
  refine mem_exprs_of_parts (Children.mem_exprs_head (mem_exprs_ofList ?_ entry))
  exact mem_map.2 ⟨(name, a), ha, rfl⟩

theorem mem_exprs_block {s} (hs : s ∈ stmts) (h : e ∈ s.exprs) :
    e ∈ (FuncBody.block (.ofList stmts)).exprs :=
  mem_exprs_of_parts (Children.mem_exprs_head (mem_exprs_ofList hs h))

/-- What occurs in the body of a function occurs in the function. -/
theorem Func.mem_exprs_body {mark form typeParams params result body} (h : e ∈ body.exprs) :
    e ∈ (Func.mk mark form typeParams params result body).exprs :=
  mem_exprs_of_parts (Children.mem_exprs_tail (Children.mem_exprs_tail
    (Children.mem_exprs_tail (Children.mem_exprs_head h))))

theorem mem_exprs_arrow {params body} (h : e ∈ body.exprs) :
    e ∈ (arrow loc params body).exprs :=
  mem_exprs_of_parts (Children.mem_exprs_head (Func.mem_exprs_body (mem_exprs_present h)))

theorem mem_exprs_function {s} (hs : s ∈ stmts) (h : e ∈ s.exprs) :
    e ∈ (function loc stmts).exprs :=
  mem_exprs_of_parts (Children.mem_exprs_tail (Children.mem_exprs_head
    (Func.mem_exprs_body (mem_exprs_present (mem_exprs_block hs h)))))

theorem mem_exprs_decorator (h : e ∈ a.exprs) : e ∈ (decorator loc a).exprs :=
  mem_exprs_of_parts (Children.mem_exprs_head h)

theorem mem_exprs_exprStmt (h : e ∈ a.exprs) : e ∈ (exprStmt loc a).exprs :=
  mem_exprs_of_parts (Children.mem_exprs_head h)

theorem mem_exprs_returnStmt (h : e ∈ a.exprs) : e ∈ (returnStmt loc a).exprs :=
  mem_exprs_of_parts (Children.mem_exprs_head (mem_exprs_present h))

theorem mem_exprs_constStmt {exported} (h : e ∈ a.exprs) :
    e ∈ (constStmt loc name a exported).exprs := by
  have declarator : e ∈ (Declarator.mk (.synthetic loc) (binding loc name) .absent
      (.present a)).exprs :=
    mem_exprs_of_parts (Children.mem_exprs_tail (Children.mem_exprs_tail
      (Children.mem_exprs_head (mem_exprs_present h))))
  have declarators := mem_exprs_ofList (mem_singleton.2 rfl) declarator
  exact mem_exprs_of_parts (Children.mem_exprs_head
    (mem_exprs_of_parts (Children.mem_exprs_head declarators)))

variable {s : Scope}

theorem mem_exprs_libraryCall (ha : a ∈ args) (h : e ∈ a.exprs) :
    e ∈ (s.libraryCall loc name args).exprs :=
  mem_exprs_call ha h

theorem mem_exprs_nullable (h : e ∈ a.exprs) : e ∈ (s.nullable loc a).exprs := by
  rw [Scope.nullable]
  split
  · exact mem_exprs_libraryCall (by simp) h
  · exact h

theorem mem_exprs_primitive (ha : a ∈ args) (h : e ∈ a.exprs) :
    e ∈ (s.primitive loc name args).exprs :=
  mem_exprs_nullable (mem_exprs_libraryCall ha h)

theorem mem_exprs_assertion (h : e ∈ a.exprs) : e ∈ (assertion loc a args).exprs :=
  mem_exprs_callee (mem_exprs_of_parts (Children.mem_exprs_head h))

/-- What is checked occurs in the check. -/
theorem mem_exprs_checked {r} (h : e ∈ a.exprs) : e ∈ (assertion loc r [a]).exprs :=
  mem_exprs_call (by simp) h

theorem mem_exprs_parameter {rest optional} (h : e ∈ a.exprs) :
    e ∈ (Reflection.parameter s loc name a rest optional).exprs := by
  rw [Reflection.parameter]
  cases rest <;> cases optional <;> exact mem_exprs_libraryCall (by simp) h

theorem mem_exprs_deferred (h : e ∈ a.exprs) : e ∈ (deferredReflection loc a).exprs := by
  rw [deferredReflection]
  split
  · exact mem_exprs_function mem_cons_self (mem_exprs_returnStmt h)
  · exact h

end

end Reify
