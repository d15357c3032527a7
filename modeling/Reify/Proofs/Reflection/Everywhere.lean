import Reify.Proofs.Reflection.Built

/-!
# What holds everywhere in a reflection

`Routine P` says that `P` holds of the phrases that reflections are made of and of copies of what it
holds of.  Then `P` holds everywhere in the reflection of a type if it holds everywhere in the type
and in the expressions for the type parameters in reach (`Scope.reflect_everywhere`).
-/

namespace Reify

open List Synthetic

/-! ### Phrases -/

variable {object value e : Expr} {args : List Expr} {stmts : List Stmt}

section

variable {P : (c : Category) → Tree c → Prop} [Routine P] {s : Scope} {loc : Loc} {name : String}

@[simp] theorem everywhere_ident : (ident loc name).Everywhere P := by
  simp [ident]

@[simp] theorem everywhere_str : (str loc name).Everywhere P := by simp [str]

@[simp] theorem everywhere_this : (this loc).Everywhere P := by simp [this]

theorem everywhere_member (h : object.isIndex = false) :
    (member loc object name).Everywhere P ↔ object.Everywhere P :=
  Tree.everywhere_node.trans ((and_iff_right (Routine.member loc object name h)).trans (by simp))

@[simp] theorem everywhere_index {key} :
    (index loc object key).Everywhere P ↔ object.Everywhere P ∧ key.Everywhere P := by
  simp [index]

@[simp] theorem everywhere_arg : (arg value).Everywhere P ↔ value.Everywhere P := by
  simp [arg]

@[simp] theorem everywhere_callWith {callee args} :
    (callWith loc callee args).Everywhere P ↔
      callee.Everywhere P ∧ ∀ x ∈ args, x.Everywhere P := by
  simp [callWith]

theorem everywhere_methodCall (h : object.isIndex = false) :
    (methodCall loc object name args).Everywhere P ↔
      object.Everywhere P ∧ ∀ x ∈ args, x.Everywhere P := by
  simp [methodCall, call, everywhere_member h]

@[simp] theorem everywhere_assign {left right} :
    (assign loc left right).Everywhere P ↔ left.Everywhere P ∧ right.Everywhere P := by
  simp [assign]

@[simp] theorem everywhere_array {elems} :
    (array loc elems).Everywhere P ↔ ∀ e ∈ elems, e.Everywhere P := by
  simp [array]

theorem everywhere_object {entries} :
    (Synthetic.object loc entries).Everywhere P ↔ ∀ e ∈ entries, e.2.Everywhere P := by
  rw [Synthetic.object, Tree.everywhere_of_routine rfl, Children.everywhere_cons,
    Tree.everywhere_list (c := .objMember) (by decide), forall_mem_map]
  simp [directKey]

theorem everywhere_block {params : List TypeParam} (hp : P _ (Tree.ofList params))
    (names : stmts.flatMap Tree.bindings = params.map TypeParam.name) :
    (FuncBody.block (.ofList stmts)).Everywhere P ↔ ∀ s ∈ stmts, s.Everywhere P :=
  Tree.everywhere_node.trans ((and_iff_right (Routine.block params stmts hp names)).trans (by simp))

/-- A body that binds nothing. -/
theorem everywhere_blank (blank : stmts.flatMap Tree.bindings = []) :
    (FuncBody.block (.ofList stmts)).Everywhere P ↔ ∀ s ∈ stmts, s.Everywhere P :=
  everywhere_block Routine.noParams blank

@[simp] theorem everywhere_arrow {params body} :
    (arrow loc params body).Everywhere P ↔ body.Everywhere P := by
  simp [arrow, func, param, binding]

theorem everywhere_function (blank : stmts.flatMap Tree.bindings = []) :
    (function loc stmts).Everywhere P ↔ ∀ s ∈ stmts, s.Everywhere P := by
  simp [function, func, everywhere_blank blank]

@[simp] theorem everywhere_exprStmt :
    (exprStmt loc value).Everywhere P ↔ value.Everywhere P := by
  simp [exprStmt]

@[simp] theorem everywhere_returnStmt :
    (returnStmt loc value).Everywhere P ↔ value.Everywhere P := by
  simp [returnStmt]

@[simp] theorem everywhere_constStmt {exported} :
    (constStmt loc name value exported).Everywhere P ↔ value.Everywhere P := by
  simp [constStmt, binding]

theorem everywhere_constructor {params} (blank : stmts.flatMap Tree.bindings = []) :
    (constructor loc params stmts).Everywhere P ↔
      (∀ p ∈ params, p.Everywhere P) ∧ ∀ s ∈ stmts, s.Everywhere P := by
  simp [constructor, func, directKey, everywhere_blank blank]

@[simp] theorem everywhere_libraryCall :
    (s.libraryCall loc name args).Everywhere P ↔ ∀ x ∈ args, x.Everywhere P := by
  rw [Scope.libraryCall, everywhere_methodCall rfl, and_iff_right everywhere_ident]

theorem everywhere_assertion (h : e.isIndex = false) :
    (assertion loc e args).Everywhere P ↔ e.Everywhere P ∧ ∀ x ∈ args, x.Everywhere P :=
  everywhere_methodCall h

@[simp] theorem EntityName.isIndex_toExpr (n : EntityName) : (n.toExpr loc).isIndex = false := by
  cases n <;> rfl

@[simp] theorem EntityName.everywhere_toExpr (n : EntityName) : (n.toExpr loc).Everywhere P := by
  induction n with
  | ident name => exact everywhere_ident
  | qualified left right ih => exact (everywhere_member left.isIndex_toExpr).2 ih

theorem everywhere_paramConst {factory : String} : {p : TypeParam} → {args : List Expr} →
    (∀ e ∈ args, e.Everywhere P) → (Reflection.paramConst factory p args).Everywhere P
  | TypeParam.mk _ _ _ _, _, h => by
    rw [Reflection.paramConst, everywhere_constStmt, everywhere_methodCall rfl]
    exact ⟨everywhere_ident, forall_mem_cons.2 ⟨everywhere_str, h⟩⟩

end

/-! ### Reflections -/

/-- The predicate holds everywhere in the expressions for the type parameters in reach. -/
def Scope.Suits (P : (c : Category) → Tree c → Prop) (s : Scope) : Prop :=
  ∀ bound loc name e, Reflection.typeParam? s bound loc name = some e → e.Everywhere P

section

variable {P : (c : Category) → Tree c → Prop} [Routine P] {s : Scope} (suits : s.Suits P)

include suits

theorem Reflection.Built.everywhere {bound} (h : Built s P bound e) : e.Everywhere P := by
  induction h with
  | param _ h => exact suits _ _ _ _ h
  | @name _ _ _ n | @query _ _ _ n => exact n.everywhere_toExpr
  | @deferred _ _ _ n => simpa [Synthetic.thunk] using n.everywhere_toExpr
  | literal => simp
  | this => exact everywhere_this
  | copy h => exact h.copy
  | call _ ih => exact everywhere_libraryCall.2 ih
  | array _ ih => exact everywhere_array.2 ih
  | @factory _ loc name args value params list length _ _ bounds result =>
    have names : (List.zipWith (paramConst name) params args ++
        [returnStmt loc value]).flatMap Tree.bindings = params.map TypeParam.name := by
      rw [flatMap_append, bindings_paramConst length, flatMap_singleton,
        bindings_returnStmt, append_nil]
    rw [everywhere_arrow, everywhere_block list.root names, forall_mem_append]
    refine ⟨forall_paramConst fun p as mem => ?_, by simpa using result⟩
    obtain ⟨i, here⟩ := mem_iff_getElem?.1 mem
    exact everywhere_paramConst (bounds i as here)

/-- **What holds everywhere in a type holds everywhere in its reflection.** -/
theorem Scope.reflect_everywhere {t} (ht : t.Everywhere P) (h : s.reflect t = .ok e) :
    e.Everywhere P :=
  (s.reflect_built ht h).built.everywhere suits

end

end Reify
