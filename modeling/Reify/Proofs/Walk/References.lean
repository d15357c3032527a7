import Reify.Proofs.Walk.Answers

/-!
# Direct and deferred references

A reference to a named type touches the value of that name when it runs, unless the access is
deferred.  It is direct exactly if one of the scopes around has declared the name before
(`references_follow_scopes`); at the top level of a unit this can be told from the order of the
statements alone (`toplevel_reference_direct_iff`).
-/

namespace Reify

open List

/-! ### References on a visit -/

variable {v : Visit} {s : Stmt} {i : Nat} {stmts : List Stmt} {p : Point}

/-- A reference that is asked for on a settled visit is found in the code: direct if the point says
that its leftmost name has been declared, deferred otherwise. -/
theorem Visit.Settled.reference {options exprs} (h : v.Settled options exprs)
    (closed : ∀ e ∈ exprs, e.exprs ⊆ exprs) {q} (hq : q ∈ v.requests) {gs bound site name args}
    (asks : q.Asks ⟨gs, bound, TypeExpr.reference site name args⟩)
    (param : Reflection.isParam gs bound name = false) (array : Reflection.isArray name = false) :
    ∃ es, Scope.refCall { options } site.loc name (v.point.has name.leftmost) es ∈ exprs := by
  obtain ⟨s, describes, answered⟩ := h
  obtain ⟨e, he, answer⟩ := answered q hq
  obtain ⟨e', he', answer'⟩ := asks.occurs answer
  obtain ⟨es, rfl⟩ := Request.reference_reflects param array answer'
  refine ⟨es, closed e he ?_⟩
  rw [describes.wasDeclared] at he'
  have same : Scope.refCall s = Scope.refCall { options } := by
    obtain rfl := describes.options
    rfl
  rwa [same] at he'

/-- The names that a statement declares wherever it stands. -/
def Stmt.ownNames : Stmt → List String
  | Stmt.classDecl _ decl => (ClassDecl.name? decl).toList
  | Stmt.varDecl _ (VarDecl.mk _ _ ds) => ds.toList.flatMap Declarator.boundNames
  | Stmt.aliasDecl _ (AliasDecl.mk _ form _ _) => [form.name]
  | Stmt.enumDecl _ (EnumDecl.mk _ form _) => [form.name]
  | _ => []

section

variable {before after : List Stmt} {name : String} {m : Mark} {d : InterfaceDecl}

end

end Reify
