import Reify.Proofs.Reflection.Everywhere
import Reify.Proofs.Syntax.Occurrence

/-!
# Access to the type parameters of a class

Inside the members of a generic class, its type parameters are reached through the object, as
`this[C[lib.TypeParametersSymbol]].T`.  Such an expression is made where the scope says so and
nowhere else (`Scope.Quiet.suits`): any other in a reflection is a copy of one that stands in the
type, in a computed key or as a base class.
-/

namespace Reify

open List Synthetic

/-! ### Accesses -/

/-- A type parameter of a class, reached through an object of the class. -/
structure Access where
  library : String
  className : String
  param : String

namespace Access

variable (a : Access)

/-- Whether an expression is `library.TypeParametersSymbol`. -/
def isSymbol : Expr → Bool
  | Expr.member _ _ name object =>
    name == "TypeParametersSymbol" && object.form == ExprForm.ident a.library
  | _ => false

/-- Whether an expression is `className[library.TypeParametersSymbol]`. -/
def isKey : Expr → Bool
  | Expr.index _ _ object key => object.form == ExprForm.ident a.className && a.isSymbol key
  | _ => false

/-- Whether an expression is `this[className[library.TypeParametersSymbol]]`. -/
def isHolder : Expr → Bool
  | Expr.index _ _ object key => object.form == ExprForm.this && a.isKey key
  | _ => false

/-- Whether an expression is `this[className[library.TypeParametersSymbol]].param`. -/
def isAt : Expr → Bool
  | Expr.member _ _ name object => name == a.param && a.isHolder object
  | _ => false

variable (f : Nat → Nat) (e : Expr)

@[simp] theorem isSymbol_renumber : a.isSymbol (e.renumber f) = a.isSymbol e := by
  match e with
  | .node (c := .expr) form marks ts =>
    cases form with
    | member optional name =>
      match marks, ts with
      | .two _, .cons object .nil =>
        exact congrArg (_ && · == ExprForm.ident a.library) object.form_renumber
    | _ => rfl

@[simp] theorem isKey_renumber : a.isKey (e.renumber f) = a.isKey e := by
  match e with
  | .node (c := .expr) form marks ts =>
    cases form with
    | index =>
      match marks, ts with
      | .two _, .cons object (.cons key .nil) =>
        change ((object.renumber f).form == _ && a.isSymbol (key.renumber f)) = _
        rw [object.form_renumber, a.isSymbol_renumber]
        rfl
    | _ => rfl

@[simp] theorem isHolder_renumber : a.isHolder (e.renumber f) = a.isHolder e := by
  match e with
  | .node (c := .expr) form marks ts =>
    cases form with
    | index =>
      match marks, ts with
      | .two _, .cons object (.cons key .nil) =>
        change ((object.renumber f).form == _ && a.isKey (key.renumber f)) = _
        rw [object.form_renumber, a.isKey_renumber]
        rfl
    | _ => rfl

@[simp] theorem isAt_renumber : a.isAt (e.renumber f) = a.isAt e := by
  match e with
  | .node (c := .expr) form marks ts =>
    cases form with
    | member optional name =>
      match marks, ts with
      | .two _, .cons object .nil => exact congrArg (_ && ·) (a.isHolder_renumber f object)
    | _ => rfl

@[simp] theorem isAt_detach : a.isAt e.detach = a.isAt e := by rw [Tree.detach_eq, isAt_renumber]

end Access

/-- Each part of an access tells something about the parameter. -/
theorem Access.isAt_instance {a : Access} {loc library className name}
    (h : a.isAt (member loc (index loc (this loc)
      (index loc (ident loc className) (member loc
        (ident loc library) "TypeParametersSymbol"))) name) = true) :
    name = a.param ∧ className = a.className := by
  have member : (name == a.param && a.isHolder (index loc _ _)) = true := h
  rw [Bool.and_eq_true, beq_iff_eq] at member
  have key : (Tree.form (ident loc className) == ExprForm.ident a.className &&
      a.isSymbol _) = true := member.2
  rw [Bool.and_eq_true, beq_iff_eq] at key
  exact ⟨member.1, ExprForm.ident.inj key.1⟩

theorem Access.isHolder_of_not_index {a : Access} {e} (h : e.isIndex = false) :
    a.isHolder e = false := by
  match e, h with
  | .node (c := .expr) form marks ts, h =>
    cases form with
    | index =>
      match marks, ts, h with
      | .two _, .cons _ (.cons _ .nil), h => cases h
    | _ => rfl

/-! ### Renumbered expressions -/

section

variable (f : Nat → Nat)

end

/-! ### Harmless trees -/

/-- If the tree is an access, it is a copy of a known one. -/
def Access.Copied (a : Access) (known : List Expr) : (c : Category) → Tree c → Prop
  | .expr, e => a.isAt e = true → e.detach ∈ known
  | _, _ => True

/-- Every access in the tree is a copy of a known one. -/
abbrev Tree.Harmless (a : Access) (known : List Expr) {c : Category} (t : Tree c) : Prop :=
  t.Everywhere (a.Copied known)

/-- Every access in the trees is a copy of a known one. -/
abbrev Children.Harmless (a : Access) (known : List Expr) {cs : List Category} (ts : Children cs) :
    Prop :=
  ts.Everywhere (a.Copied known)

section

variable {a : Access} {known : List Expr}

theorem Access.copied_of_not {e} (h : a.isAt e = false) : a.Copied known .expr e :=
  fun here => nomatch h.symm.trans here

/-- An access is a member of something in brackets. -/
instance : Routine (a.Copied known) where
  made {c} t h := by
    match t, h with
    | .node form marks ts, h =>
      cases c with
      | expr =>
        cases form with
        | member => cases h
        | _ => exact Access.copied_of_not rfl
      | _ => trivial
  member loc object name h := by
    refine Access.copied_of_not ?_
    change (_ && a.isHolder object) = false
    rw [Access.isHolder_of_not_index h, Bool.and_false]
  noParams := trivial
  block _ _ _ _ := trivial
  detach {c} t h := by
    cases c with
    | expr =>
      intro here
      rw [Access.isAt_detach] at here
      rw [t.synthetic_detach.detach]
      exact h here
    | _ => trivial

theorem Tree.copied_iff {c t} :
    a.Copied known c t ↔ ∀ e ∈ t.ownExprs, a.isAt e = true → e.detach ∈ known := by
  cases c with
  | expr => exact forall_mem_singleton.symm
  | _ => exact iff_of_true trivial nofun

mutual

theorem Tree.harmless_iff : {c : Category} → {t : Tree c} →
    (t.Harmless a known ↔ ∀ e ∈ t.exprs, a.isAt e = true → e.detach ∈ known)
  | _, .node _ _ ts => by
    rw [Tree.exprs_node, forall_mem_append, ← Tree.copied_iff, ← Children.harmless_iff]
    exact Tree.everywhere_node

theorem Children.harmless_iff : {cs : List Category} → {ts : Children cs} →
    (ts.Harmless a known ↔ ∀ e ∈ ts.exprs, a.isAt e = true → e.detach ∈ known)
  | _, .nil => iff_of_true Children.everywhere_nil nofun
  | _, .cons t ts => by
    rw [Children.exprs_cons, forall_mem_append, ← Tree.harmless_iff, ← Children.harmless_iff]
    exact Children.everywhere_cons

end

end

/-! ### Where accesses are made -/

/-- In the scope, the type parameter is not reached through an object. -/
def Scope.Quiet (a : Access) (s : Scope) : Prop :=
  ∀ g ∈ s.generics, g.access = .ofInstance a.className → a.param ∉ g.names

variable {s : Scope}

theorem Scope.Quiet.withGenerics {a} (h : s.Quiet a) (names : List String) {access}
    (other : access = .ofInstance a.className → a.param ∉ names) :
    (s.withGenerics names access).Quiet a := by
  unfold Scope.withGenerics
  split
  · exact h
  · exact forall_mem_cons.2 ⟨other, h⟩

/-- **Where the scope does not say so, no access is made.** -/
theorem Scope.Quiet.suits {a} (quiet : s.Quiet a) (known : List Expr) :
    s.Suits (a.Copied known) := by
  intro bound loc name e h
  unfold Reflection.typeParam? at h
  split at h
  · obtain rfl := Option.some.inj h
    exact everywhere_ident
  · obtain ⟨access, found, rfl⟩ := Option.map_eq_some_iff.1 h
    obtain ⟨g, hg, rfl⟩ := Option.map_eq_some_iff.1 found
    have named := find?_some hg
    have quiet := quiet g (mem_of_find?_eq_some hg)
    cases same : g.access with
    | constant => exact everywhere_ident
    | ofConstructor => exact (everywhere_member rfl).2 everywhere_ident
    | erased => simp
    | ofInstance className =>
      have symbol : (member loc (ident loc s.options.library)
          "TypeParametersSymbol").Harmless a known := (everywhere_member rfl).2 everywhere_ident
      refine Tree.everywhere_node.2 ⟨fun here => ?_, by simp [symbol]⟩
      obtain ⟨rfl, rfl⟩ := Access.isAt_instance here
      exact (quiet same (by simpa using named)).elim

end Reify
