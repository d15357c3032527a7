import Reify.Proofs.Reflection.Related
import Reify.Proofs.Syntax.Growth

/-!
# Wrapped reflections

With the options that ask for it, a call `lib.k(…)` in a reflection is wrapped: `lib.n(lib.k(…))`.
`Wraps` relates a tree to a copy with other numbers, where either may have such wrappers that the
other has not.  Taking all wrappers away leaves the same tree (`Wraps.unwrap_eq`), and nothing that
later steps look at tells the two apart: neither the form of a tree that is no expression, nor
places, nor whether `this` or a call of `super` is there.
-/

namespace Reify

open Synthetic

/-! ### Taking wrappers away -/

/-- Whether an expression is `lib.n`. -/
def Expr.isWrapper (lib : String) : Expr → Bool
  | Expr.member _ false name (Expr.ident _ owner) => name == "n" && owner == lib
  | _ => false

/-- What is wrapped, if an expression is a call `lib.n(x)`. -/
def Expr.wrapped? (lib : String) : Expr → Option Expr
  | Expr.call _ false callee args =>
    match args.toList with
    | [Arg.mk _ false value] => if Expr.isWrapper lib callee then some value else none
    | _ => none
  | _ => none

/-- A tree without the wrapper at its root. -/
def Tree.peel (lib : String) : {c : Category} → Tree c → Tree c
  | .expr, e => (Expr.wrapped? lib e).getD e
  | _, t => t

mutual

/-- A tree with each call `lib.n(x)` replaced by `x`. -/
def Tree.unwrap (lib : String) : {c : Category} → Tree c → Tree c
  | _, .node form marks ts => Tree.peel lib (.node form marks (ts.unwrap lib))

/-- Trees with each call `lib.n(x)` replaced by `x`. -/
def Children.unwrap (lib : String) : {cs : List Category} → Children cs → Children cs
  | _, .nil => .nil
  | _, .cons t ts => .cons (t.unwrap lib) (ts.unwrap lib)

end

/-! ### Calls of `super` -/

/-- Whether an expression is `super`. -/
def Expr.isSuper : Expr → Bool
  | Expr.super _ => true
  | _ => false

/-- Whether an expression is a call of `super`. -/
def Expr.callsSuper : Expr → Bool
  | Expr.call _ _ callee _ => Expr.isSuper callee
  | _ => false

theorem Stmt.isSuperCall_expr (site : Site) (e : Expr) :
    Stmt.isSuperCall (Stmt.expr site e) = Expr.callsSuper e := by
  match e with
  | .node (c := .expr) form marks ts =>
    cases form with
    | call optional =>
      match marks, ts with
      | .two _, .cons (.node (c := .expr) form (.two _) parts) (.cons _ .nil) =>
        cases form with
        | super =>
          cases parts
          rfl
        | _ => rfl
    | _ => rfl

/-! ### The relation -/

/-- `lib.name(args…)` -/
def Synthetic.libraryCall (lib : String) (loc : Loc) (name : String) (args : List Expr) : Expr :=
  methodCall loc (ident loc lib) name args

/-- **Wrapping**: the second is the first, renumbered by `num`, but for wrappers around calls of the
library, which the first may have where `left` holds and the second where `right` does. -/
inductive Wraps (num : Nat → Nat) (lib : String) (left right : Prop) :
    (k : Shape) → k.Of → k.Of → Prop where
  | node {c : Category} {form : Form c} {marks : Marks form.width} {ts ts' : Children form.arity}
      (parts : Wraps num lib left right (.parts form.arity) ts ts') :
      Wraps num lib left right (.tree c) (.node form marks ts) (.node form (marks.renumber num) ts')
  | nil : Wraps num lib left right (.parts []) .nil .nil
  | cons {c : Category} {cs : List Category} {t t' : Tree c} {ts ts' : Children cs}
      (head : Wraps num lib left right (.tree c) t t')
      (tail : Wraps num lib left right (.parts cs) ts ts') :
      Wraps num lib left right (.parts (c :: cs)) (.cons t ts) (.cons t' ts')
  | first {loc : Loc} {name : String} {args : List Expr} {e : Expr} (on : left)
      (inner : Wraps num lib left right (.tree .expr) (Synthetic.libraryCall lib loc name args) e) :
      Wraps num lib left right (.tree .expr)
        (Synthetic.libraryCall lib loc "n" [Synthetic.libraryCall lib loc name args]) e
  | second {loc : Loc} {name : String} {args : List Expr} {e : Expr} (on : right)
      (inner : Wraps num lib left right (.tree .expr) e (Synthetic.libraryCall lib loc name args)) :
      Wraps num lib left right (.tree .expr) e
        (Synthetic.libraryCall lib loc "n" [Synthetic.libraryCall lib loc name args])

section

variable {num : Nat → Nat} {lib : String} {left right : Prop}

theorem Tree.unwrap_wrapper (loc : Loc) (e : Expr) :
    (libraryCall lib loc "n" [e]).unwrap lib = e.unwrap lib := by
  -- the parts of the call are no calls themselves, but for what it wraps
  have parts : (libraryCall lib loc "n" [e]).unwrap lib =
      Tree.peel lib (callWith loc (member loc (ident loc lib) "n")
        [Arg.mk (.synthetic e.loc) false (e.unwrap lib)]) := rfl
  rw [parts]
  change (if ("n" == "n" && lib == lib) = true then some (e.unwrap lib) else none).getD _ = _
  rw [if_pos (by simp)]
  rfl

/-- Whether `this` occurs in any of the trees. -/
def Children.mentionsThis {cs : List Category} (ts : Children cs) : Bool :=
  (ts.fold (X := fun _ => Bool) fun f _ _ rs => f.isThis || rs.values.any id).values.any id

theorem mentionsThis_wrapper (loc : Loc) (e : Expr) :
    (libraryCall lib loc "n" [e]).mentionsThis = e.mentionsThis := by
  change (false || ((false || [false].any id) || ((false || [false || [e.mentionsThis].any id].any id) || false))) = _
  simp

variable {k : Shape} {x' x : k.Of} {c : Category} {t' t : Tree c}

namespace Wraps

mutual

theorem image : {c : Category} → (t : Tree c) → Wraps num lib left right (.tree c) t (t.renumber num)
  | _, .node form marks ts => by
    rw [Tree.renumber_node]
    exact .node (image_parts ts)

theorem image_parts : {cs : List Category} → (ts : Children cs) →
    Wraps num lib left right (.parts cs) ts (ts.renumber num)
  | _, .nil => by
    rw [Children.renumber_nil]
    exact .nil
  | _, .cons t ts => by
    rw [Children.renumber_cons]
    exact .cons (image t) (image_parts ts)

end

/-- The same without wrappers. -/
def Unwrapped (lib : String) : (k : Shape) → k.Of → k.Of → Prop
  | .tree _, t, t' => t.unwrap lib = t'.unwrap lib
  | .parts _, ts, ts' => ts.unwrap lib = ts'.unwrap lib
  | .list _, _, _ => True

theorem unwrapped (h : Wraps id lib left right k x x') : Unwrapped lib k x x' := by
  induction h with
  | node _ ih =>
    rw [Marks.renumber_same]
    exact congrArg (fun ts => Tree.peel lib (.node _ _ ts)) ih
  | nil => rfl
  | cons _ _ head tail => exact congrArg₂ Children.cons head tail
  | first _ _ ih => exact (Tree.unwrap_wrapper _ _).trans ih
  | second _ _ ih => exact Eq.trans ih (Tree.unwrap_wrapper _ _).symm

/-- **Without their wrappers**, related trees of the same numbers are equal. -/
theorem unwrap_eq (h : Wraps id lib left right (.tree c) t t') :
    t.unwrap lib = t'.unwrap lib := h.unwrapped

/-- Renumbered things. -/
def Renumbered (num : Nat → Nat) : (k : Shape) → k.Of → k.Of → Prop
  | .tree _, t, t' => t' = t.renumber num
  | .parts _, ts, ts' => ts' = ts.renumber num
  | .list _, _, _ => True

theorem renumbered (h : Wraps num lib left right k x x') (hl : ¬left) (hr : ¬right) :
    Renumbered num k x x' := by
  induction h with
  | node _ ih => exact (congrArg (Tree.node _ _) ih).trans (Tree.renumber_node _ _ _).symm
  | nil => exact Children.renumber_nil.symm
  | cons _ _ head tail =>
    exact (congrArg₂ Children.cons head tail).trans (Children.renumber_cons _ _).symm
  | first on _ _ => exact absurd on hl
  | second on _ _ => exact absurd on hr

/-! ### What wrappers do not change -/

/-- Agreement in what `f` says of expressions. -/
def Same {α : Type} (f : Expr → α) : (k : Shape) → k.Of → k.Of → Prop
  | .tree .expr, e, e' => f e = f e'
  | _, _, _ => True

/-- What is the same for expressions of one form with related parts, and does not change with a
wrapper, is the same for related expressions. -/
theorem same {α : Type} {f : Expr → α}
    (node : ∀ {form : ExprForm} {marks : Marks 2} {ts ts' : Children form.arity},
      Wraps num lib left right (.parts form.arity) ts ts' →
      f (.node (c := .expr) form marks ts) = f (.node (c := .expr) form (marks.renumber num) ts'))
    (wrapper : ∀ loc name args, f (libraryCall lib loc "n"
      [libraryCall lib loc name args]) = f (libraryCall lib loc name args))
    (h : Wraps num lib left right k x x') : Same f k x x' := by
  induction h with
  | @node c form marks ts ts' parts _ =>
    cases c with
    | expr => exact node parts
    | _ => trivial
  | nil | cons => trivial
  | first _ _ ih => exact (wrapper _ _ _).trans ih
  | second _ _ ih => exact Eq.trans ih (wrapper _ _ _).symm

section

variable {e e' : Expr} (h : Wraps num lib left right (.tree .expr) e e')

include h

theorem loc_eq : e.loc = e'.loc := by
  refine same (f := Expr.loc) ?_ (fun _ _ _ => rfl) h
  intro form marks ts ts' _
  match marks with
  | .two _ => rfl

/-- Whether an expression is `super`. -/
theorem isSuper_eq : Expr.isSuper e = Expr.isSuper e' := by
  refine same (f := Expr.isSuper) ?_ (fun _ _ _ => rfl) h
  intro form marks ts ts' _
  cases form with
  | super =>
    match marks, ts, ts' with
    | .two _, .nil, .nil => rfl
  | _ => rfl

theorem callsSuper_eq : Expr.callsSuper e = Expr.callsSuper e' := by
  refine same (f := Expr.callsSuper) ?_ (fun _ _ _ => rfl) h
  intro form marks ts ts' parts
  cases form with
  | call =>
    match marks, parts with
    | .two _, .cons callee (.cons _ .nil) => exact callee.isSuper_eq
  | _ => rfl

omit h in
theorem isSuperCall_eq {s s' : Stmt} (h : Wraps num lib left right (.tree .stmt) s s') :
    Stmt.isSuperCall s = Stmt.isSuperCall s' := by
  cases h with
  | @node _ form marks ts ts' parts =>
    cases form with
    | expr =>
      match marks, parts with
      | .two _, .cons value .nil =>
        exact ((Stmt.isSuperCall_expr _ _).trans value.callsSuper_eq).trans
          (Stmt.isSuperCall_expr _ _).symm
    | _ => rfl

end

/-- Agreement in whether `this` occurs. -/
def SameThis : (k : Shape) → k.Of → k.Of → Prop
  | .tree _, t, t' => t.mentionsThis = t'.mentionsThis
  | .parts _, ts, ts' => ts.mentionsThis = ts'.mentionsThis
  | .list _, _, _ => True

theorem sameThis (h : Wraps num lib left right k x x') : SameThis k x x' := by
  induction h with
  | @node _ form _ _ _ _ ih => exact congrArg (form.isThis || ·) ih
  | nil => rfl
  | cons _ _ head tail => exact congrArg₂ (· || ·) head tail
  | first _ _ ih => exact (mentionsThis_wrapper _ _).trans ih
  | second _ _ ih => exact Eq.trans ih (mentionsThis_wrapper _ _).symm

theorem mentionsThis_eq (h : Wraps num lib left right (.tree c) t t') :
    t.mentionsThis = t'.mentionsThis := h.sameThis

/-! ### Lists and options -/

theorem toList {c} {ts ts' : Many c} (h : Wraps num lib left right (.tree (.many c)) ts ts') :
    List.Forall₂ (Wraps num lib left right (.tree c)) ts.toList ts'.toList := by
  cases h with
  | @node _ n marks us us' parts =>
    change List.Forall₂ _ us.toList us'.toList
    clear marks
    induction n with
    | zero => exact .nil
    | succ n ih =>
      cases parts with
      | cons head tail => exact .cons head (ih tail)

theorem toOption {t t' : Maybe c} (h : Wraps num lib left right (.tree (.maybe c)) t t') :
    Option.Rel (Wraps num lib left right (.tree c)) t.toOption t'.toOption := by
  cases h with
  | @node _ there _ _ _ parts =>
    cases there with
    | false => exact .none
    | true =>
      cases parts with
      | cons head tail =>
        cases tail with
        | nil => exact .some head

theorem ofRelated {cs} {ts ts' : Children cs}
    (h : ts.Related (fun c => Wraps num lib left right (.tree c)) ts') :
    Wraps num lib left right (.parts cs) ts ts' := by
  induction h with
  | nil => exact .nil
  | cons head _ ih => exact .cons head ih

end Wraps

end

/-! ### Options -/

/-- Options that differ in what they say about null alone. -/
structure Options.Twins (o o' : Options) : Prop where
  libraryNamespace : o.libraryNamespace = o'.libraryNamespace
  libraryAlias : o.libraryAlias = o'.libraryAlias
  libraryModule : o.libraryModule = o'.libraryModule
  moduleAliasing : o.moduleAliasing = o'.moduleAliasing

/-- A way to renumber nodes that keeps them apart from each other and from what the program makes. -/
structure Renumbering where
  map : Nat → Nat
  zero : map 0 = 0
  injective : Function.Injective map

/-- Two runs that are compared: how the nodes of the second are numbered, and the options of both,
which may differ in what they say about null. -/
structure Sides extends Renumbering where
  left : Options
  right : Options
  twins : left.Twins right

/-- Things that are made alike on both sides.  Only one of the two may have wrappers that the other
has not. -/
abbrev Twinned (d : Sides) (k : Shape) (x x' : k.Of) : Prop :=
  Wraps d.map d.left.library (d.left.wrapsNullable = true ∧ d.right.wrapsNullable = false)
    (d.left.wrapsNullable = false ∧ d.right.wrapsNullable = true) k x x'

/-- Trees that are made alike on both sides. -/
abbrev Twin (d : Sides) (c : Category) (t t' : Tree c) : Prop := Twinned d (.tree c) t t'

/-- A scope with other options. -/
def Scope.withOptions (s : Scope) (options : Options) : Scope := { s with options }

section

variable {o o' : Options} (h : o.Twins o')

include h

theorem Options.Twins.library_eq : o.library = o'.library := by
  rw [Options.library, Options.library, h.libraryNamespace, h.libraryAlias]

theorem Options.Twins.localName_eq (name : String) : o.localName name = o'.localName name := by
  rw [Options.localName, Options.localName, h.libraryNamespace]

end

section

variable {d : Sides}

variable {c : Category} {t : Tree c}

/-- What the program makes stays as it is. -/
theorem Wraps.made (h : t.Synthetic) : Twin d c t t := by
  have image : Twin d c t (t.renumber d.map) := Wraps.image t
  rwa [h.renumber d.zero] at image

/-- With the same wrappers, the second tree is the first one renumbered. -/
theorem Wraps.eq_renumber (same : d.right = d.left) {t'} (h : Twin d c t t') :
    t' = t.renumber d.map := by
  refine h.renumbered ?_ ?_ <;> simp [same]

theorem Marks.Near.eq_renumber {n} {m m' : Marks n} (h : m.Near Eq m') : m' = m.renumber d.map := by
  cases h with
  | none => rfl
  | mark place | site place => simp [place, Marks.renumber, Mark.renumber, Site.synthetic,
      Mark.synthetic, d.zero]

variable {s : Scope} (hs : s.options = d.left)

include hs

theorem Scope.congruent_twin : s.Congruent (s.withOptions d.right) Eq (Twin d) where
  library := hs ▸ d.twins.library_eq
  localName := hs ▸ d.twins.localName_eq
  declared := rfl
  generics := rfl
  node marks parts := by
    rw [marks.eq_renumber]
    exact .node (.ofRelated parts)
  loc := Wraps.loc_eq

/-- **A scope corresponds to itself with other options** up to wrappers. -/
theorem Scope.corresponds_twin : s.Corresponds (s.withOptions d.right) Eq (Twin d) where
  toCongruent := s.congruent_twin hs
  primitive {loc loc'} place name args args' each := by
    have inner := (s.congruent_twin hs).libraryCall place name each
    subst place
    have made (name : String) (args : List Expr) :
        s.libraryCall loc name args = Synthetic.libraryCall d.left.library loc name args ∧
        (s.withOptions d.right).libraryCall loc name args =
          Synthetic.libraryCall d.left.library loc name args := by
      refine ⟨congrArg (fun o => Synthetic.libraryCall (Options.library o) loc name args) hs, ?_⟩
      rw [d.twins.library_eq]
      rfl
    rw [Scope.primitive, Scope.primitive, Scope.nullable, Scope.nullable]
    by_cases left : s.options.wrapsNullable = true <;>
      by_cases right : (s.withOptions d.right).options.wrapsNullable = true
    · rw [if_pos left, if_pos right]
      exact (s.congruent_twin hs).libraryCall rfl "n" (.cons inner .nil)
    · rw [if_pos left, if_neg right, (made _ _).1, (made _ _).1]
      rw [(made _ _).1] at inner
      exact .first ⟨hs ▸ left, eq_false_of_ne_true right⟩ inner
    · rw [if_neg left, if_pos right, (made _ _).2, (made _ _).2]
      rw [(made _ _).2] at inner
      exact .second ⟨hs ▸ eq_false_of_ne_true left, right⟩ inner
    · rw [if_neg left, if_neg right]
      exact inner

end

end Reify
