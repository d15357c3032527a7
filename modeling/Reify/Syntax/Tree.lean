import Reify.Syntax.Form
import Reify.Syntax.Mark

/-!
# Trees

Syntax trees are the terms over the signature of `Form`: a form, the marks of the nodes it
counts for, and one subtree for each category of its arity.  `Tree.fold` is the one recursion
on trees; what prints, numbers, encodes or walks a tree says only what happens at a form.

Sequences and optional trees are trees too.  `Tree.toList` and `Tree.ofList`, `Tree.toOption`
and `Tree.ofOption` are their views as lists and options.
-/

namespace Reify

/-- The marks of a tree that counts for that many nodes. -/
inductive Marks : Nat → Type where
  | none : Marks 0
  | one (mark : Mark) : Marks 1
  | two (site : Site) : Marks 2
deriving DecidableEq, Repr

/-- The first of the marks. -/
def Marks.first : {n : Nat} → Marks n → Mark
  | _, .none => {}
  | _, .one mark => mark
  | _, .two site => site.slot

mutual

/-- Syntax trees of a category. -/
inductive Tree : Category → Type where
  | node {c : Category} (form : Form c) (marks : Marks form.width)
      (children : Children form.arity) : Tree c

/-- Sequences of trees of the listed categories. -/
inductive Children : List Category → Type where
  | nil : Children []
  | cons {c : Category} {cs : List Category} (head : Tree c) (tail : Children cs) :
      Children (c :: cs)

end

/-- Sequences of trees of a category. -/
abbrev Many (c : Category) := Tree (.many c)

/-- Optional trees of a category. -/
abbrev Maybe (c : Category) := Tree (.maybe c)

/-! ### Recursion -/

/-- One result for each of the listed categories. -/
abbrev Results (X : Category → Type) : List Category → Type
  | [] => Unit
  | c :: cs => X c × Results X cs

/-- What a recursion on trees does at a form, given the subtrees and the results for them. -/
abbrev Step (X : Category → Type) : Type :=
  {c : Category} → (form : Form c) → Marks form.width → Children form.arity →
    Results X form.arity → X c

mutual

/-- Recursion on trees, from the leaves up. -/
def Tree.fold {X : Category → Type} (step : Step X) : {c : Category} → Tree c → X c
  | _, .node form marks children => step form marks children (children.fold step)

/-- Recursion on each tree of a sequence. -/
def Children.fold {X : Category → Type} (step : Step X) :
    {cs : List Category} → Children cs → Results X cs
  | _, .nil => ()
  | _, .cons t ts => (t.fold step, ts.fold step)

end

/-! ### Sequences -/

/-- The trees of a sequence of one category. -/
def Children.toList {c : Category} : {n : Nat} → Children (List.replicate n c) → List (Tree c)
  | 0, _ => []
  | _ + 1, .cons t ts => t :: ts.toList

/-- A list of trees as a sequence. -/
def Children.ofList {c : Category} : (ts : List (Tree c)) → Children (List.replicate ts.length c)
  | [] => .nil
  | t :: ts => .cons t (ofList ts)

/-- The results of a sequence of one category. -/
def Results.toList {X : Category → Type} {c : Category} :
    {n : Nat} → Results X (List.replicate n c) → List (X c)
  | 0, _ => []
  | _ + 1, (x, xs) => x :: toList xs

namespace Tree

/-- The trees of a sequence. -/
def toList {c : Category} : Tree (.many c) → List (Tree c)
  | .node (c := .many c) _ _ children => children.toList

/-- A list of trees as one tree. -/
def ofList {c : Category} (ts : List (Tree c)) : Tree (.many c) :=
  .node (c := .many c) ts.length .none (.ofList ts)

/-- An optional tree that is left out. -/
@[match_pattern] abbrev absent {c : Category} : Maybe c := .node (c := .maybe c) false .none .nil

/-- An optional tree that is there. -/
@[match_pattern] abbrev present {c : Category} (t : Tree c) : Maybe c :=
  .node (c := .maybe c) true .none (.cons t .nil)

/-- The tree, if it is present. -/
def toOption {c : Category} : Tree (.maybe c) → Option (Tree c)
  | .node (c := .maybe _) false _ _ => none
  | .node (c := .maybe _) true _ (.cons t .nil) => some t

/-- An optional tree as one tree. -/
def ofOption {c : Category} : Option (Tree c) → Tree (.maybe c)
  | none => absent
  | some t => present t

/-- The trees of an optional sequence, none if it is absent. -/
def toLists {c : Category} (t : Tree (.maybe (.many c))) : List (Tree c) :=
  (t.toOption.map toList).getD []

/-- The form of a tree. -/
def form {c : Category} : Tree c → Form c
  | .node form _ _ => form

/-- The first mark of a tree: its own or, of a phrase, that of its position. -/
def mark {c : Category} : Tree c → Mark
  | .node _ marks _ => marks.first

end Tree

@[simp] theorem Children.toList_ofList {c : Category} (ts : List (Tree c)) :
    (Children.ofList ts).toList = ts := by
  induction ts with
  | nil => rfl
  | cons t ts ih => simp [ofList, toList, ih]

@[simp] theorem Children.length_toList {c : Category} {n : Nat}
    (ts : Children (List.replicate n c)) : ts.toList.length = n := by
  induction n with
  | zero => rfl
  | succ n ih =>
    match ts with
    | .cons t ts => simp [toList, ih]

namespace Tree

@[simp] theorem toList_ofList {c : Category} (ts : List (Tree c)) : (ofList ts).toList = ts := by
  simp [ofList, toList]

@[simp] theorem toOption_ofOption {c : Category} (t : Option (Tree c)) :
    (ofOption t).toOption = t := by
  cases t <;> rfl

@[simp] theorem ofOption_toOption {c : Category} (t : Tree (.maybe c)) :
    ofOption t.toOption = t := by
  match t with
  | .node (c := .maybe _) false .none .nil => rfl
  | .node (c := .maybe _) true .none (.cons t .nil) => rfl

end Tree

instance {c : Category} : Coe (List (Tree c)) (Tree (.many c)) := ⟨Tree.ofList⟩

instance {c : Category} : Coe (Option (Tree c)) (Tree (.maybe c)) := ⟨Tree.ofOption⟩

end Reify
