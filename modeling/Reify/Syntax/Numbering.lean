import Reify.Syntax.Tree

/-!
# Numbering the nodes of a tree

The nodes of a tree are visited in source order, a node before its parts.  Numbering gives them
consecutive numbers in that order; detaching gives all of them number 0, which marks a copy
as not being the tree it was copied from.
-/

namespace Reify

/-- Visits the marks of one form in order. -/
def Marks.visit {m : Type → Type} [Monad m] (f : Mark → m Mark) : {n : Nat} → Marks n → m (Marks n)
  | _, .none => return .none
  | _, .one a => return .one (← f a)
  | _, .two s => return .two ⟨← f s.slot, ← f s.form⟩

mutual

/-- Visits every mark of a tree, a node's before those of its parts. -/
def Tree.visit {m : Type → Type} [Monad m] (f : Mark → m Mark) :
    {c : Category} → Tree c → m (Tree c)
  | _, .node form marks children =>
    return .node form (← marks.visit f) (← children.visit f)

/-- Visits every mark of a sequence of trees. -/
def Children.visit {m : Type → Type} [Monad m] (f : Mark → m Mark) :
    {cs : List Category} → Children cs → m (Children cs)
  | _, .nil => return .nil
  | _, .cons t ts => return .cons (← t.visit f) (← ts.visit f)

end

/-- The marks of one form, in order. -/
def Marks.toList : {n : Nat} → Marks n → List Mark
  | _, .none => []
  | _, .one a => [a]
  | _, .two s => [s.slot, s.form]

mutual

/-- The marks of a tree, in the order of visits. -/
def Tree.marks : {c : Category} → Tree c → List Mark
  | _, .node _ marks children => marks.toList ++ children.marks

/-- The marks of a sequence of trees. -/
def Children.marks : {cs : List Category} → Children cs → List Mark
  | _, .nil => []
  | _, .cons t ts => t.marks ++ ts.marks

end

namespace Tree

variable {c : Category}

/-- How many nodes a tree has. -/
def size (t : Tree c) : Nat := t.marks.length

/-- The numbers of a tree's nodes, synthetic ones left out. -/
def ids (t : Tree c) : List Nat := (t.marks.map Mark.id).filter (· ≠ 0)

/-- The largest number in a tree, 0 if it has none. -/
def maxId (t : Tree c) : Nat := t.ids.foldl max 0

/-- Gives a mark the next number. -/
def numberMark (mark : Mark) : StateM Nat Mark := fun n => ({ mark with id := n }, n + 1)

/-- Numbers the nodes of a tree from `next` on; also the first number left. -/
def number (t : Tree c) (next : Nat) : Tree c × Nat := (t.visit numberMark).run next

/-- Numbers the nodes of a tree from 1 on. -/
def numbered (t : Tree c) : Tree c := (t.number 1).1

/-- Makes every node of a tree synthetic. -/
def detach (t : Tree c) : Tree c := Id.run (t.visit fun mark => pure { mark with id := 0 })

end Tree

end Reify
