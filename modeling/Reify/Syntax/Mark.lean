/-!
# Marks

What a syntax tree remembers about each of its nodes: the node's number within the tree and
the stretch of source text it stands for.  Number 0 belongs to the nodes that the program
itself adds.
-/

namespace Reify

/-- A stretch of source text, in bytes of UTF-8 from the start of the file. -/
structure Loc where
  start : Nat := 0
  stop : Nat := 0
deriving DecidableEq, Repr, Inhabited

/-- The number and the place of one node. -/
structure Mark where
  id : Nat := 0
  loc : Loc := {}
deriving DecidableEq, Repr, Inhabited

namespace Mark

/-- The mark of a node made by the program, placed where the node was derived from. -/
def synthetic (loc : Loc) : Mark := { id := 0, loc }

/-- Nodes made by the program carry number 0. -/
def isSynthetic (m : Mark) : Bool := m.id == 0

@[simp] theorem synthetic_id (loc : Loc) : (synthetic loc).id = 0 := rfl

@[simp] theorem isSynthetic_synthetic (loc : Loc) : (synthetic loc).isSynthetic = true := rfl

end Mark

/-- The two marks of a phrase: one for the position it stands in and one for the form that
stands there. -/
structure Site where
  slot : Mark := {}
  form : Mark := {}
deriving DecidableEq, Repr, Inhabited

/-- A phrase made by the program. -/
def Site.synthetic (loc : Loc) : Site := ⟨.synthetic loc, .synthetic loc⟩

/-- The place of the position a phrase stands in. -/
def Site.loc (s : Site) : Loc := s.slot.loc

end Reify
