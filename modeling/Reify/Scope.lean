import Reify.Options

/-!
# Scopes

What is known about names at a point of the program: which values have been declared before it,
and how the type parameters around it are reached from generated code.
-/

namespace Reify

/-- A stack that is never empty. -/
structure Stack (α : Type) where
  top : α
  below : List α := []
deriving DecidableEq, Repr, Inhabited

namespace Stack

variable {α : Type}

/-- Puts an element on top. -/
def push (s : Stack α) (x : α) : Stack α := ⟨x, s.top :: s.below⟩

/-- Takes the top away; the last element stays. -/
def pop (s : Stack α) : Stack α :=
  match s.below with
  | [] => s
  | x :: xs => ⟨x, xs⟩

/-- Changes the top. -/
def modify (s : Stack α) (f : α → α) : Stack α := { s with top := f s.top }

/-- The elements, the top first. -/
def toList (s : Stack α) : List α := s.top :: s.below

@[simp] theorem pop_push (s : Stack α) (x : α) : (s.push x).pop = s := rfl

@[simp] theorem top_push (s : Stack α) (x : α) : (s.push x).top = x := rfl

@[simp] theorem toList_push (s : Stack α) (x : α) : (s.push x).toList = x :: s.toList := rfl

end Stack

/-- How a type parameter is reached from generated code. -/
inductive ParamAccess where
  /-- A constant of that name at the start of the enclosing body. -/
  | constant
  /-- A property of `this` inside the instance members of a class. -/
  | ofInstance (className : String)
  /-- A property of a constant inside the constructor. -/
  | ofConstructor
  /-- Out of reach at run time. -/
  | erased
deriving DecidableEq, Repr, Inhabited

/-- Type parameters that are bound together. -/
structure Generics where
  names : List String
  access : ParamAccess
deriving DecidableEq, Repr, Inhabited

/-- The names known at a point of the program. -/
structure Scope where
  options : Options := {}
  /-- Names of values declared so far, the innermost scope first. -/
  declared : Stack (List String) := ⟨[], []⟩
  /-- Type parameters, the innermost first. -/
  generics : List Generics := []
deriving DecidableEq, Repr, Inhabited

namespace Scope

/-- Declares a name in the innermost scope. -/
def declare (s : Scope) (name : String) : Scope :=
  { s with declared := s.declared.modify (·.insert name) }

/-- Whether a name has been declared in any scope around. -/
def wasDeclared (s : Scope) (name : String) : Bool :=
  s.declared.toList.any (·.contains name)

/-- How the innermost type parameter of a name is reached. -/
def access? (s : Scope) (name : String) : Option ParamAccess :=
  (s.generics.find? (·.names.contains name)).map Generics.access

end Scope

end Reify
