import Reify.Reflection.Declaration

/-!
# The state of a walk

A walk over a unit remembers which nodes it has dealt with, which names have been declared, which
type parameters are in reach, and what the classes and interfaces of the statement lists around
it are.

Node numbers do not outlive a unit's text, so every walk starts with a state of its own.
-/

namespace Reify

/-! ### Statement lists -/

/-- The declarations of one interface seen so far. -/
structure Pending where
  /-- How many declarations are still to come. -/
  remaining : Nat
  exported : Bool := false
  typeParams : Option (List TypeParam) := none
  bases : List TypeExpr := []
  members : List TypeMember := []

/-- Classes and interfaces of one statement list, gathered before the list is walked, so that
their order does not matter.  Ambient declarations are left out. -/
structure Frame where
  classes : List String := []
  /-- The interface declarations with their members, in order. -/
  interfaces : List (String × List TypeMember) := []
  pending : List (String × Pending) := []
  /-- Interfaces that need no reflection of their own. -/
  merged : List String := []

namespace Frame

/-- The name of a class that counts for its statement list. -/
def className? : Stmt → Option String
  | Stmt.classDecl _ decl@(ClassDecl.mk _ form _ _ _ _ _ _ _) =>
    if form.ambient then none else ClassDecl.name? decl
  | _ => none

/-- An interface that counts for its statement list, with its members. -/
def interface? : Stmt → Option (String × List TypeMember)
  | Stmt.interfaceDecl _ (InterfaceDecl.mk _ form _ _ members) =>
    if form.ambient then none else some (form.name, members.toList.map Tree.detach)
  | _ => none

/-- The classes and interfaces of a statement list. -/
def ofStmts (stmts : List Stmt) : Frame where
  classes := stmts.filterMap className?
  interfaces := stmts.filterMap interface?

/-- Whether the list declares a class of a name. -/
def hasClass (f : Frame) (name : String) : Bool := f.classes.contains name

/-- Whether the list declares an interface of a name. -/
def hasInterface (f : Frame) (name : String) : Bool := f.interfaces.any (·.1 == name)

/-- The members of all interfaces of a name, in order. -/
def interfaceMembers (f : Frame) (name : String) : List TypeMember :=
  (f.interfaces.filter (·.1 == name)).flatMap Prod.snd

/-- How many interfaces of a name the list declares. -/
def interfaceCount (f : Frame) (name : String) : Nat :=
  (f.interfaces.filter (·.1 == name)).length

/-- Adds one declaration of an interface.  After the last one of the list the result holds what
all of them declare together. -/
def accumulate (f : Frame) : InterfaceDecl → Frame × Option Pending
  | InterfaceDecl.mk _ form typeParams bases members =>
    let name := form.name
    let others := f.pending.filter (·.1 != name)
    let total := if f.hasInterface name then f.interfaceCount name else 1
    let p := (f.pending.lookup name).getD { remaining := total }
    let p := { p with
      remaining := p.remaining - 1
      exported := p.exported || form.exported
      typeParams := p.typeParams <|> typeParams.toOption.map Tree.toList
      bases := p.bases ++ bases.toList.map Tree.detach
      members := p.members ++ members.toList.map Tree.detach }
    if p.remaining = 0 then ({ f with pending := others }, some p)
    else ({ f with pending := (name, p) :: others }, none)

end Frame

/-! ### The state -/

/-- The state of a walk over one unit. -/
structure Context where
  scope : Scope
  frames : Stack Frame
  /-- Numbers of nodes already dealt with. -/
  visited : List Nat := []
  /-- Answers of the type inference, by node. -/
  inferred : List (Nat × Option TypeExpr) := []
  /-- The next free node number. -/
  nextId : Nat
  /-- Nodes that were changed, in order. -/
  mutations : List Nat := []

namespace Context

/-- The state at the start of a unit. -/
def start (options : Options) : SourceUnit → Context
  | unit@(SourceUnit.mk _ stmts) =>
    { scope := { options }
      frames := ⟨Frame.ofStmts stmts.toList, []⟩
      nextId := unit.maxId + 1 }

/-- Remembers that a node has been dealt with; synthetic nodes are not remembered. -/
def markVisited (c : Context) (id : Nat) : Context :=
  if id = 0 then c else { c with visited := c.visited.insert id }

/-- Whether a node has been dealt with.  Synthetic nodes are output and need no work. -/
def wasVisited (c : Context) (id : Nat) : Bool := id == 0 || c.visited.contains id

/-- Remembers that a node is about to be changed. -/
def recordMutation (c : Context) (id : Nat) : Context :=
  { c with mutations := c.mutations ++ [id] }

/-- Changes the scope. -/
def mapScope (c : Context) (f : Scope → Scope) : Context := { c with scope := f c.scope }

/-- Declares a name. -/
def declare (c : Context) (name : String) : Context := c.mapScope (·.declare name)

/-- Opens a scope of declared names. -/
def pushScope (c : Context) : Context :=
  c.mapScope fun s => { s with declared := s.declared.push [] }

/-- Closes the innermost scope of declared names; the outermost stays. -/
def popScope (c : Context) : Context :=
  c.mapScope fun s => { s with declared := s.declared.pop }

/-- Brings type parameters into reach. -/
def pushGenerics (c : Context) (names : List String) (access : ParamAccess) : Context :=
  c.mapScope fun s => { s with generics := ⟨names, access⟩ :: s.generics }

/-- Takes the innermost type parameters out of reach. -/
def popGenerics (c : Context) : Context :=
  c.mapScope fun s => { s with generics := s.generics.tail }

/-- Enters a statement list. -/
def pushFrame (c : Context) (stmts : List Stmt) : Context :=
  { c with frames := c.frames.push (Frame.ofStmts stmts) }

/-- Leaves a statement list; the unit's own stays. -/
def popFrame (c : Context) : Context := { c with frames := c.frames.pop }

/-- The innermost statement list. -/
def frame (c : Context) : Frame := c.frames.top

/-- Marks an interface as needing no reflection of its own. -/
def setMerged (c : Context) (name : String) : Context :=
  { c with frames := c.frames.modify fun f => { f with merged := f.merged.insert name } }

/-- Whether an interface needs no reflection of its own. -/
def isMerged (c : Context) (name : String) : Bool := c.frame.merged.contains name

/-- Adds one declaration of an interface to the innermost statement list. -/
def accumulate (c : Context) (decl : InterfaceDecl) : Context × Option Pending :=
  let (f, pending) := c.frame.accumulate decl
  ({ c with frames := c.frames.modify fun _ => f }, pending)

/-- The inferred type of a node; each node is asked about once. -/
def inferType (c : Context) (infer : Nat → Option TypeExpr) (id : Nat) :
    Context × Option TypeExpr :=
  match c.inferred.lookup id with
  | some t => (c, t)
  | none => ({ c with inferred := (id, infer id) :: c.inferred }, infer id)

/-- Numbers a tree that the walk adds to the unit and counts its nodes as dealt with. -/
def adopt {k : Category} (c : Context) (t : Tree k) : Context × Tree k :=
  let (t, next) := t.number c.nextId
  (t.ids.foldl markVisited { c with nextId := next }, t)

end Context

/-- A scope with type parameters in reach, if there are any. -/
def Scope.withGenerics (s : Scope) (names : List String) (access : ParamAccess) : Scope :=
  if names.isEmpty then s else { s with generics := ⟨names, access⟩ :: s.generics }

end Reify
