import Reify.Number.Double
import Reify.Syntax.Category
import Reify.Syntax.Operator

/-!
# Forms

The signature of the syntax.  A `Form c` is one way to build a tree of category `c`, together
with the data that are not trees (names, flags, operators); `Form.arity` lists the categories
of the subtrees it takes, in source order, and `Form.width` says how many nodes of the tree it
counts for.
-/

namespace Reify

/-- A possibly qualified name: `A`, `A.B`, `A.B.C`. -/
inductive EntityName where
  | ident (name : String)
  | qualified (left : EntityName) (right : String)
deriving DecidableEq, Repr, Inhabited

namespace EntityName

/-- The identifier that the whole name is rooted at. -/
def leftmost : EntityName → String
  | ident name => name
  | qualified left _ => left.leftmost

/-- The name, if it is a plain identifier. -/
def ident? : EntityName → Option String
  | ident name => some name
  | qualified _ _ => none

/-- The name as it is written. -/
def text : EntityName → String
  | ident name => name
  | qualified left right => left.text ++ "." ++ right

end EntityName

/-- Literal expressions. -/
inductive Literal where
  | bool (value : Bool)
  | null
  | num (value : Double)
  | str (value : String)
deriving DecidableEq, Repr, Inhabited

/-- Literal types.  A number is kept as it is written. -/
inductive TypeLiteral where
  | bool (value : Bool)
  | num (text : String)
  | str (value : String)
deriving DecidableEq, Repr, Inhabited

/-- Forms of expressions. -/
inductive ExprForm where
  | arrow
  | binary (op : Operator)
  | call (optional : Bool)
  | classExpr
  | index (optional : Bool)
  | cond
  | func
  | ident (name : String)
  | member (optional : Bool) (name : String)
  | newCall
  | super
  | this
  | unary (op : Operator)
  | array
  | literal (value : Literal)
  | object
deriving DecidableEq, Repr, Inhabited

/-- The categories of the subtrees of an expression. -/
abbrev ExprForm.arity : ExprForm → List Category
  | arrow => [.func]
  | binary _ => [.expr, .expr]
  | call _ => [.expr, .many .arg]
  | classExpr => [.many .decorator, .maybe .name, .maybe .expr, .many .classMember]
  | index _ => [.expr, .expr]
  | cond => [.expr, .expr, .expr]
  | func => [.maybe .name, .func]
  | ident _ => []
  | member _ _ => [.expr]
  | newCall => [.expr, .many .arg]
  | super => []
  | this => []
  | unary _ => [.expr]
  | array => [.many .arrayElem]
  | literal _ => []
  | object => [.many .objMember]

/-- Forms of statements. -/
inductive StmtForm where
  | block
  | breakTo (label : Option String)
  | continueTo (label : Option String)
  | doWhile
  | empty
  | expr
  | forIn
  | forOf (await : Bool)
  | forLoop
  | ifElse
  | importing
  | labeled (label : String)
  | returning
  | switch
  | throwing
  | trying
  | whileLoop
  | classDecl
  | funcDecl
  | varDecl
  | interfaceDecl
  | aliasDecl
  | enumDecl
deriving DecidableEq, Repr, Inhabited

/-- The categories of the subtrees of a statement. -/
abbrev StmtForm.arity : StmtForm → List Category
  | block => [.block]
  | breakTo _ => []
  | continueTo _ => []
  | doWhile => [.expr, .stmt]
  | empty => []
  | expr => [.expr]
  | forIn => [.forTarget, .expr, .block]
  | forOf _ => [.forTarget, .expr, .block]
  | forLoop => [.forInit, .maybe .expr, .maybe .expr, .block]
  | ifElse => [.expr, .stmt, .maybe .stmt]
  | importing => [.importDecl]
  | labeled _ => [.stmt]
  | returning => [.maybe .expr]
  | switch => [.expr, .many .branch]
  | throwing => [.expr]
  | trying => [.block, .maybe .handler, .maybe .block]
  | whileLoop => [.expr, .stmt]
  | classDecl => [.classDecl]
  | funcDecl => [.funcDecl]
  | varDecl => [.varDecl]
  | interfaceDecl => [.interfaceDecl]
  | aliasDecl => [.aliasDecl]
  | enumDecl => [.enumDecl]

/-- A statement that holds a declaration, a block or an import leaves the second node to it. -/
abbrev StmtForm.width : StmtForm → Nat
  | block | importing | classDecl | funcDecl | varDecl | interfaceDecl | aliasDecl | enumDecl => 1
  | _ => 2

/-- Forms of patterns. -/
inductive PatForm where
  | array
  | ident (name : String)
  | object
deriving DecidableEq, Repr, Inhabited

/-- The categories of the subtrees of a pattern. -/
abbrev PatForm.arity : PatForm → List Category
  | array => [.many (.maybe .arrayPatElem), .maybe .pat]
  | ident _ => []
  | object => [.many .objPatProp, .maybe .name]

/-- Forms of types.  From `operator` on they have no value at run time. -/
inductive TypeForm where
  | keyword (k : TypeKeyword)
  | reference (name : EntityName)
  | literal (value : TypeLiteral)
  | array (readonly : Bool)
  | tuple (readonly : Bool)
  | union
  | intersection
  | func
  | construct (abstract : Bool)
  | object
  | paren
  | query (name : EntityName)
  | operator (op : TypeOperator)
  | indexed
  | conditional
  | infer (name : String)
  | mapped (name : String)
  | predicate (asserts : Bool) (name : String)
deriving DecidableEq, Repr, Inhabited

/-- The categories of the subtrees of a type. -/
abbrev TypeForm.arity : TypeForm → List Category
  | keyword _ => []
  | reference _ => [.maybe (.many .type)]
  | literal _ => []
  | array _ => [.type]
  | tuple _ => [.many .type]
  | union => [.many .type]
  | intersection => [.many .type]
  | func => [.maybe (.many .typeParam), .many .sigParam, .type]
  | construct _ => [.maybe (.many .typeParam), .many .sigParam, .type]
  | object => [.many .typeMember]
  | paren => [.type]
  | query _ => []
  | operator _ => [.type]
  | indexed => [.type, .type]
  | conditional => [.type, .type, .type, .type]
  | infer _ => [.maybe .type]
  | mapped _ => [.type, .maybe .type]
  | predicate _ _ => [.maybe .type]

/-- Forms of members of object types. -/
inductive TypeMemberForm where
  | property (readonly optional : Bool)
  | method (optional : Bool)
  | construct
  | call
  | index (readonly : Bool) (name : String)
deriving DecidableEq, Repr, Inhabited

/-- The categories of the subtrees of a type member. -/
abbrev TypeMemberForm.arity : TypeMemberForm → List Category
  | property _ _ => [.typeKey, .maybe .type]
  | method _ => [.typeKey, .maybe (.many .typeParam), .many .sigParam, .maybe .type]
  | construct => [.maybe (.many .typeParam), .many .sigParam, .maybe .type]
  | call => [.maybe (.many .typeParam), .many .sigParam, .maybe .type]
  | index _ _ => [.type, .type]

/-- Forms of keys of type members. -/
inductive TypeKeyForm where
  | ident (name : String)
  | str (value : String)
  | num (text : String)
  | computed
deriving DecidableEq, Repr, Inhabited

/-- The categories of the subtrees of a type member's key. -/
abbrev TypeKeyForm.arity : TypeKeyForm → List Category
  | computed => [.expr]
  | _ => []

/-- The name, optionality and rest mark of a parameter of a signature. -/
structure SigParamForm where
  name : String
  optional : Bool
  rest : Bool
deriving DecidableEq, Repr, Inhabited

/-- The flags of a function. -/
structure FuncForm where
  arrow : Bool
  async : Bool
  generator : Bool
deriving DecidableEq, Repr, Inhabited

/-- Forms of function bodies. -/
inductive FuncBodyForm where
  | block
  | expr
deriving DecidableEq, Repr, Inhabited

/-- The categories of the subtrees of a function body. -/
abbrev FuncBodyForm.arity : FuncBodyForm → List Category
  | block => [.many .stmt]
  | expr => [.expr]

/-- The modifiers of a parameter. -/
structure ParamForm where
  rest : Bool
  optional : Bool
  access : Option Accessibility
  readonly : Bool
deriving DecidableEq, Repr, Inhabited

/-- Forms of array elements. -/
inductive ArrayElemForm where
  | single
  | spread
  | hole
deriving DecidableEq, Repr, Inhabited

/-- The categories of the subtrees of an array element. -/
abbrev ArrayElemForm.arity : ArrayElemForm → List Category
  | single | spread => [.expr]
  | hole => []

/-- Forms of object members. -/
inductive ObjMemberForm where
  | valued
  | shorthand (name : String)
  | spread
deriving DecidableEq, Repr, Inhabited

/-- The categories of the subtrees of an object member. -/
abbrev ObjMemberForm.arity : ObjMemberForm → List Category
  | valued => [.memberKey, .memberVal]
  | shorthand _ => []
  | spread => [.expr]

/-- A shorthand member is two nodes: the member and the identifier. -/
abbrev ObjMemberForm.width : ObjMemberForm → Nat
  | shorthand _ => 2
  | _ => 1

/-- Forms of member keys.  A direct key is an identifier, a string or a number. -/
inductive MemberKeyForm where
  | direct (name : String)
  | computed
deriving DecidableEq, Repr, Inhabited

/-- The categories of the subtrees of a member key. -/
abbrev MemberKeyForm.arity : MemberKeyForm → List Category
  | direct _ => []
  | computed => [.expr]

/-- A computed key is no node of its own. -/
abbrev MemberKeyForm.width : MemberKeyForm → Nat
  | direct _ => 1
  | computed => 0

/-- How a member's function is used. -/
inductive MethodKind where
  | getter
  | setter
  | method
deriving DecidableEq, Repr, Inhabited

/-- Forms of what a member holds. -/
inductive MemberValForm where
  | function (kind : MethodKind)
  | property
  | index (name : String)
deriving DecidableEq, Repr, Inhabited

/-- The categories of the subtrees of what a member holds. -/
abbrev MemberValForm.arity : MemberValForm → List Category
  | function _ => [.func]
  | property => [.maybe .expr]
  | index _ => [.type, .type]

/-- A property's value is no node of its own. -/
abbrev MemberValForm.width : MemberValForm → Nat
  | property => 0
  | _ => 1

/-- The modifiers of a class member. -/
structure ClassMemberForm where
  static : Bool
  readonly : Bool
  optional : Bool
  access : Option Accessibility
deriving DecidableEq, Repr, Inhabited

/-- Forms of the first part of a `for` header. -/
inductive ForInitForm where
  | absent
  | expr
  | decl
deriving DecidableEq, Repr, Inhabited

/-- The categories of the subtrees of the first part of a `for` header. -/
abbrev ForInitForm.arity : ForInitForm → List Category
  | absent => []
  | expr => [.expr]
  | decl => [.varDecl]

/-- Forms of the left side of a `for … in` or `for … of` header. -/
inductive ForTargetForm where
  | assign
  | decl (mode : DeclMode)
deriving DecidableEq, Repr, Inhabited

/-- The categories of the subtrees of the left side of a `for` header. -/
abbrev ForTargetForm.arity : ForTargetForm → List Category
  | assign => [.pat]
  | decl _ => [.binding]

/-- What an import says besides the names it binds. -/
structure ImportForm where
  typeOnly : Bool
  source : String
deriving DecidableEq, Repr, Inhabited

/-- Forms of the named part of an import. -/
inductive ImportNamesForm where
  | all
  | specific
deriving DecidableEq, Repr, Inhabited

/-- The categories of the subtrees of the named part of an import. -/
abbrev ImportNamesForm.arity : ImportNamesForm → List Category
  | all => [.binding]
  | specific => [.many .importName]

/-- The modifiers of a class declaration. -/
structure ClassForm where
  exported : Bool
  exportedDefault : Bool
  ambient : Bool
  abstract : Bool
deriving DecidableEq, Repr, Inhabited

/-- The modifiers of a function declaration. -/
structure FuncDeclForm where
  exported : Bool
  exportedDefault : Bool
deriving DecidableEq, Repr, Inhabited

/-- The modifiers of a variable declaration. -/
structure VarForm where
  exported : Bool
  mode : DeclMode
deriving DecidableEq, Repr, Inhabited

/-- The name and modifiers of an interface or alias declaration. -/
structure TypeDeclForm where
  exported : Bool
  ambient : Bool
  name : String
deriving DecidableEq, Repr, Inhabited

/-- The name and modifiers of an enum declaration. -/
structure EnumForm where
  exported : Bool
  ambient : Bool
  constant : Bool
  name : String
deriving DecidableEq, Repr, Inhabited

/-- One way to build a tree of a category, with the data that are not trees.  A sequence's form
is its length, and the form of an optional tree says whether it is present. -/
abbrev Form : Category → Type
  | .expr => ExprForm
  | .stmt => StmtForm
  | .pat => PatForm
  | .type => TypeForm
  | .typeMember => TypeMemberForm
  | .typeKey => TypeKeyForm
  | .typeParam => String
  | .sigParam => SigParamForm
  | .func => FuncForm
  | .funcBody => FuncBodyForm
  | .param => ParamForm
  | .decorator => Unit
  | .arg => Bool
  | .arrayElem => ArrayElemForm
  | .objMember => ObjMemberForm
  | .memberKey => MemberKeyForm
  | .memberVal => MemberValForm
  | .classMember => ClassMemberForm
  | .arrayPatElem => Unit
  | .objPatProp => Bool
  | .binding => Unit
  | .name => String
  | .block => Unit
  | .handler => Unit
  | .branch => Unit
  | .forInit => ForInitForm
  | .forTarget => ForTargetForm
  | .importDecl => ImportForm
  | .importNames => ImportNamesForm
  | .importName => String
  | .classDecl => ClassForm
  | .funcDecl => FuncDeclForm
  | .varDecl => VarForm
  | .declarator => Unit
  | .interfaceDecl => TypeDeclForm
  | .aliasDecl => TypeDeclForm
  | .enumDecl => EnumForm
  | .enumMember => String
  | .unit => Unit
  | .many _ => Nat
  | .maybe _ => Bool

/-- The categories of the subtrees of a tree, in source order. -/
abbrev Form.arity : {c : Category} → Form c → List Category
  | .expr, f => ExprForm.arity f
  | .stmt, f => StmtForm.arity f
  | .pat, f => PatForm.arity f
  | .type, f => TypeForm.arity f
  | .typeMember, f => TypeMemberForm.arity f
  | .typeKey, f => TypeKeyForm.arity f
  | .typeParam, _ => [.maybe .type, .maybe .type]
  | .sigParam, _ => [.maybe .type]
  | .func, _ => [.maybe (.many .typeParam), .many .param, .maybe .type, .maybe .funcBody]
  | .funcBody, f => FuncBodyForm.arity f
  | .param, _ => [.many .decorator, .binding, .maybe .type, .maybe .expr]
  | .decorator, _ => [.expr]
  | .arg, _ => [.expr]
  | .arrayElem, f => ArrayElemForm.arity f
  | .objMember, f => ObjMemberForm.arity f
  | .memberKey, f => MemberKeyForm.arity f
  | .memberVal, f => MemberValForm.arity f
  | .classMember, _ => [.many .decorator, .memberKey, .maybe .type, .memberVal]
  | .arrayPatElem, _ => [.pat, .maybe .expr]
  | .objPatProp, _ => [.memberKey, .pat, .maybe .expr]
  | .binding, _ => [.pat]
  | .name, _ => []
  | .block, _ => [.many .stmt]
  | .handler, _ => [.maybe .binding, .maybe .type, .many .stmt]
  | .branch, _ => [.maybe .expr, .many .stmt]
  | .forInit, f => ForInitForm.arity f
  | .forTarget, f => ForTargetForm.arity f
  | .importDecl, _ => [.maybe .binding, .maybe .importNames]
  | .importNames, f => ImportNamesForm.arity f
  | .importName, _ => [.binding]
  | .classDecl, _ =>
    [.many .decorator, .maybe .name, .maybe (.many .typeParam), .maybe .expr,
      .maybe (.many .type), .many .type, .many .classMember]
  | .funcDecl, _ => [.maybe .name, .func]
  | .varDecl, _ => [.many .declarator]
  | .declarator, _ => [.binding, .maybe .type, .maybe .expr]
  | .interfaceDecl, _ => [.maybe (.many .typeParam), .many .type, .many .typeMember]
  | .aliasDecl, _ => [.maybe (.many .typeParam), .type]
  | .enumDecl, _ => [.many .enumMember]
  | .enumMember, _ => [.maybe .expr]
  | .unit, _ => [.many .stmt]
  | .many c, n => List.replicate n c
  | .maybe _, false => []
  | .maybe c, true => [c]

/-- How many nodes a form counts for: two for a phrase (its position and its form), one for most
parts, none for sequences, optional trees and mere alternatives. -/
abbrev Form.width : {c : Category} → Form c → Nat
  | .expr, _ | .pat, _ | .type, _ | .typeMember, _ => 2
  | .stmt, f => StmtForm.width f
  | .objMember, f => ObjMemberForm.width f
  | .memberKey, f => MemberKeyForm.width f
  | .memberVal, f => MemberValForm.width f
  | .typeKey, _ | .funcBody, _ | .arrayElem, _ | .arrayPatElem, _ | .forInit, _ | .forTarget, _
  | .importNames, _ | .many _, _ | .maybe _, _ => 0
  | .typeParam, _ | .sigParam, _ | .func, _ | .param, _ | .decorator, _ | .arg, _
  | .classMember, _ | .objPatProp, _ | .binding, _ | .name, _ | .block, _ | .handler, _
  | .branch, _ | .importDecl, _ | .importName, _ | .classDecl, _ | .funcDecl, _ | .varDecl, _
  | .declarator, _ | .interfaceDecl, _ | .aliasDecl, _ | .enumDecl, _ | .enumMember, _
  | .unit, _ => 1

theorem StmtForm.width_le (f : StmtForm) : f.width ≤ 2 := by cases f <;> simp [StmtForm.width]

theorem ObjMemberForm.width_le (f : ObjMemberForm) : f.width ≤ 2 := by
  cases f <;> simp [ObjMemberForm.width]

theorem MemberKeyForm.width_le (f : MemberKeyForm) : f.width ≤ 2 := by
  cases f <;> simp [MemberKeyForm.width]

theorem MemberValForm.width_le (f : MemberValForm) : f.width ≤ 2 := by
  cases f <;> simp [MemberValForm.width]

/-- No form counts for more than two nodes. -/
theorem Form.width_le {c : Category} (f : Form c) : f.width ≤ 2 := by
  cases c
  case stmt => exact StmtForm.width_le f
  case objMember => exact ObjMemberForm.width_le f
  case memberKey => exact MemberKeyForm.width_le f
  case memberVal => exact MemberValForm.width_le f
  all_goals simp [Form.width]

end Reify
