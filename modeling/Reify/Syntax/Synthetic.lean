import Reify.Syntax.Query

/-!
# Synthetic phrases

Phrases made by the program.  All their nodes are synthetic and stand at the place of what they
were derived from.
-/

namespace Reify

namespace Synthetic

/-! ### Expressions -/

/-- `name` -/
def ident (loc : Loc) (name : String) : Expr := .ident (.synthetic loc) name

/-- A string literal. -/
def str (loc : Loc) (value : String) : Expr := .literal (.synthetic loc) (.str value)

/-- A number literal. -/
def num (loc : Loc) (value : Double) : Expr := .literal (.synthetic loc) (.num value)

/-- `true` or `false` -/
def bool (loc : Loc) (value : Bool) : Expr := .literal (.synthetic loc) (.bool value)

/-- `this` -/
def this (loc : Loc) : Expr := .this (.synthetic loc)

/-- `super` -/
def super (loc : Loc) : Expr := .super (.synthetic loc)

/-- `object.name` -/
def member (loc : Loc) (object : Expr) (name : String) : Expr :=
  .member (.synthetic loc) false name object

/-- `object[key]` -/
def index (loc : Loc) (object key : Expr) : Expr := .index (.synthetic loc) false object key

/-- An argument, at the place of its value. -/
def arg (value : Expr) : Arg := .mk (.synthetic value.loc) false value

/-- `...value` as an argument -/
def spreadArg (value : Expr) : Arg := .mk (.synthetic value.loc) true value

/-- `callee(args…)` with arguments of any kind -/
def callWith (loc : Loc) (callee : Expr) (args : List Arg) : Expr :=
  .call (.synthetic loc) false callee args

/-- `callee(args…)` -/
def call (loc : Loc) (callee : Expr) (args : List Expr) : Expr := callWith loc callee (args.map arg)

/-- `object.name(args…)` -/
def methodCall (loc : Loc) (object : Expr) (name : String) (args : List Expr) : Expr :=
  call loc (member loc object name) args

/-- `left = right` -/
def assign (loc : Loc) (left right : Expr) : Expr :=
  .binary (.synthetic loc) .assignment left right

/-- `[elems…]` -/
def array (loc : Loc) (elems : List Expr) : Expr :=
  .array (.synthetic loc) (elems.map ArrayElem.single)

/-- A key written as an identifier. -/
def directKey (loc : Loc) (name : String) : MemberKey := .direct (.synthetic loc) name

/-- An object literal with identifiers as keys. -/
def object (loc : Loc) (entries : List (String × Expr)) : Expr :=
  .object (.synthetic loc) (entries.map fun (key, value) =>
    ObjMember.valued (.synthetic loc) (directKey loc key) (.property (.present value)))

/-! ### Functions -/

/-- `name` as what a declaration binds -/
def binding (loc : Loc) (name : String) : Binding :=
  .mk (.synthetic loc) (.ident (.synthetic loc) name)

/-- `name` as a parameter -/
def param (loc : Loc) (name : String) : Param :=
  .mk (.synthetic loc) ⟨false, false, none, false⟩ (.ofList []) (binding loc name) .absent .absent

/-- The type `any`. -/
def any (loc : Loc) : TypeExpr := .keyword (.synthetic loc) .any

/-- `...name: any[]` as a parameter -/
def restAnyParam (loc : Loc) (name : String) : Param :=
  .mk (.synthetic loc) ⟨true, false, none, false⟩ (.ofList []) (binding loc name)
    (.present (TypeExpr.array (.synthetic loc) false (any loc))) .absent

/-- A function without type parameters and result type. -/
def func (loc : Loc) (arrow : Bool) (params : List Param) (body : FuncBody) : Func :=
  .mk (.synthetic loc) ⟨arrow, false, false⟩ .absent params .absent (.present body)

/-- `(params…) => body` -/
def arrow (loc : Loc) (params : List String) (body : FuncBody) : Expr :=
  .arrow (.synthetic loc) (func loc true (params.map (param loc)) body)

/-- `() => value` -/
def thunk (loc : Loc) (value : Expr) : Expr := arrow loc [] (.expr value)

/-- `function () { stmts… }` -/
def function (loc : Loc) (stmts : List Stmt) : Expr :=
  .func (.synthetic loc) .absent (func loc false [] (.block stmts))

/-- `@value` -/
def decorator (loc : Loc) (value : Expr) : Decorator := .mk (.synthetic loc) value

/-! ### Statements -/

/-- `value;` -/
def exprStmt (loc : Loc) (value : Expr) : Stmt := .expr (.synthetic loc) value

/-- `return value;` -/
def returnStmt (loc : Loc) (value : Expr) : Stmt := .returning (.synthetic loc) (.present value)

/-- `const name = value;` -/
def constStmt (loc : Loc) (name : String) (value : Expr) (exported : Bool := false) : Stmt :=
  .varDecl (.synthetic loc) (.mk (.synthetic loc) ⟨exported, .constant⟩
    [Declarator.mk (.synthetic loc) (binding loc name) .absent (.present value)])

/-- `import name from "source";`, or `import "source";` without a name -/
def importStmt (loc : Loc) (name : Option String) (source : String) : Stmt :=
  .importing (.synthetic loc)
    (.mk (.synthetic loc) ⟨false, source⟩ (name.map (binding loc)) .absent)

/-! ### Class members -/

/-- `constructor(params…) { stmts… }` -/
def constructor (loc : Loc) (params : List Param) (stmts : List Stmt) : ClassMember :=
  .mk (.synthetic loc) ⟨false, false, false, none⟩ (.ofList []) (directKey loc "constructor")
    .absent (.function (.synthetic loc) .method (func loc false params (.block stmts)))

/-- `static [key] = value;` -/
def staticProperty (loc : Loc) (key value : Expr) : ClassMember :=
  .mk (.synthetic loc) ⟨true, false, false, none⟩ (.ofList []) (.computed key) .absent
    (.property (.present value))

end Synthetic

end Reify
