/-!
# Operators and keywords

The closed vocabularies of the syntax: operators of expressions, modes of variable
declarations, accessibility modifiers, operators and keywords of types.
-/

namespace Reify

/-- Operators of unary and binary expressions. -/
inductive Operator where
  | addition
  | assignment
  | assignmentAddition
  | bitwiseAnd
  | bitwiseNot
  | bitwiseOr
  | comma
  | division
  | equality
  | greaterThan
  | greaterThanOrEqual
  | isIn
  | inequality
  | instanceOf
  | lessThan
  | lessThanOrEqual
  | logicalAnd
  | logicalNot
  | logicalOr
  | multiplication
  | nullishCoalescing
  | remainder
  | strictEquality
  | strictInequality
  | subtraction
  | typeOf
  | unaryNegation
  | unaryPlus
  | void
  | await
  | delete
deriving DecidableEq, Repr, Inhabited

namespace Operator

/-- How the operator is written in source text. -/
def text : Operator → String
  | addition | unaryPlus => "+"
  | assignment => "="
  | assignmentAddition => "+="
  | bitwiseAnd => "&"
  | bitwiseNot => "~"
  | bitwiseOr => "|"
  | comma => ","
  | division => "/"
  | equality => "=="
  | greaterThan => ">"
  | greaterThanOrEqual => ">="
  | isIn => "in"
  | inequality => "!="
  | instanceOf => "instanceof"
  | lessThan => "<"
  | lessThanOrEqual => "<="
  | logicalAnd => "&&"
  | logicalNot => "!"
  | logicalOr => "||"
  | multiplication => "*"
  | nullishCoalescing => "??"
  | remainder => "%"
  | strictEquality => "==="
  | strictInequality => "!=="
  | subtraction | unaryNegation => "-"
  | typeOf => "typeof"
  | void => "void"
  | await => "await"
  | delete => "delete"

/-- Keyword operators need a space before their operand. -/
def isKeyword : Operator → Bool
  | typeOf | void | await | delete | isIn | instanceOf => true
  | _ => false

/-- How tightly a binary operator binds; a larger number binds tighter. -/
def precedence : Operator → Nat
  | comma => 1
  | assignment | assignmentAddition => 2
  | nullishCoalescing | logicalOr => 4
  | logicalAnd => 5
  | bitwiseOr => 6
  | bitwiseAnd => 8
  | equality | inequality | strictEquality | strictInequality => 9
  | lessThan | lessThanOrEqual | greaterThan | greaterThanOrEqual | isIn | instanceOf => 10
  | addition | subtraction => 12
  | multiplication | division | remainder => 13
  | _ => 15

/-- Assignments group to the right, all else to the left. -/
def isRightAssociative : Operator → Bool
  | assignment | assignmentAddition => true
  | _ => false

/-- The operator's name in the JSON form of a tree. -/
def name : Operator → String
  | addition => "Addition"
  | assignment => "Assignment"
  | assignmentAddition => "AssignmentAddition"
  | bitwiseAnd => "BitwiseAnd"
  | bitwiseNot => "BitwiseNot"
  | bitwiseOr => "BitwiseOr"
  | comma => "Comma"
  | division => "Division"
  | equality => "Equality"
  | greaterThan => "GreaterThan"
  | greaterThanOrEqual => "GreaterThanOrEqual"
  | isIn => "In"
  | inequality => "Inequality"
  | instanceOf => "Instanceof"
  | lessThan => "LessThan"
  | lessThanOrEqual => "LessThanOrEqual"
  | logicalAnd => "LogicalAnd"
  | logicalNot => "LogicalNot"
  | logicalOr => "LogicalOr"
  | multiplication => "Multiplication"
  | nullishCoalescing => "NullishCoalescing"
  | remainder => "Remainder"
  | strictEquality => "StrictEquality"
  | strictInequality => "StrictInequality"
  | subtraction => "Subtraction"
  | typeOf => "Typeof"
  | unaryNegation => "UnaryNegation"
  | unaryPlus => "UnaryPlus"
  | void => "Void"
  | await => "Await"
  | delete => "Delete"

/-- Every operator, in the order of their names' table. -/
def all : List Operator :=
  [addition, assignment, assignmentAddition, bitwiseAnd, bitwiseNot, bitwiseOr, comma, division,
    equality, greaterThan, greaterThanOrEqual, isIn, inequality, instanceOf, lessThan,
    lessThanOrEqual, logicalAnd, logicalNot, logicalOr, multiplication, nullishCoalescing,
    remainder, strictEquality, strictInequality, subtraction, typeOf, unaryNegation, unaryPlus,
    void, await, delete]

/-- The operator of a given name. -/
def ofName? (s : String) : Option Operator := all.find? (·.name == s)

end Operator

/-- How a variable is declared. -/
inductive DeclMode where
  | constant
  | block
  | function
deriving DecidableEq, Repr, Inhabited

namespace DeclMode

/-- The keyword that opens the declaration. -/
def keyword : DeclMode → String
  | constant => "const"
  | block => "let"
  | function => "var"

/-- The mode's name in the JSON form of a tree. -/
def name : DeclMode → String
  | constant => "Const"
  | block => "Let"
  | function => "Var"

/-- The mode of a given name. -/
def ofName? : String → Option DeclMode
  | "Const" => some constant
  | "Let" => some block
  | "Var" => some function
  | _ => none

end DeclMode

/-- Accessibility of a class member or a parameter property. -/
inductive Accessibility where
  | everyone
  | classOnly
  | subclasses
deriving DecidableEq, Repr, Inhabited

namespace Accessibility

/-- The modifier's name in the JSON form of a tree. -/
def name : Accessibility → String
  | everyone => "Public"
  | classOnly => "Private"
  | subclasses => "Protected"

/-- The modifier of a given name. -/
def ofName? : String → Option Accessibility
  | "Public" => some everyone
  | "Private" => some classOnly
  | "Protected" => some subclasses
  | _ => none

end Accessibility

/-- Operators of types. -/
inductive TypeOperator where
  | keyOf
  | unique
  | readonly
deriving DecidableEq, Repr, Inhabited

namespace TypeOperator

/-- How the operator is written in source text. -/
def text : TypeOperator → String
  | keyOf => "keyof"
  | unique => "unique"
  | readonly => "readonly"

/-- The operator's name in the JSON form of a tree. -/
def name : TypeOperator → String
  | keyOf => "KeyOf"
  | unique => "Unique"
  | readonly => "Readonly"

/-- The operator of a given name. -/
def ofName? : String → Option TypeOperator
  | "KeyOf" => some keyOf
  | "Unique" => some unique
  | "Readonly" => some readonly
  | _ => none

end TypeOperator

/-- Types written as a single keyword. -/
inductive TypeKeyword where
  | any
  | void
  | string
  | number
  | boolean
  | symbol
  | object
  | null
  | undefined
  | this
deriving DecidableEq, Repr, Inhabited

namespace TypeKeyword

/-- How the keyword is written in source text. -/
def text : TypeKeyword → String
  | any => "any"
  | void => "void"
  | string => "string"
  | number => "number"
  | boolean => "boolean"
  | symbol => "symbol"
  | object => "object"
  | null => "null"
  | undefined => "undefined"
  | this => "this"

/-- The keyword's name in the JSON form of a tree. -/
def name : TypeKeyword → String
  | any => "Any"
  | void => "Void"
  | string => "String"
  | number => "Number"
  | boolean => "Boolean"
  | symbol => "Symbol"
  | object => "Object"
  | null => "Null"
  | undefined => "Undefined"
  | this => "ThisType"

/-- Every keyword, in the order of the names' table. -/
def all : List TypeKeyword :=
  [any, void, string, number, boolean, symbol, object, null, undefined, this]

/-- The keyword of a given name. -/
def ofName? (s : String) : Option TypeKeyword := all.find? (·.name == s)

end TypeKeyword

end Reify
