/-!
# Syntactic categories

The sorts of phrase that a TypeScript program is made of.  Expressions, statements, patterns
and types are the large ones; the others are the parts they are put together from.
-/

namespace Reify

/-- The sorts of syntax trees. -/
inductive Category where
  /-- Expressions. -/
  | expr
  /-- Statements. -/
  | stmt
  /-- Patterns: what a declaration or an assignment binds. -/
  | pat
  /-- Types. -/
  | type
  /-- Members of object types and interfaces. -/
  | typeMember
  /-- Keys of members of object types and interfaces. -/
  | typeKey
  /-- Type parameters. -/
  | typeParam
  /-- Parameters of function types and signatures. -/
  | sigParam
  /-- Functions: arrows, function expressions and declarations, methods and accessors alike. -/
  | func
  /-- Function bodies. -/
  | funcBody
  /-- Parameters of functions. -/
  | param
  /-- Decorators. -/
  | decorator
  /-- Arguments of a call. -/
  | arg
  /-- Elements of an array literal. -/
  | arrayElem
  /-- Members of an object literal. -/
  | objMember
  /-- Keys of class members, object members and object patterns. -/
  | memberKey
  /-- What a class or object member holds. -/
  | memberVal
  /-- Members of a class. -/
  | classMember
  /-- Elements of an array pattern. -/
  | arrayPatElem
  /-- Properties of an object pattern. -/
  | objPatProp
  /-- Patterns in a declaration. -/
  | binding
  /-- Names of classes and functions, and the rest name of an object pattern. -/
  | name
  /-- Statement lists in braces. -/
  | block
  /-- `catch` clauses. -/
  | handler
  /-- Branches of a `switch`. -/
  | branch
  /-- First parts of a `for (…; …; …)` header. -/
  | forInit
  /-- Left sides of a `for … in` or `for … of` header. -/
  | forTarget
  /-- Imports. -/
  | importDecl
  /-- The named part of an import. -/
  | importNames
  /-- One name of an import. -/
  | importName
  /-- Class declarations. -/
  | classDecl
  /-- Function declarations. -/
  | funcDecl
  /-- Variable declarations. -/
  | varDecl
  /-- One variable of a variable declaration. -/
  | declarator
  /-- Interface declarations. -/
  | interfaceDecl
  /-- Type alias declarations. -/
  | aliasDecl
  /-- Enum declarations. -/
  | enumDecl
  /-- Members of an enum. -/
  | enumMember
  /-- Compilation units. -/
  | unit
  /-- Sequences of one sort. -/
  | many (c : Category)
  /-- An optional tree of one sort. -/
  | maybe (c : Category)
deriving DecidableEq, Repr, Inhabited

end Reify
