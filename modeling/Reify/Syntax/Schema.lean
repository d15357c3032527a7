import Reify.Json
import Reify.Syntax.Form

/-!
# The JSON shape of trees

Each category has a shape: a plain record, or alternatives told apart by the key `$t`.  The tag
stands next to the fields (`inline`) or beside a key `v` that holds the content (`wrapped`).
`Category.variants` lists a category's alternatives with the names of their fields, and
`Form.slots` says which datum goes into each field and which fields hold subtrees.
-/

namespace Reify

/-- The key of a tag. -/
def tagKey : String := "$t"

/-- The key of a wrapped content. -/
def contentKey : String := "v"

/-- How the alternatives of a category are told apart. -/
inductive Style where
  /-- A record without alternatives. -/
  | plain
  /-- The tag stands next to the fields. -/
  | inline
  /-- The tag stands beside the content. -/
  | wrapped
  /-- A record whose only field, of the given name, holds inline alternatives. -/
  | nested (field : String)
deriving DecidableEq, Repr

/-- What an alternative holds. -/
inductive Body where
  /-- Fields of the given names. -/
  | fields (names : List String)
  /-- One value without a name of its own. -/
  | bare
  /-- Nothing. -/
  | empty
deriving DecidableEq, Repr

/-- An alternative of a category. -/
structure Variant where
  tag : String
  body : Body
deriving DecidableEq, Repr

/-- The shape of a category. -/
def Category.style : Category → Style
  | .expr | .stmt | .pat | .type | .typeMember | .forInit | .forTarget => .inline
  | .funcBody | .memberKey | .memberVal | .arrayElem | .importNames | .typeKey => .wrapped
  | .objMember => .nested "typ"
  | _ => .plain

/-- Alternatives whose tags are given with their fields. -/
def Variant.table (rows : List (String × List String)) : List Variant :=
  rows.map fun (tag, names) => ⟨tag, .fields names⟩

/-- The one alternative of a record. -/
def Variant.record (names : List String) : List Variant := [⟨"", .fields names⟩]

/-- The alternatives of a category, in the order in which they are counted. -/
def Category.variants : Category → List Variant
  | .expr => Variant.table [
      ("ArrowFunc", ["func"]),
      ("Binary", ["operator", "left", "right"]),
      ("Call", ["optional_chaining", "callee", "arguments"]),
      ("Class", ["decorators", "name", "extends", "members"]),
      ("ComputedMember", ["optional_chaining", "object", "member"]),
      ("Cond", ["test", "consequent", "alternate"]),
      ("Func", ["name", "func"]),
      ("Id", ["name"]),
      ("Member", ["optional_chaining", "left", "right"]),
      ("New", ["callee", "arguments"]),
      ("Super", []),
      ("This", []),
      ("Unary", ["operator", "argument"]),
      ("LitArr", ["elements"]),
      ("LitBool", ["value"]),
      ("LitNull", []),
      ("LitNum", ["value"]),
      ("LitObj", ["members"]),
      ("LitStr", ["value"])]
  | .stmt => [
      ⟨"Block", .bare⟩,
      ⟨"Break", .fields ["label"]⟩,
      ⟨"Continue", .fields ["label"]⟩,
      ⟨"DoWhile", .fields ["condition", "body"]⟩,
      ⟨"Empty", .fields []⟩,
      ⟨"Expr", .fields ["expr"]⟩,
      ⟨"ForIn", .fields ["lhs", "rhs", "body"]⟩,
      ⟨"ForOf", .fields ["await_", "lhs", "rhs", "body"]⟩,
      ⟨"ForTriple", .fields ["init", "cond", "post", "body"]⟩,
      ⟨"If", .fields ["test", "consequent", "alternate"]⟩,
      ⟨"Import", .bare⟩,
      ⟨"Label", .fields ["name", "statement"]⟩,
      ⟨"Return", .fields ["value"]⟩,
      ⟨"Switch", .fields ["test", "branches"]⟩,
      ⟨"Throw", .fields ["value"]⟩,
      ⟨"Try", .fields ["wrapped", "catch", "finally"]⟩,
      ⟨"While", .fields ["condition", "body"]⟩,
      ⟨"ClassDecl", .bare⟩,
      ⟨"FunctionDecl", .bare⟩,
      ⟨"VarDecl", .bare⟩,
      ⟨"InterfaceDecl", .bare⟩,
      ⟨"TypeAliasDecl", .bare⟩,
      ⟨"EnumDecl", .bare⟩]
  | .pat => Variant.table [
      ("Arr", ["elements", "rest"]),
      ("Id", ["name"]),
      ("Obj", ["properties", "rest"])]
  | .type =>
    TypeKeyword.all.map (⟨·.name, .fields []⟩) ++
    [⟨"TypeReference", .fields ["name", "type_arguments"]⟩,
      ⟨"LiteralType", .bare⟩] ++
    Variant.table [
      ("ArrayType", ["readonly", "element_type"]),
      ("TupleType", ["readonly", "elements"]),
      ("UnionType", ["types"]),
      ("IntersectionType", ["types"]),
      ("FunctionType", ["type_parameters", "parameters", "return_type"]),
      ("ConstructorType", ["abstract_", "type_parameters", "parameters", "return_type"]),
      ("ObjectType", ["members"]),
      ("ParenthesizedType", ["type_expr"]),
      ("TypeQuery", ["expr_name"]),
      ("TypeOperator", ["operator", "type_expr"]),
      ("IndexedAccessType", ["object_type", "index_type"]),
      ("ConditionalType", ["check_type", "extends_type", "true_type", "false_type"]),
      ("InferType", ["type_parameter", "constraint"]),
      ("MappedType", ["type_parameter", "constraint", "type_expr"]),
      ("TypePredicate", ["asserts", "parameter_name", "type_annotation"])]
  | .typeMember => Variant.table [
      ("Property", ["readonly", "optional", "key", "type_annotation"]),
      ("Method", ["optional", "key", "type_parameters", "parameters", "return_type"]),
      ("Constructor", ["type_parameters", "parameters", "return_type"]),
      ("CallSignature", ["type_parameters", "parameters", "return_type"]),
      ("IndexSignature", ["readonly", "parameter_name", "parameter_type", "type_annotation"])]
  | .typeKey => [⟨"Identifier", .bare⟩, ⟨"String", .bare⟩, ⟨"Number", .bare⟩, ⟨"Computed", .bare⟩]
  | .typeParam => Variant.record ["name", "constraint", "default"]
  | .sigParam => Variant.record ["name", "optional", "rest", "type_expr"]
  | .func => Variant.record
      ["arrow", "async_", "generator", "type_parameters", "parameters", "return_type", "body"]
  | .funcBody => [⟨"Block", .bare⟩, ⟨"Expression", .bare⟩]
  | .param => Variant.record
      ["decorators", "rest", "optional", "accessibility", "readonly", "pattern",
        "type_annotation", "default_value"]
  | .decorator => Variant.record ["expression"]
  | .arg => Variant.record ["spread", "value"]
  | .arrayElem => [⟨"Single", .bare⟩, ⟨"Rest", .bare⟩, ⟨"Empty", .empty⟩]
  | .objMember =>
    Variant.table [("Valued", ["key", "val"]), ("Shorthand", ["id"]), ("Rest", ["val"])]
  | .memberKey => [⟨"Direct", .fields ["key"]⟩, ⟨"Computed", .bare⟩]
  | .memberVal => [
      ⟨"Getter", .fields ["func"]⟩,
      ⟨"Setter", .fields ["func"]⟩,
      ⟨"Method", .fields ["func"]⟩,
      ⟨"Prop", .bare⟩,
      ⟨"IndexSignature", .fields ["parameter_name", "parameter_type", "type_annotation"]⟩]
  | .classMember => Variant.record
      ["decorators", "key", "static_", "readonly", "optional", "accessibility",
        "type_annotation", "val"]
  | .arrayPatElem => Variant.record ["target", "default_value"]
  | .objPatProp => Variant.record ["key", "target", "shorthand", "default_value"]
  | .binding => Variant.record ["pat"]
  | .name => Variant.record ["name"]
  | .block => Variant.record ["body"]
  | .handler => Variant.record ["parameter", "type_annotation", "body"]
  | .branch => Variant.record ["case", "body"]
  | .forInit => Variant.table [("None", []), ("Expr", ["expr"]), ("Decl", ["decl"])]
  | .forTarget => Variant.table [("Assign", ["pat"]), ("Decl", ["mode", "pattern"])]
  | .importDecl => Variant.record ["type_only", "default", "names", "module"]
  | .importNames => [⟨"All", .bare⟩, ⟨"Specific", .bare⟩]
  | .importName => Variant.record ["importable", "alias"]
  | .classDecl => Variant.record
      ["decorators", "export", "export_default", "declare", "abstract_", "name",
        "type_parameters", "extends", "extends_type_arguments", "implements", "members"]
  | .funcDecl => Variant.record ["export", "export_default", "name", "function"]
  | .varDecl => Variant.record ["export", "mode", "declarators"]
  | .declarator => Variant.record ["pattern", "type_annotation", "initializer"]
  | .interfaceDecl => Variant.record
      ["export", "declare", "name", "type_parameters", "extends", "members"]
  | .aliasDecl => Variant.record ["export", "declare", "name", "type_parameters", "type_expr"]
  | .enumDecl => Variant.record ["export", "declare", "const_", "name", "members"]
  | .enumMember => Variant.record ["name", "initializer"]
  | .unit => Variant.record ["body"]
  | .many _ | .maybe _ => []

/-! ### Data -/

/-- A field of a form: a datum, or the next subtree. -/
inductive Slot where
  | datum (value : Json)
  | tree

namespace Slot

/-- A string. -/
def str (s : String) : Slot := .datum (.str s)

/-- A flag. -/
def bool (b : Bool) : Slot := .datum (.bool b)

/-- A string or nothing. -/
def strOrNull : Option String → Slot
  | none => .datum .null
  | some s => str s

end Slot

/-- The JSON of a possibly qualified name. -/
def EntityName.toJson : EntityName → Json
  | ident name => .obj [(tagKey, .str "Identifier"), ("name", .str name)]
  | qualified left right =>
    .obj [(tagKey, .str "Qualified"), ("left", left.toJson), ("right", .str right)]

/-- The JSON of a literal type. -/
def TypeLiteral.toJson : TypeLiteral → Json
  | bool b => .obj [(tagKey, .str "Boolean"), (contentKey, .bool b)]
  | num s => .obj [(tagKey, .str "Number"), (contentKey, .str s)]
  | str s => .obj [(tagKey, .str "String"), (contentKey, .str s)]

/-- The tag of an expression. -/
def ExprForm.tag : ExprForm → String
  | arrow => "ArrowFunc"
  | binary _ => "Binary"
  | call _ => "Call"
  | classExpr => "Class"
  | index _ => "ComputedMember"
  | cond => "Cond"
  | func => "Func"
  | ident _ => "Id"
  | member _ _ => "Member"
  | newCall => "New"
  | super => "Super"
  | this => "This"
  | unary _ => "Unary"
  | array => "LitArr"
  | literal (.bool _) => "LitBool"
  | literal .null => "LitNull"
  | literal (.num _) => "LitNum"
  | object => "LitObj"
  | literal (.str _) => "LitStr"

/-- The fields of an expression. -/
def ExprForm.slots : ExprForm → List Slot
  | arrow => [.tree]
  | binary op => [.str op.name, .tree, .tree]
  | call optional => [.bool optional, .tree, .tree]
  | classExpr => [.tree, .tree, .tree, .tree]
  | index optional => [.bool optional, .tree, .tree]
  | cond => [.tree, .tree, .tree]
  | func => [.tree, .tree]
  | ident name => [.str name]
  | member optional name => [.bool optional, .tree, .str name]
  | newCall => [.tree, .tree]
  | super => []
  | this => []
  | unary op => [.str op.name, .tree]
  | array => [.tree]
  | literal (.bool b) => [.bool b]
  | literal .null => []
  | literal (.num x) => [.datum (.float x)]
  | literal (.str s) => [.str s]
  | object => [.tree]

/-- The tag of a statement. -/
def StmtForm.tag : StmtForm → String
  | block => "Block"
  | breakTo _ => "Break"
  | continueTo _ => "Continue"
  | doWhile => "DoWhile"
  | empty => "Empty"
  | expr => "Expr"
  | forIn => "ForIn"
  | forOf _ => "ForOf"
  | forLoop => "ForTriple"
  | ifElse => "If"
  | importing => "Import"
  | labeled _ => "Label"
  | returning => "Return"
  | switch => "Switch"
  | throwing => "Throw"
  | trying => "Try"
  | whileLoop => "While"
  | classDecl => "ClassDecl"
  | funcDecl => "FunctionDecl"
  | varDecl => "VarDecl"
  | interfaceDecl => "InterfaceDecl"
  | aliasDecl => "TypeAliasDecl"
  | enumDecl => "EnumDecl"

/-- The fields of a statement. -/
def StmtForm.slots : StmtForm → List Slot
  | breakTo label => [.strOrNull label]
  | continueTo label => [.strOrNull label]
  | forOf await => [.bool await, .tree, .tree, .tree]
  | labeled label => [.str label, .tree]
  | f => f.arity.map fun _ => .tree

/-- The tag of a pattern. -/
def PatForm.tag : PatForm → String
  | array => "Arr"
  | ident _ => "Id"
  | object => "Obj"

/-- The fields of a pattern. -/
def PatForm.slots : PatForm → List Slot
  | array => [.tree, .tree]
  | ident name => [.str name]
  | object => [.tree, .tree]

/-- The tag of a type. -/
def TypeForm.tag : TypeForm → String
  | keyword k => k.name
  | reference _ => "TypeReference"
  | literal _ => "LiteralType"
  | array _ => "ArrayType"
  | tuple _ => "TupleType"
  | union => "UnionType"
  | intersection => "IntersectionType"
  | func => "FunctionType"
  | construct _ => "ConstructorType"
  | object => "ObjectType"
  | paren => "ParenthesizedType"
  | query _ => "TypeQuery"
  | operator _ => "TypeOperator"
  | indexed => "IndexedAccessType"
  | conditional => "ConditionalType"
  | infer _ => "InferType"
  | mapped _ => "MappedType"
  | predicate _ _ => "TypePredicate"

/-- The fields of a type. -/
def TypeForm.slots : TypeForm → List Slot
  | keyword _ => []
  | reference name => [.datum name.toJson, .tree]
  | literal v => [.datum v.toJson]
  | array readonly => [.bool readonly, .tree]
  | tuple readonly => [.bool readonly, .tree]
  | union => [.tree]
  | intersection => [.tree]
  | func => [.tree, .tree, .tree]
  | construct abstract => [.bool abstract, .tree, .tree, .tree]
  | object => [.tree]
  | paren => [.tree]
  | query name => [.datum name.toJson]
  | operator op => [.str op.name, .tree]
  | indexed => [.tree, .tree]
  | conditional => [.tree, .tree, .tree, .tree]
  | infer name => [.str name, .tree]
  | mapped name => [.str name, .tree, .tree]
  | predicate asserts name => [.bool asserts, .str name, .tree]

/-- The tag of a type member. -/
def TypeMemberForm.tag : TypeMemberForm → String
  | property _ _ => "Property"
  | method _ => "Method"
  | construct => "Constructor"
  | call => "CallSignature"
  | index _ _ => "IndexSignature"

/-- The fields of a type member. -/
def TypeMemberForm.slots : TypeMemberForm → List Slot
  | property readonly optional => [.bool readonly, .bool optional, .tree, .tree]
  | method optional => [.bool optional, .tree, .tree, .tree, .tree]
  | construct => [.tree, .tree, .tree]
  | call => [.tree, .tree, .tree]
  | index readonly name => [.bool readonly, .str name, .tree, .tree]

/-- The tag of a type member's key. -/
def TypeKeyForm.tag : TypeKeyForm → String
  | ident _ => "Identifier"
  | str _ => "String"
  | num _ => "Number"
  | computed => "Computed"

/-- The content of a type member's key. -/
def TypeKeyForm.slots : TypeKeyForm → List Slot
  | ident s | str s | num s => [.str s]
  | computed => [.tree]

/-- The tag of a function body. -/
def FuncBodyForm.tag : FuncBodyForm → String
  | block => "Block"
  | expr => "Expression"

/-- The tag of an array element. -/
def ArrayElemForm.tag : ArrayElemForm → String
  | single => "Single"
  | spread => "Rest"
  | hole => "Empty"

/-- The tag of an object member. -/
def ObjMemberForm.tag : ObjMemberForm → String
  | valued => "Valued"
  | shorthand _ => "Shorthand"
  | spread => "Rest"

/-- The fields of an object member. -/
def ObjMemberForm.slots : ObjMemberForm → List Slot
  | valued => [.tree, .tree]
  | shorthand name => [.datum (.obj [("name", .str name)])]
  | spread => [.tree]

/-- The tag of a member key. -/
def MemberKeyForm.tag : MemberKeyForm → String
  | direct _ => "Direct"
  | computed => "Computed"

/-- The content of a member key. -/
def MemberKeyForm.slots : MemberKeyForm → List Slot
  | direct name => [.str name]
  | computed => [.tree]

/-- The tag of what a member holds. -/
def MemberValForm.tag : MemberValForm → String
  | function .getter => "Getter"
  | function .setter => "Setter"
  | function .method => "Method"
  | property => "Prop"
  | index _ => "IndexSignature"

/-- The content of what a member holds. -/
def MemberValForm.slots : MemberValForm → List Slot
  | function _ => [.tree]
  | property => [.tree]
  | index name => [.str name, .tree, .tree]

/-- The tag of the first part of a `for` header. -/
def ForInitForm.tag : ForInitForm → String
  | absent => "None"
  | expr => "Expr"
  | decl => "Decl"

/-- The tag of the left side of a `for` header. -/
def ForTargetForm.tag : ForTargetForm → String
  | assign => "Assign"
  | decl _ => "Decl"

/-- The fields of the left side of a `for` header. -/
def ForTargetForm.slots : ForTargetForm → List Slot
  | assign => [.tree]
  | decl mode => [.str mode.name, .tree]

/-- The tag of the named part of an import. -/
def ImportNamesForm.tag : ImportNamesForm → String
  | all => "All"
  | specific => "Specific"

/-- The tag of a form; records have none. -/
def Form.tag : {c : Category} → Form c → String
  | .expr, f => ExprForm.tag f
  | .stmt, f => StmtForm.tag f
  | .pat, f => PatForm.tag f
  | .type, f => TypeForm.tag f
  | .typeMember, f => TypeMemberForm.tag f
  | .typeKey, f => TypeKeyForm.tag f
  | .funcBody, f => FuncBodyForm.tag f
  | .arrayElem, f => ArrayElemForm.tag f
  | .objMember, f => ObjMemberForm.tag f
  | .memberKey, f => MemberKeyForm.tag f
  | .memberVal, f => MemberValForm.tag f
  | .forInit, f => ForInitForm.tag f
  | .forTarget, f => ForTargetForm.tag f
  | .importNames, f => ImportNamesForm.tag f
  | _, _ => ""

/-- The accessibility of a member or parameter. -/
def Slot.access (a : Option Accessibility) : Slot := .strOrNull (a.map Accessibility.name)

/-- The fields of a form, in order. -/
def Form.slots : {c : Category} → Form c → List Slot
  | .expr, f => ExprForm.slots f
  | .stmt, f => StmtForm.slots f
  | .pat, f => PatForm.slots f
  | .type, f => TypeForm.slots f
  | .typeMember, f => TypeMemberForm.slots f
  | .typeKey, f => TypeKeyForm.slots f
  | .typeParam, name => [.str name, .tree, .tree]
  | .sigParam, f => [.str f.name, .bool f.optional, .bool f.rest, .tree]
  | .func, f => [.bool f.arrow, .bool f.async, .bool f.generator, .tree, .tree, .tree, .tree]
  | .param, f =>
    [.tree, .bool f.rest, .bool f.optional, .access f.access, .bool f.readonly, .tree, .tree, .tree]
  | .arg, spread => [.bool spread, .tree]
  | .objMember, f => ObjMemberForm.slots f
  | .memberKey, f => MemberKeyForm.slots f
  | .memberVal, f => MemberValForm.slots f
  | .classMember, f =>
    [.tree, .tree, .bool f.static, .bool f.readonly, .bool f.optional, .access f.access, .tree,
      .tree]
  | .objPatProp, shorthand => [.tree, .tree, .bool shorthand, .tree]
  | .name, text => [.str text]
  | .forTarget, f => ForTargetForm.slots f
  | .importDecl, f => [.bool f.typeOnly, .tree, .tree, .str f.source]
  | .importName, name => [.str name, .tree]
  | .classDecl, f =>
    [.tree, .bool f.exported, .bool f.exportedDefault, .bool f.ambient, .bool f.abstract, .tree,
      .tree, .tree, .tree, .tree, .tree]
  | .funcDecl, f => [.bool f.exported, .bool f.exportedDefault, .tree, .tree]
  | .varDecl, f => [.bool f.exported, .str f.mode.name, .tree]
  | .interfaceDecl, f => [.bool f.exported, .bool f.ambient, .str f.name, .tree, .tree, .tree]
  | .aliasDecl, f => [.bool f.exported, .bool f.ambient, .str f.name, .tree, .tree]
  | .enumDecl, f =>
    [.bool f.exported, .bool f.ambient, .bool f.constant, .str f.name, .tree]
  | .enumMember, name => [.str name, .tree]
  | _, f => f.arity.map fun _ => .tree

end Reify
