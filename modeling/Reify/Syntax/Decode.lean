import Reify.Json.Scanner
import Reify.Syntax.Encode

/-!
# Trees from JSON

A record may be written as an object, where unknown keys are ignored and no known key may
repeat, or as an array of all its fields.  An optional part may be left out or be `null`.
Likewise an alternative may be written as an array that starts with its tag.

A tag is a name.  Some more spellings are open to a value that lies inside one with an inline
tag: a tag next to the fields or at the start of an array may be the position of the
alternative in its category's list, and a name may stand as the key of an empty object.
-/

namespace Reify

/-! ### Records and alternatives -/

/-- A JSON value with its surroundings: whether it lies inside a value with an inline tag. -/
structure Part where
  json : Json
  inside : Bool

/-- The value of a field, if the field is present. -/
abbrev Datum := Option Part

namespace Part

/-- The values of the named fields of a record. -/
def fields? (names : List String) : Part → Option (List Datum)
  | ⟨.obj members, inside⟩ =>
    let known := members.filter fun (key, _) => names.contains key
    if (known.map Prod.fst).Nodup then
      some (names.map fun name => (known.lookup name).map (⟨·, inside⟩))
    else none
  | ⟨.arr items, inside⟩ =>
    if items.length = names.length then some (items.map fun item => some ⟨item, inside⟩) else none
  | _ => none

/-- A value that stands for a name alone: a string, or an object that maps it to nothing. -/
def name? : Part → Option String
  | ⟨.str s, _⟩ => some s
  | ⟨.obj [(key, .null)], _⟩ => some key
  | ⟨.obj [(key, .obj [])], true⟩ => some key
  | _ => none

/-- The alternative that a tag names, by its name or, where that is allowed, by its position. -/
def variant? (variants : List Variant) : Part → Option Variant
  | ⟨.str s, _⟩ => variants.find? (·.tag == s)
  | ⟨.int n, true⟩ => if 0 ≤ n then variants[n.toNat]? else none
  | _ => none

/-- An alternative whose tag stands next to its fields, and what remains for the fields. -/
def inline? (variants : List Variant) : Part → Option (Variant × Part)
  | ⟨.obj members, inside⟩ =>
    match members.partition fun (key, _) => key == tagKey with
    | ([(_, tag)], rest) => (variant? variants ⟨tag, inside⟩).map (·, ⟨.obj rest, true⟩)
    | _ => none
  | ⟨.arr (tag :: rest), inside⟩ =>
    (variant? variants ⟨tag, inside⟩).map (·, ⟨.arr rest, true⟩)
  | _ => none

/-- An alternative whose tag stands beside its content: under a key of its own, or first in an
array of the two. -/
def wrapped? (variants : List Variant) (part : Part) : Option (Variant × Datum) := do
  let [some tag, content] ← part.fields? [tagKey, contentKey] | none
  match part.json with
  | .arr _ => return (← tag.variant? variants, content)
  | _ =>
    let name ← tag.name?
    return (← variants.find? (·.tag == name), content)

end Part

/-- The values of an alternative's fields. -/
def Body.values? (body : Body) (content : Datum) : Option (List Datum) :=
  match body with
  | .fields names => content.bind (·.fields? names)
  | .bare => some [content]
  | .empty =>
    match content with
    | none | some ⟨.null, _⟩ => some []
    | _ => none

/-- The alternative of a value, and the values of its fields. -/
def Style.open? (style : Style) (variants : List Variant) (part : Part) :
    Option (String × List Datum) := do
  match style with
  | .plain =>
    let variant ← variants.head?
    return (variant.tag, ← variant.body.values? part)
  | .inline =>
    let (variant, rest) ← part.inline? variants
    return (variant.tag, ← variant.body.values? rest)
  | .wrapped =>
    let (variant, content) ← part.wrapped? variants
    return (variant.tag, ← variant.body.values? content)
  | .nested field =>
    let [some inner] ← part.fields? [field] | none
    let (variant, rest) ← inner.inline? variants
    return (variant.tag, ← variant.body.values? rest)

/-! ### Data -/

namespace Datum

/-- A flag. -/
def bool : Datum → Option Bool
  | some ⟨.bool b, _⟩ => some b
  | _ => none

/-- A string. -/
def str : Datum → Option String
  | some ⟨.str s, _⟩ => some s
  | _ => none

/-- A string or nothing. -/
def strOrNull : Datum → Option (Option String)
  | none | some ⟨.null, _⟩ => some none
  | some ⟨.str s, _⟩ => some (some s)
  | _ => none

/-- A number. -/
def double : Datum → Option Double
  | some ⟨.int n, _⟩ => some (.ofInt n)
  | some ⟨.float x, _⟩ => some x
  | _ => none

/-- One of a closed set of names. -/
def keyword {α : Type} (ofName? : String → Option α) (field : Datum) : Option α :=
  field.bind Part.name? |>.bind ofName?

/-- An accessibility modifier or nothing. -/
def access : Datum → Option (Option Accessibility)
  | none | some ⟨.null, _⟩ => some none
  | field => some <$> field.keyword Accessibility.ofName?

/-- The alternatives of a possibly qualified name. -/
def entityVariants : List Variant :=
  Variant.table [("Identifier", ["name"]), ("Qualified", ["left", "right"])]

/-- A possibly qualified name, with at most `fuel` parts. -/
def entityWithin : Nat → Part → Option EntityName
  | 0, _ => none
  | fuel + 1, part => do
    match ← Style.inline.open? entityVariants part with
    | ("Identifier", [name]) => .ident <$> str name
    | ("Qualified", [left, right]) =>
      return .qualified (← left.bind (entityWithin fuel)) (← str right)
    | _ => none

/-- A possibly qualified name. -/
def entity (field : Datum) : Option EntityName :=
  field.bind fun part => entityWithin (part.json.depth + 1) part

/-- The alternatives of a literal. -/
def literalVariants : List Variant := [⟨"Boolean", .bare⟩, ⟨"Number", .bare⟩, ⟨"String", .bare⟩]

/-- A literal type. -/
def typeLiteral (field : Datum) : Option TypeLiteral := do
  match ← Style.wrapped.open? literalVariants (← field) with
  | ("Boolean", [b]) => .bool <$> bool b
  | ("Number", [s]) => .num <$> str s
  | ("String", [s]) => .str <$> str s
  | _ => none

/-- An identifier in an object of its own. -/
def named (field : Datum) : Option String := do
  let [name] ← field.bind (·.fields? ["name"]) | none
  str name

end Datum

/-- A possibly qualified name on its own. -/
def EntityName.ofJson? (value : Json) : Option EntityName := Datum.entity (some ⟨value, false⟩)

/-- An operator on its own. -/
def Operator.ofJson? (value : Json) : Option Operator :=
  Datum.keyword Operator.ofName? (some ⟨value, false⟩)

open Datum in
/-- The expression of a tag and its fields. -/
def ExprForm.ofFields? : String → List Datum → Option ExprForm
  | "ArrowFunc", [_] => some arrow
  | "Binary", [op, _, _] => binary <$> op.keyword Operator.ofName?
  | "Call", [optional, _, _] => call <$> bool optional
  | "Class", [_, _, _, _] => some classExpr
  | "ComputedMember", [optional, _, _] => index <$> bool optional
  | "Cond", [_, _, _] => some cond
  | "Func", [_, _] => some func
  | "Id", [name] => ident <$> str name
  | "Member", [optional, _, name] => member <$> bool optional <*> str name
  | "New", [_, _] => some newCall
  | "Super", [] => some super
  | "This", [] => some this
  | "Unary", [op, _] => unary <$> op.keyword Operator.ofName?
  | "LitArr", [_] => some array
  | "LitBool", [value] => (literal ∘ .bool) <$> bool value
  | "LitNull", [] => some (literal .null)
  | "LitNum", [value] => (literal ∘ .num) <$> double value
  | "LitObj", [_] => some object
  | "LitStr", [value] => (literal ∘ .str) <$> str value
  | _, _ => none

open Datum in
/-- The statement of a tag and its fields. -/
def StmtForm.ofFields? : String → List Datum → Option StmtForm
  | "Block", [_] => some block
  | "Break", [label] => breakTo <$> strOrNull label
  | "Continue", [label] => continueTo <$> strOrNull label
  | "DoWhile", [_, _] => some doWhile
  | "Empty", [] => some empty
  | "Expr", [_] => some expr
  | "ForIn", [_, _, _] => some forIn
  | "ForOf", [await, _, _, _] => forOf <$> bool await
  | "ForTriple", [_, _, _, _] => some forLoop
  | "If", [_, _, _] => some ifElse
  | "Import", [_] => some importing
  | "Label", [name, _] => labeled <$> str name
  | "Return", [_] => some returning
  | "Switch", [_, _] => some switch
  | "Throw", [_] => some throwing
  | "Try", [_, _, _] => some trying
  | "While", [_, _] => some whileLoop
  | "ClassDecl", [_] => some classDecl
  | "FunctionDecl", [_] => some funcDecl
  | "VarDecl", [_] => some varDecl
  | "InterfaceDecl", [_] => some interfaceDecl
  | "TypeAliasDecl", [_] => some aliasDecl
  | "EnumDecl", [_] => some enumDecl
  | _, _ => none

open Datum in
/-- The pattern of a tag and its fields. -/
def PatForm.ofFields? : String → List Datum → Option PatForm
  | "Arr", [_, _] => some array
  | "Id", [name] => ident <$> str name
  | "Obj", [_, _] => some object
  | _, _ => none

open Datum in
/-- The type of a tag and its fields. -/
def TypeForm.ofFields? : String → List Datum → Option TypeForm
  | "TypeReference", [name, _] => reference <$> entity name
  | "LiteralType", [value] => literal <$> typeLiteral value
  | "ArrayType", [readonly, _] => array <$> bool readonly
  | "TupleType", [readonly, _] => tuple <$> bool readonly
  | "UnionType", [_] => some union
  | "IntersectionType", [_] => some intersection
  | "FunctionType", [_, _, _] => some func
  | "ConstructorType", [abstract, _, _, _] => construct <$> bool abstract
  | "ObjectType", [_] => some object
  | "ParenthesizedType", [_] => some paren
  | "TypeQuery", [name] => query <$> entity name
  | "TypeOperator", [op, _] => operator <$> op.keyword TypeOperator.ofName?
  | "IndexedAccessType", [_, _] => some indexed
  | "ConditionalType", [_, _, _, _] => some conditional
  | "InferType", [name, _] => infer <$> str name
  | "MappedType", [name, _, _] => mapped <$> str name
  | "TypePredicate", [asserts, name, _] => predicate <$> bool asserts <*> str name
  | tag, [] => keyword <$> TypeKeyword.ofName? tag
  | _, _ => none

open Datum in
/-- The type member of a tag and its fields. -/
def TypeMemberForm.ofFields? : String → List Datum → Option TypeMemberForm
  | "Property", [readonly, optional, _, _] => property <$> bool readonly <*> bool optional
  | "Method", [optional, _, _, _, _] => method <$> bool optional
  | "Constructor", [_, _, _] => some construct
  | "CallSignature", [_, _, _] => some call
  | "IndexSignature", [readonly, name, _, _] => index <$> bool readonly <*> str name
  | _, _ => none

open Datum in
/-- The type member's key of a tag and its content. -/
def TypeKeyForm.ofFields? : String → List Datum → Option TypeKeyForm
  | "Identifier", [s] => ident <$> Datum.str s
  | "String", [s] => TypeKeyForm.str <$> Datum.str s
  | "Number", [s] => num <$> Datum.str s
  | "Computed", [_] => some computed
  | _, _ => none

open Datum in
/-- The object member of a tag and its fields. -/
def ObjMemberForm.ofFields? : String → List Datum → Option ObjMemberForm
  | "Valued", [_, _] => some valued
  | "Shorthand", [id] => shorthand <$> named id
  | "Rest", [_] => some spread
  | _, _ => none

open Datum in
/-- The member key of a tag and its content. -/
def MemberKeyForm.ofFields? : String → List Datum → Option MemberKeyForm
  | "Direct", [name] => direct <$> str name
  | "Computed", [_] => some computed
  | _, _ => none

open Datum in
/-- What a member holds, of a tag and its content. -/
def MemberValForm.ofFields? : String → List Datum → Option MemberValForm
  | "Getter", [_] => some (function .getter)
  | "Setter", [_] => some (function .setter)
  | "Method", [_] => some (function .method)
  | "Prop", [_] => some property
  | "IndexSignature", [name, _, _] => index <$> str name
  | _, _ => none

open Datum in
/-- The form of a tag and its fields. -/
def Form.ofFields? : (c : Category) → String → List Datum → Option (Form c)
  | .expr, tag, fs => ExprForm.ofFields? tag fs
  | .stmt, tag, fs => StmtForm.ofFields? tag fs
  | .pat, tag, fs => PatForm.ofFields? tag fs
  | .type, tag, fs => TypeForm.ofFields? tag fs
  | .typeMember, tag, fs => TypeMemberForm.ofFields? tag fs
  | .typeKey, tag, fs => TypeKeyForm.ofFields? tag fs
  | .typeParam, _, [name, _, _] => str name
  | .sigParam, _, [name, optional, rest, _] =>
    SigParamForm.mk <$> str name <*> bool optional <*> bool rest
  | .func, _, [arrow, async, generator, _, _, _, _] =>
    FuncForm.mk <$> bool arrow <*> bool async <*> bool generator
  | .funcBody, "Block", _ => some FuncBodyForm.block
  | .funcBody, "Expression", _ => some FuncBodyForm.expr
  | .param, _, [_, rest, optional, access, readonly, _, _, _] =>
    ParamForm.mk <$> bool rest <*> bool optional <*> access.access <*> bool readonly
  | .decorator, _, _ => some ()
  | .arg, _, [spread, _] => bool spread
  | .arrayElem, "Single", _ => some ArrayElemForm.single
  | .arrayElem, "Rest", _ => some ArrayElemForm.spread
  | .arrayElem, "Empty", _ => some ArrayElemForm.hole
  | .objMember, tag, fs => ObjMemberForm.ofFields? tag fs
  | .memberKey, tag, fs => MemberKeyForm.ofFields? tag fs
  | .memberVal, tag, fs => MemberValForm.ofFields? tag fs
  | .classMember, _, [_, _, static, readonly, optional, access, _, _] =>
    ClassMemberForm.mk <$> bool static <*> bool readonly <*> bool optional <*> access.access
  | .arrayPatElem, _, _ => some ()
  | .objPatProp, _, [_, _, shorthand, _] => bool shorthand
  | .binding, _, _ => some ()
  | .name, _, [name] => str name
  | .block, _, _ => some ()
  | .handler, _, _ => some ()
  | .branch, _, _ => some ()
  | .forInit, "None", _ => some ForInitForm.absent
  | .forInit, "Expr", _ => some ForInitForm.expr
  | .forInit, "Decl", _ => some ForInitForm.decl
  | .forTarget, "Assign", _ => some ForTargetForm.assign
  | .forTarget, "Decl", [mode, _] => ForTargetForm.decl <$> mode.keyword DeclMode.ofName?
  | .importDecl, _, [typeOnly, _, _, source] => ImportForm.mk <$> bool typeOnly <*> str source
  | .importNames, "All", _ => some ImportNamesForm.all
  | .importNames, "Specific", _ => some ImportNamesForm.specific
  | .importName, _, [name, _] => str name
  | .classDecl, _, [_, exported, exportedDefault, ambient, abstract, _, _, _, _, _, _] =>
    ClassForm.mk <$> bool exported <*> bool exportedDefault <*> bool ambient <*> bool abstract
  | .funcDecl, _, [exported, exportedDefault, _, _] =>
    FuncDeclForm.mk <$> bool exported <*> bool exportedDefault
  | .varDecl, _, [exported, mode, _] =>
    VarForm.mk <$> bool exported <*> mode.keyword DeclMode.ofName?
  | .declarator, _, _ => some ()
  | .interfaceDecl, _, [exported, ambient, name, _, _, _] =>
    TypeDeclForm.mk <$> bool exported <*> bool ambient <*> str name
  | .aliasDecl, _, [exported, ambient, name, _, _] =>
    TypeDeclForm.mk <$> bool exported <*> bool ambient <*> str name
  | .enumDecl, _, [exported, ambient, constant, name, _] =>
    EnumForm.mk <$> bool exported <*> bool ambient <*> bool constant <*> str name
  | .enumMember, _, [name, _] => str name
  | .unit, _, _ => some ()
  | _, _, _ => none

/-! ### Trees -/

/-- The values of the fields that hold subtrees. -/
def Slot.subtrees : List Slot → List Datum → List Datum
  | .tree :: slots, f :: fs => f :: subtrees slots fs
  | .datum _ :: slots, _ :: fs => subtrees slots fs
  | _, _ => []

/-- Reads one tree for each category. -/
def Children.ofFields? (read : (c : Category) → Datum → Option (Tree c)) :
    (cs : List Category) → List Datum → Option (Children cs)
  | [], _ => some .nil
  | c :: cs, f :: fs => do return .cons (← read c f) (← ofFields? read cs fs)
  | _ :: _, [] => none

/-- Synthetic marks without a place. -/
def Marks.blank : (n : Nat) → n ≤ 2 → Marks n
  | 0, _ => .none
  | 1, _ => .one {}
  | 2, _ => .two {}

/-- The spelling of literal types.  A literal type has a tag of its own next to that of its
literal, so an object cannot hold both: in the plain spelling only an array can.  In the
explicit spelling an object may hold the literal, as a value on its own, under a key. -/
inductive Spelling where
  | plain
  | explicit
deriving DecidableEq, Repr

/-- The literal that a literal type in the explicit spelling holds. -/
def Spelling.literal? : Spelling → Json → Option Json
  | .explicit, .obj members =>
    if members.lookup tagKey matches some (.str "LiteralType") then members.lookup "literal"
    else none
  | _, _ => none

namespace Tree

/-- A node whose form is given, with the subtrees that its fields hold. -/
def ofForm? (read : (c : Category) → Datum → Option (Tree c)) {c : Category} (form : Form c)
    (fields : List Datum) : Option (Tree c) := do
  let children ← Children.ofFields? read form.arity (Slot.subtrees form.slots fields)
  return .node form (.blank _ form.width_le) children

/-- Reads a tree that is at most `fuel` deep. -/
def ofDatumWithin (spelling : Spelling) : Nat → (c : Category) → Datum → Option (Tree c)
  | 0, _, _ => none
  | fuel + 1, .many c, some ⟨.arr items, inside⟩ =>
    ofList <$> items.mapM fun item => ofDatumWithin spelling fuel c (some ⟨item, inside⟩)
  | _ + 1, .many _, _ => none
  | _ + 1, .maybe _, none => some (ofOption none)
  | _ + 1, .maybe _, some ⟨.null, _⟩ => some (ofOption none)
  | fuel + 1, .maybe c, field => (ofOption ∘ some) <$> ofDatumWithin spelling fuel c field
  | fuel + 1, c, field => do
    let part ← field
    let (tag, fields) ← match c, spelling.literal? part.json with
      | .type, some literal => pure ("LiteralType", [some ⟨literal, false⟩])
      | c, _ => c.style.open? c.variants part
    ofForm? (ofDatumWithin spelling fuel) (← Form.ofFields? c tag fields) fields

/-- Reads a tree; all its nodes are synthetic. -/
def ofJson? (spelling : Spelling) (c : Category) (value : Json) : Option (Tree c) :=
  ofDatumWithin spelling (4 * value.depth + 4) c (some ⟨value, false⟩)

end Tree

end Reify
