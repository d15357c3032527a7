import Reify.Syntax.Encode
import Reify.Syntax.Phrase

/-!
# Questions about phrases

Names that phrases bind or are known by, and simple tests on their outermost forms.
-/

namespace Reify

/-! ### Types -/

/-- The name by which a kind of type is reported. -/
def TypeForm.kindName : TypeForm → String
  | keyword .any => "AnyKeyword"
  | keyword .void => "VoidKeyword"
  | keyword .string => "StringKeyword"
  | keyword .number => "NumberKeyword"
  | keyword .boolean => "BooleanKeyword"
  | keyword .symbol => "SymbolKeyword"
  | keyword .object => "ObjectKeyword"
  | keyword .null => "NullKeyword"
  | keyword .undefined => "UndefinedKeyword"
  | keyword .this => "ThisType"
  | reference _ => "TypeReference"
  | literal _ => "LiteralType"
  | array _ => "ArrayType"
  | tuple _ => "TupleType"
  | union => "UnionType"
  | intersection => "IntersectionType"
  | func => "FunctionType"
  | construct _ => "ConstructorType"
  | object => "TypeLiteral"
  | paren => "ParenthesizedType"
  | query _ => "TypeQuery"
  | operator _ => "TypeOperator"
  | indexed => "IndexedAccessType"
  | conditional => "ConditionalType"
  | infer _ => "TypeParameter"
  | mapped _ => "MappedType"
  | predicate _ _ => "TypePredicate"

namespace TypeExpr

/-- The name by which a kind of type is reported. -/
def kindName (t : TypeExpr) : String := TypeForm.kindName t.form

/-- Whether a type is the keyword `any`. -/
def isAny (t : TypeExpr) : Bool :=
  match t.form with
  | .keyword .any => true
  | _ => false

/-- The place of a type. -/
def loc : TypeExpr → Loc
  | .node (c := .type) _ (.two site) _ => site.loc

end TypeExpr

/-! ### Expressions -/

/-- The place of an expression. -/
def Expr.loc : Expr → Loc
  | .node (c := .expr) _ (.two site) _ => site.loc

/-- Whether the outermost form of a tree is the expression `this`. -/
def Form.isThis : {c : Category} → Form c → Bool
  | .expr, ExprForm.this => true
  | _, _ => false

/-- Whether `this` occurs anywhere in a tree. -/
def Tree.mentionsThis {c : Category} : Tree c → Bool :=
  fold (X := fun _ => Bool) fun f _ _ rs => f.isThis || rs.values.any id

/-! ### Names -/

/-- The name, if the pattern is a plain identifier. -/
def Pat.ident? : Pat → Option String
  | Pat.ident _ name => some name
  | _ => none

/-- The name, if a plain identifier is declared. -/
def Binding.ident? : Binding → Option String
  | Binding.mk _ pat => Pat.ident? pat

/-- The text of a class or function name. -/
def Name.text : Name → String
  | Name.mk _ text => text

/-- The name of a type parameter. -/
def TypeParam.name : TypeParam → String
  | TypeParam.mk _ name _ _ => name

/-- The name, unless the key is computed. -/
def MemberKey.direct? : MemberKey → Option String
  | MemberKey.direct _ name => some name
  | MemberKey.computed _ => none

/-- The function that a member holds. -/
def MemberVal.func? : MemberVal → Option Func
  | MemberVal.function _ _ func => some func
  | _ => none

namespace Param

/-- The pattern of a parameter. -/
def binding : Param → Binding
  | Param.mk _ _ _ binding _ _ => binding

/-- The name of a parameter; destructuring parameters have none. -/
def name? (p : Param) : Option String := Binding.ident? p.binding

/-- A parameter named `this` only declares the type of the receiver. -/
def isReceiver (p : Param) : Bool := p.name? == some "this"

/-- The name under which the parameter at a position is reflected. -/
def reflectedName (p : Param) (index : Nat) : String := p.name?.getD ("_arg" ++ toString index)

end Param

/-- The names of a function's type parameters. -/
def Func.typeParamNames : Func → List String
  | Func.mk _ _ typeParams _ _ _ => typeParams.toLists.map TypeParam.name

/-- Whether a class member is the constructor or one of its overloads. -/
def ClassMember.isConstructor : ClassMember → Bool
  | ClassMember.mk _ form _ key _ val =>
    !form.static && MemberKey.direct? key == some "constructor" &&
      match val with
      | MemberVal.function _ .method _ => true
      | _ => false

/-- The name that the key of a type member spells out. -/
def TypeKey.name? : TypeKey → Option String
  | TypeKey.ident name => some name
  | TypeKey.str value => some value
  | _ => none

/-- The names that an import binds. -/
def ImportDecl.bindings : ImportDecl → List String
  | ImportDecl.mk _ _ default names =>
    (default.toOption.bind Binding.ident?).toList ++
      match names.toOption with
      | some (ImportNames.all binding) => (Binding.ident? binding).toList
      | some (ImportNames.specific names) =>
        names.toList.filterMap fun
          | ImportName.mk _ _ binding => Binding.ident? binding
      | none => []

end Reify
