import Reify.Reflection.Numeral
import Reify.Reflection.Overload
import Reify.Scope

/-!
# Reflection

The expression that builds the run-time reflection of a type with the runtime library:
`string[]` becomes `_t.array(_t.string())`.  A reference to a type becomes a reference to the
value of the same name, deferred if that value is not declared yet; type parameters are reached
as the scope says.

Types that have no value at run time cannot be reflected (`Unsupported`).
-/

namespace Reify

/-- A type that has no reflection. -/
structure Unsupported where
  kind : String
  loc : Loc
deriving DecidableEq, Repr, Inhabited

namespace Scope

/-- `lib.name(args…)` -/
def libraryCall (s : Scope) (loc : Loc) (name : String) (args : List Expr) : Expr :=
  Synthetic.methodCall loc (Synthetic.ident loc s.options.library) name args

/-- A reflection that admits `null` and `undefined`, if the options ask for it. -/
def nullable (s : Scope) (loc : Loc) (reflection : Expr) : Expr :=
  if s.options.wrapsNullable then s.libraryCall loc "n" [reflection] else reflection

/-- `lib.name(args…)`, nullable if the options ask for it -/
def primitive (s : Scope) (loc : Loc) (name : String) (args : List Expr) : Expr :=
  s.nullable loc (s.libraryCall loc name args)

end Scope

/-- `reflection.assert(args…)` -/
def assertion (loc : Loc) (reflection : Expr) (args : List Expr) : Expr :=
  Synthetic.methodCall loc reflection "assert" args

/-- A name as a chain of members: `A.B.C`. -/
def EntityName.toExpr (loc : Loc) : EntityName → Expr
  | ident name => Synthetic.ident loc name
  | qualified left right => Synthetic.member loc (left.toExpr loc) right

/-- A key as an expression. -/
def TypeKey.toExpr (loc : Loc) : TypeKey → Expr
  | TypeKey.ident name => Synthetic.str loc name
  | TypeKey.str value => Synthetic.str loc value
  | TypeKey.num text => numeral loc text
  | TypeKey.computed key => key.detach

namespace Reflection

/-- The result of reflecting something. -/
abbrev Result := Except Unsupported

/-- A function that reflects types, given the type parameters bound around them. -/
abbrev Reflector := List String → TypeExpr → Result Expr

/-- The expression for a type parameter in scope. -/
def typeParam? (s : Scope) (bound : List String) (loc : Loc) (name : String) : Option Expr :=
  if bound.contains name then some (Synthetic.ident loc name)
  else (s.access? name).map fun
    | .constant => Synthetic.ident loc name
    | .ofInstance className =>
      let symbol := Synthetic.member loc (Synthetic.ident loc s.options.library)
        "TypeParametersSymbol"
      let key := Synthetic.index loc (Synthetic.ident loc className) symbol
      Synthetic.member loc (Synthetic.index loc (Synthetic.this loc) key) name
    | .ofConstructor =>
      Synthetic.member loc (Synthetic.ident loc (s.options.localName "typeParameters")) name
    | .erased => s.libraryCall loc "any" []

section

variable (s : Scope) (reflect : Reflector)

/-- A type, where none reflects as `any`. -/
def optional (bound : List String) (loc : Loc) : Option TypeExpr → Result Expr
  | some t => reflect bound t
  | none => return s.libraryCall loc "any" []

/-- A reference to a named type. -/
def reference (bound : List String) (loc : Loc) (name : EntityName) (args : List TypeExpr) :
    Result Expr := do
  match name.ident?.bind (typeParam? s bound loc) with
  | some e => return e
  | none =>
    let args ← args.mapM (reflect bound)
    if name.ident?.any (·.toLower == "array") then return s.primitive loc "array" args
    let target := name.toExpr loc
    let target := if s.wasDeclared name.leftmost then target
      else s.libraryCall loc "tdz" [Synthetic.thunk loc target]
    return s.primitive loc "ref" (target :: args)

/-- `const T = factory.typeParameter("T", bound)` for each type parameter, each visible to the
next; also what is bound after them. -/
def typeParamConsts (factory : String) : List String → List TypeParam →
    Result (List Stmt × List String)
  | bound, [] => return ([], bound)
  | bound, .node (c := .typeParam) name (.one mark) (.cons constraint (.cons _ .nil)) :: rest => do
    let loc := mark.loc
    let args ← match constraint.toOption with
      | some t => do pure [← reflect bound t]
      | none => pure []
    let value := Synthetic.methodCall loc (Synthetic.ident loc factory) "typeParameter"
      (Synthetic.str loc name :: args)
    let (stmts, bound) ← typeParamConsts factory (name :: bound) rest
    return (Synthetic.constStmt loc name value :: stmts, bound)

/-- `(factory) => { const T = factory.typeParameter("T"); return body; }`, where the type
parameters are bound in the body. -/
def factory (bound : List String) (loc : Loc) (name : String) (params : List TypeParam)
    (body : List String → Result Expr) : Result Expr := do
  let (stmts, bound) ← typeParamConsts reflect name bound params
  let value ← body bound
  return Synthetic.arrow loc [name] (.block (.ofList (stmts ++ [Synthetic.returnStmt loc value])))

/-- `param("x", T)`, `param("x", T, true)` for an optional parameter, `rest("xs", T)` for a rest
parameter -/
def parameter (loc : Loc) (name : String) (reflection : Expr) (rest optional : Bool) : Expr :=
  let args := [Synthetic.str loc name, reflection]
  if rest then s.libraryCall loc "rest" args
  else s.libraryCall loc "param" (if optional then args ++ [Synthetic.bool loc true] else args)

/-- The parameters of a signature and its result. -/
def signature (bound : List String) (loc : Loc) (params : List SigParam)
    (result : Option TypeExpr) : Result (List Expr) := do
  let args ← params.mapM fun
    | SigParam.mk mark form type => do
      let reflection ← optional s reflect bound mark.loc type.toOption
      return parameter s mark.loc form.name reflection form.rest form.optional
  let result ← optional s reflect bound loc result
  return args ++ [s.libraryCall loc "return" [result]]

/-- `function(param(…)…, return(R))`, through a factory if there are type parameters -/
def function (bound : List String) (loc : Loc) (typeParams : List TypeParam)
    (params : List SigParam) (result : Option TypeExpr) : Result Expr := do
  if typeParams.isEmpty then
    return s.libraryCall loc "function" (← signature s reflect bound loc params result)
  else
    let body ← factory reflect bound loc (s.options.localName "fn") typeParams fun bound => do
      return Synthetic.array loc (← signature s reflect bound loc params result)
    return s.libraryCall loc "function" [body]

/-- The name of the library function for a member; static members have their own. -/
def memberKind (static : Bool) (name : String) : String :=
  if static then "static" ++ name.capitalize else name

/-- One member, after merging. -/
def member (bound : List String) (entry : MemberEntry) : Result Expr := do
  let flag (loc : Loc) (optional : Bool) : List Expr :=
    if optional then [Synthetic.bool loc true] else []
  match entry.member with
  | TypeMember.property site _ optional key type =>
    let loc := site.loc
    let type ← Reflection.optional s reflect bound loc type.toOption
    return s.libraryCall loc (memberKind entry.static "property")
      ([TypeKey.toExpr loc key, type] ++ flag loc optional)
  | TypeMember.method site optional key typeParams params result =>
    let loc := site.loc
    let f ← function s reflect bound loc typeParams.toLists params.toList result.toOption
    return s.libraryCall loc (memberKind entry.static "property")
      ([TypeKey.toExpr loc key, s.nullable loc f] ++ flag loc optional)
  | TypeMember.call site typeParams params result =>
    let loc := site.loc
    let f ← function s reflect bound loc typeParams.toLists params.toList result.toOption
    return s.libraryCall loc (memberKind entry.static "callProperty") [f]
  | TypeMember.construct site typeParams params result =>
    let loc := site.loc
    let f ← function s reflect bound loc typeParams.toLists params.toList result.toOption
    return s.libraryCall loc (memberKind entry.static "callProperty") [f]
  | TypeMember.index site _ name key value =>
    let loc := site.loc
    let key ← reflect bound key
    let value ← reflect bound value
    return s.libraryCall loc (memberKind entry.static "indexer")
      [Synthetic.str loc name, key, value]

/-- The members of a list, overloads merged. -/
def members (bound : List String) (entries : List MemberEntry) : Result (List Expr) :=
  (mergeOverloads entries).mapM (member s reflect bound)

/-- A literal type. -/
def literal (loc : Loc) : TypeLiteral → Expr
  | .bool b => s.primitive loc "boolean" [Synthetic.bool loc b]
  | .num text => s.primitive loc "number" [numeral loc text]
  | .str value => s.primitive loc "string" [Synthetic.str loc value]

/-- A type that is a single keyword. -/
def keyword (loc : Loc) : TypeKeyword → Expr
  | .any => s.libraryCall loc "any" []
  | .null => s.libraryCall loc "null" []
  | .void =>
    s.libraryCall loc "union" [s.libraryCall loc "null" [], s.libraryCall loc "void" []]
  | .undefined => s.primitive loc "void" []
  | .this => s.primitive loc "this" [Synthetic.this loc]
  | .number => s.primitive loc "number" []
  | .boolean => s.primitive loc "boolean" []
  | .string => s.primitive loc "string" []
  | .symbol => s.primitive loc "symbol" []
  | .object => s.primitive loc "object" []

/-- The outermost form of a type, given how its parts are reflected. -/
def step (bound : List String) : TypeExpr → Result Expr
  | TypeExpr.paren _ t => reflect bound t
  | TypeExpr.keyword site k => return keyword s site.loc k
  | TypeExpr.literal site value => return literal s site.loc value
  | TypeExpr.array site _ elem => do return s.primitive site.loc "array" [← reflect bound elem]
  | TypeExpr.tuple site _ elems => do
    return s.primitive site.loc "tuple" (← elems.toList.mapM (reflect bound))
  | TypeExpr.union site types => do
    return s.primitive site.loc "union" (← types.toList.mapM (reflect bound))
  | TypeExpr.intersection site types => do
    return s.primitive site.loc "intersection" (← types.toList.mapM (reflect bound))
  | TypeExpr.reference site name args => reference s reflect bound site.loc name args.toLists
  | TypeExpr.func site typeParams params result => do
    return s.nullable site.loc
      (← function s reflect bound site.loc typeParams.toLists params.toList result)
  | TypeExpr.construct site _ typeParams params result => do
    return s.nullable site.loc
      (← function s reflect bound site.loc typeParams.toLists params.toList result)
  | TypeExpr.object site members => do
    return s.primitive site.loc "object"
      (← Reflection.members s reflect bound (members.toList.map MemberEntry.ofMember))
  | TypeExpr.query site name => return s.primitive site.loc "typeOf" [name.toExpr site.loc]
  | t => throw ⟨TypeExpr.kindName t, TypeExpr.loc t⟩

end

end Reflection

/-- How many trees are nested in a tree, itself included. -/
def Tree.height {c : Category} : Tree c → Nat :=
  fold (X := fun _ => Nat) fun _ _ _ rs => rs.values.foldl max 0 + 1

namespace Scope

/-- Reflects a type that is at most `fuel` high. -/
def reflectWithin (s : Scope) : Nat → Reflection.Reflector
  | 0, _, t => throw ⟨TypeExpr.kindName t, TypeExpr.loc t⟩
  | fuel + 1, bound, t => Reflection.step s (s.reflectWithin fuel) bound t

/-- Reflects a type, with the given type parameters bound by factories around it. -/
def reflectUnder (s : Scope) : Reflection.Reflector :=
  fun bound t => s.reflectWithin t.height bound t

/-- Reflects a type. -/
def reflect (s : Scope) (t : TypeExpr) : Except Unsupported Expr := s.reflectUnder [] t

/-- Reflects a type that may be left out. -/
def reflectOption (s : Scope) (loc : Loc) (t : Option TypeExpr) : Except Unsupported Expr :=
  Reflection.optional s s.reflectUnder [] loc t

end Scope

end Reify
