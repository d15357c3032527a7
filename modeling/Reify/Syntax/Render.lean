import Reify.Json
import Reify.Syntax.Phrase

/-!
# Source text

The text of a tree on one line.  Text is made from the leaves up; where parentheses depend on
what stands inside, the outermost form of a phrase is kept beside its text.

The text of a type decides which overloads count as equal, so different spellings of one type
keep different texts.  Comments, line breaks and optional semicolons have no place in it.
-/

namespace Reify

/-! ### Pieces -/

namespace Text

/-- Text in parentheses. -/
def parens (s : String) : String := "(" ++ s ++ ")"

/-- Text in parentheses if need be. -/
def parensIf (need : Bool) (s : String) : String := if need then parens s else s

/-- Text in braces with a space on both sides. -/
def braces (s : String) : String := "\x7b " ++ s ++ " \x7d"

/-- Empty braces. -/
def emptyBraces : String := "\x7b\x7d"

/-- Items in braces, with nothing between the braces if there are none. -/
def bracesOf (separator : String) (items : List String) : String :=
  if items.isEmpty then emptyBraces else braces (separator.intercalate items)

/-- Items with a comma between them. -/
def commas (items : List String) : String := ", ".intercalate items

/-- A word and a space, if the flag is set. -/
def flag (on : Bool) (word : String) : String := if on then word ++ " " else ""

/-- An optional text after a lead. -/
def lead (before : String) : Option String → String
  | none => ""
  | some s => before ++ s

/-- Type parameters; an empty list is not written. -/
def typeParams : Option (List String) → String
  | none | some [] => ""
  | some items => "<" ++ commas items ++ ">"

/-- Type arguments; an empty list is written. -/
def typeArgs : Option (List String) → String
  | none => ""
  | some items => "<" ++ commas items ++ ">"

end Text

open Text

/-- The text of an expression and its outermost form. -/
structure ExprText where
  form : ExprForm
  text : String

/-- The text of a type and its outermost form. -/
structure TypeText where
  form : TypeForm
  text : String

/-- The text of a function body. -/
inductive BodyText where
  | block (text : String)
  | expr (text : String)

/-- The parts of a function's text, which is put together differently after an arrow, a name
and a key. -/
structure FuncText where
  async : Bool
  generator : Bool
  signature : String
  body : Option BodyText

/-- The text of what a member holds. -/
inductive ValText where
  | function (kind : MethodKind) (func : FuncText)
  | property (value : Option String)
  | index (text : String)

namespace ExprForm

/-- How tightly the outermost form of an expression binds. -/
def precedence : ExprForm → Nat
  | arrow => 2
  | cond => 3
  | binary op => op.precedence
  | unary _ => 15
  | _ => 20

/-- Forms that can be called or accessed without parentheses. -/
def isCallee : ExprForm → Bool
  | ident _ | this | super | call _ | member _ _ | index _ | array => true
  | literal (.num _) => false
  | literal _ => true
  | _ => false

/-- Forms that would be read as something else at the start of a statement. -/
def opensStatement : ExprForm → Bool
  | func | classExpr | object => true
  | _ => false

end ExprForm

namespace ExprText

/-- The text where only expressions that bind at least as tightly as `least` go bare. -/
def operand (e : ExprText) (least : Nat) : String := parensIf (e.form.precedence < least) e.text

/-- The text where a call or an access follows. -/
def callee (e : ExprText) : String := parensIf (!e.form.isCallee) e.text

/-- The text where a comma would end the expression. -/
def item (e : ExprText) : String := e.operand 2

/-- The text after the arrow of a function: an object literal there would be read as a block. -/
def body (e : ExprText) : String :=
  match e.form with
  | .object => parens e.text
  | _ => e.item

end ExprText

/-- Types that need parentheses inside array, union and intersection types. -/
def TypeForm.isLoose : TypeForm → Bool
  | func | construct _ | union | intersection | conditional => true
  | _ => false

/-- The text where another type operator follows or precedes. -/
def TypeText.operand (t : TypeText) : String := parensIf t.form.isLoose t.text

/-- A type after a colon. -/
def ascription (t : Option TypeText) : String := lead ": " (t.map TypeText.text)

/-- A default value or an initializer. -/
def initializer (e : Option ExprText) : String := lead " = " (e.map ExprText.item)

/-- Statements in braces. -/
def blockText (stmts : List String) : String := bracesOf " " stmts

namespace FuncText

/-- A function after its keyword, name or key. -/
def tail (f : FuncText) : String :=
  f.signature ++
    match f.body with
    | none => ";"
    | some (.block s) => " " ++ s
    | some (.expr s) => " => " ++ s

/-- An arrow function. -/
def arrow (f : FuncText) : String :=
  flag f.async "async" ++ f.signature ++ " => " ++
    match f.body with
    | none => emptyBraces
    | some (.block s) | some (.expr s) => s

/-- A function with its keyword, up to its name. -/
def keyword (f : FuncText) : String :=
  flag f.async "async" ++ "function" ++ if f.generator then "*" else ""

end FuncText

/-- A class from its keyword on. -/
def classText (name : Option String) (params : Option (List String)) (base : Option ExprText)
    (baseArgs : Option (List String)) (implemented : List String) (members : List String) :
    String :=
  "class" ++ lead " " name ++ typeParams params ++
    lead " extends " (base.map fun b => b.callee ++ typeArgs baseArgs) ++
    (if implemented.isEmpty then "" else " implements " ++ commas implemented) ++ " " ++
    bracesOf " " members

/-! ### The text of each form -/

/-- The texts of the trees of a category. -/
abbrev Text : Category → Type
  | .expr => ExprText
  | .type => TypeText
  | .func => FuncText
  | .funcBody => BodyText
  | .memberVal => ValText
  | .many c => List (Text c)
  | .maybe c => Option (Text c)
  | _ => String

/-- The text of a literal. -/
def Literal.text : Literal → String
  | bool true => "true"
  | bool false => "false"
  | null => "null"
  | num x => x.literalText
  | str s => Json.quote s

/-- The text of a literal type. -/
def TypeLiteral.text : TypeLiteral → String
  | bool true => "true"
  | bool false => "false"
  | num s => s
  | str s => Json.quote s

/-- The text of an expression. -/
def ExprForm.render : (f : ExprForm) → Results Text f.arity → String
  | .arrow, (f, ()) => f.arrow
  | .binary op, (l, r, ()) =>
    let left := if op.isRightAssociative then op.precedence + 1 else op.precedence
    let right := if op.isRightAssociative then op.precedence else op.precedence + 1
    l.operand left ++ (if op = .comma then ", " else " " ++ op.text ++ " ") ++ r.operand right
  | .call optional, (f, args, ()) =>
    f.callee ++ (if optional then "?." else "") ++ parens (commas args)
  | .classExpr, (_, name, base, members, ()) => classText name none base none [] members
  | .index optional, (e, key, ()) =>
    e.callee ++ (if optional then "?.[" else "[") ++ key.text ++ "]"
  | .cond, (test, yes, no, ()) =>
    test.operand 4 ++ " ? " ++ yes.item ++ " : " ++ no.item
  | .func, (name, f, ()) => f.keyword ++ " " ++ name.getD "" ++ f.tail
  | .ident name, () => name
  | .member optional name, (e, ()) => e.callee ++ (if optional then "?." else ".") ++ name
  | .newCall, (f, args, ()) => "new " ++ f.callee ++ parens (commas args)
  | .super, () => "super"
  | .this, () => "this"
  | .unary op, (e, ()) => op.text ++ (if op.isKeyword then " " else "") ++ e.operand 15
  | .array, (elems, ()) => "[" ++ commas elems ++ "]"
  | .literal v, () => v.text
  | .object, (members, ()) => bracesOf ", " members

/-- The text of a statement. -/
def StmtForm.render : (f : StmtForm) → Results Text f.arity → String
  | .block, (b, ()) => b
  | .breakTo label, () => "break" ++ lead " " label ++ ";"
  | .continueTo label, () => "continue" ++ lead " " label ++ ";"
  | .doWhile, (test, body, ()) => "do " ++ body ++ " while (" ++ test.text ++ ");"
  | .empty, () => ";"
  | .expr, (e, ()) => parensIf e.form.opensStatement e.text ++ ";"
  | .forIn, (target, source, body, ()) =>
    "for (" ++ target ++ " in " ++ source.text ++ ") " ++ body
  | .forOf await, (target, source, body, ()) =>
    (if await then "for await (" else "for (") ++ target ++ " of " ++ source.text ++ ") " ++ body
  | .forLoop, (init, test, update, body, ()) =>
    "for (" ++ init ++ "; " ++ lead "" (test.map ExprText.text) ++ "; " ++
      lead "" (update.map ExprText.text) ++ ") " ++ body
  | .ifElse, (test, yes, no, ()) => "if (" ++ test.text ++ ") " ++ yes ++ lead " else " no
  | .importing, (decl, ()) => decl
  | .labeled label, (body, ()) => label ++ ": " ++ body
  | .returning, (value, ()) => "return" ++ lead " " (value.map ExprText.text) ++ ";"
  | .switch, (subject, branches, ()) =>
    "switch (" ++ subject.text ++ ") \x7b " ++ "".intercalate branches ++ "\x7d"
  | .throwing, (value, ()) => "throw " ++ value.text ++ ";"
  | .trying, (body, handler, finalizer, ()) =>
    "try " ++ body ++ lead " catch " handler ++ lead " finally " finalizer
  | .whileLoop, (test, body, ()) => "while (" ++ test.text ++ ") " ++ body
  | .classDecl, (decl, ()) => decl
  | .funcDecl, (decl, ()) => decl
  | .varDecl, (decl, ()) => decl ++ ";"
  | .interfaceDecl, (decl, ()) => decl
  | .aliasDecl, (decl, ()) => decl
  | .enumDecl, (decl, ()) => decl

/-- The text of a pattern. -/
def PatForm.render : (f : PatForm) → Results Text f.arity → String
  | .array, (elems, rest, ()) =>
    "[" ++ commas (elems.map (·.getD "") ++ (rest.map ("..." ++ ·)).toList) ++ "]"
  | .ident name, () => name
  | .object, (props, rest, ()) => braces (commas (props ++ (rest.map ("..." ++ ·)).toList))

/-- The text of a type. -/
def TypeForm.render : (f : TypeForm) → Results Text f.arity → String
  | .keyword k, () => k.text
  | .reference name, (args, ()) => name.text ++ typeArgs (args.map (·.map TypeText.text))
  | .literal v, () => v.text
  | .array readonly, (elem, ()) => flag readonly "readonly" ++ elem.operand ++ "[]"
  | .tuple readonly, (elems, ()) =>
    flag readonly "readonly" ++ "[" ++ commas (elems.map TypeText.text) ++ "]"
  | .union, (types, ()) => " | ".intercalate (types.map TypeText.operand)
  | .intersection, (types, ()) => " & ".intercalate (types.map TypeText.operand)
  | .func, (tps, params, result, ()) =>
    typeParams tps ++ parens (commas params) ++ " => " ++ result.text
  | .construct abstract, (tps, params, result, ()) =>
    flag abstract "abstract" ++ "new " ++ typeParams tps ++ parens (commas params) ++ " => " ++
      result.text
  | .object, (members, ()) => bracesOf "; " members
  | .paren, (t, ()) => parens t.text
  | .query name, () => "typeof " ++ name.text
  | .operator op, (t, ()) => op.text ++ " " ++ t.operand
  | .indexed, (t, key, ()) => t.operand ++ "[" ++ key.text ++ "]"
  | .conditional, (subject, bound, yes, no, ()) =>
    subject.operand ++ " extends " ++ bound.operand ++ " ? " ++ yes.text ++ " : " ++ no.text
  | .infer name, (bound, ()) => "infer " ++ name ++ lead " extends " (bound.map TypeText.text)
  | .mapped name, (keys, value, ()) =>
    braces ("[" ++ name ++ " in " ++ keys.text ++ "]" ++ ascription value)
  | .predicate asserts name, (t, ()) =>
    flag asserts "asserts" ++ name ++ lead " is " (t.map TypeText.text)

/-- The text of a member of an object type. -/
def TypeMemberForm.render : (f : TypeMemberForm) → Results Text f.arity → String
  | .property readonly optional, (key, t, ()) =>
    flag readonly "readonly" ++ key ++ (if optional then "?" else "") ++ ascription t
  | .method optional, (key, tps, params, result, ()) =>
    key ++ (if optional then "?" else "") ++ typeParams tps ++ parens (commas params) ++
      ascription result
  | .construct, (tps, params, result, ()) =>
    "new " ++ typeParams tps ++ parens (commas params) ++ ascription result
  | .call, (tps, params, result, ()) =>
    typeParams tps ++ parens (commas params) ++ ascription result
  | .index readonly name, (key, value, ()) =>
    flag readonly "readonly" ++ "[" ++ name ++ ": " ++ key.text ++ "]: " ++ value.text

/-- The text of a key of an object type. -/
def TypeKeyForm.render : (f : TypeKeyForm) → Results Text f.arity → String
  | .ident name, () => name
  | .str value, () => Json.quote value
  | .num text, () => text
  | .computed, (e, ()) => "[" ++ e.text ++ "]"

/-- The text of a function body. -/
def FuncBodyForm.render : (f : FuncBodyForm) → Results Text f.arity → BodyText
  | .block, (stmts, ()) => .block (blockText stmts)
  | .expr, (e, ()) => .expr e.body

/-- The text of an array element. -/
def ArrayElemForm.render : (f : ArrayElemForm) → Results Text f.arity → String
  | .single, (e, ()) => e.item
  | .spread, (e, ()) => "..." ++ e.item
  | .hole, () => ""

/-- The text of a member of an object literal. -/
def ObjMemberForm.render : (f : ObjMemberForm) → Results Text f.arity → String
  | .valued, (key, val, ()) =>
    match val with
    | .property (some e) => key ++ ": " ++ e
    | .function .getter f => "get " ++ key ++ f.tail
    | .function .setter f => "set " ++ key ++ f.tail
    | .function .method f => key ++ f.tail
    | .property none | .index _ => key
  | .shorthand name, () => name
  | .spread, (e, ()) => "..." ++ e.item

/-- The text of a member key. -/
def MemberKeyForm.render : (f : MemberKeyForm) → Results Text f.arity → String
  | .direct name, () => name
  | .computed, (e, ()) => "[" ++ e.text ++ "]"

/-- The text of what a member holds. -/
def MemberValForm.render : (f : MemberValForm) → Results Text f.arity → ValText
  | .function kind, (f, ()) => .function kind f
  | .property, (e, ()) => .property (e.map ExprText.item)
  | .index name, (key, value, ()) =>
    .index ("[" ++ name ++ ": " ++ key.text ++ "]: " ++ value.text)

/-- The text of a class member. -/
def ClassMemberForm.render (f : ClassMemberForm) (decorators : List String) (key : String)
    (type : Option TypeText) (val : ValText) : String :=
  "".intercalate decorators ++ flag f.static "static" ++ flag f.readonly "readonly" ++
    match val with
    | .function .getter g => "get " ++ key ++ g.tail
    | .function .setter g => "set " ++ key ++ g.tail
    | .function .method g =>
      flag g.async "async" ++ (if g.generator then "*" else "") ++ key ++
        (if f.optional then "?" else "") ++ g.tail
    | .property e =>
      key ++ (if f.optional then "?" else "") ++ ascription type ++ lead " = " e ++ ";"
    | .index s => s ++ ";"

/-- The text of a parameter. -/
def ParamForm.render (f : ParamForm) (decorators : List String) (binding : String)
    (type : Option TypeText) (default : Option ExprText) : String :=
  "".intercalate decorators ++ (if f.rest then "..." else "") ++ binding ++
    (if f.optional then "?" else "") ++ ascription type ++ initializer default

/-- The text of the first part of a `for` header. -/
def ForInitForm.render : (f : ForInitForm) → Results Text f.arity → String
  | .absent, () => ""
  | .expr, (e, ()) => e.text
  | .decl, (d, ()) => d

/-- The text of the left side of a `for` header. -/
def ForTargetForm.render : (f : ForTargetForm) → Results Text f.arity → String
  | .assign, (p, ()) => p
  | .decl mode, (b, ()) => mode.keyword ++ " " ++ b

/-- The text of the named part of an import. -/
def ImportNamesForm.render : (f : ImportNamesForm) → Results Text f.arity → String
  | .all, (b, ()) => "* as " ++ b
  | .specific, (names, ()) => braces (commas names)

/-- The text of an import. -/
def ImportForm.render (f : ImportForm) (default names : Option String) : String :=
  let clauses := default.toList ++ names.toList
  "import " ++ flag f.typeOnly "type" ++
    (if clauses.isEmpty then "" else commas clauses ++ " from ") ++ Json.quote f.source ++ ";"

/-- The text of an interface declaration. -/
def interfaceText (f : TypeDeclForm) (params : Option (List String)) (bases : List TypeText)
    (members : List String) : String :=
  flag f.exported "export" ++ "interface " ++ f.name ++ typeParams params ++
    (if bases.isEmpty then "" else " extends " ++ commas (bases.map TypeText.text)) ++ " " ++
    if members.isEmpty then emptyBraces
    else "\x7b " ++ "".intercalate (members.map (· ++ "; ")) ++ "\x7d"

/-- The text of each form, from the texts of its parts. -/
def Form.render : {c : Category} → (f : Form c) → Results Text f.arity → Text c
  | .expr, f, rs => ⟨f, ExprForm.render f rs⟩
  | .stmt, f, rs => StmtForm.render f rs
  | .pat, f, rs => PatForm.render f rs
  | .type, f, rs => ⟨f, TypeForm.render f rs⟩
  | .typeMember, f, rs => TypeMemberForm.render f rs
  | .typeKey, f, rs => TypeKeyForm.render f rs
  | .typeParam, name, (bound, default, ()) =>
    name ++ lead " extends " (bound.map TypeText.text) ++ lead " = " (default.map TypeText.text)
  | .sigParam, f, (t, ()) =>
    (if f.rest then "..." else "") ++ f.name ++ (if f.optional then "?" else "") ++ ascription t
  | .func, f, (tps, params, result, body, ()) =>
    ⟨f.async, f.generator, typeParams tps ++ parens (commas params) ++ ascription result, body⟩
  | .funcBody, f, rs => FuncBodyForm.render f rs
  | .param, f, (decorators, binding, t, default, ()) =>
    ParamForm.render f decorators binding t default
  | .decorator, _, (e, ()) => "@" ++ e.callee ++ " "
  | .arg, spread, (e, ()) => (if spread then "..." else "") ++ e.item
  | .arrayElem, f, rs => ArrayElemForm.render f rs
  | .objMember, f, rs => ObjMemberForm.render f rs
  | .memberKey, f, rs => MemberKeyForm.render f rs
  | .memberVal, f, rs => MemberValForm.render f rs
  | .classMember, f, (decorators, key, t, val, ()) =>
    ClassMemberForm.render f decorators key t val
  | .arrayPatElem, _, (p, default, ()) => p ++ lead " = " (default.map ExprText.text)
  | .objPatProp, shorthand, (key, p, default, ()) =>
    (if shorthand then p else key ++ ": " ++ p) ++ lead " = " (default.map ExprText.text)
  | .binding, _, (p, ()) => p
  | .name, text, () => text
  | .block, _, (stmts, ()) => blockText stmts
  | .handler, _, (param, t, stmts, ()) =>
    lead "" (param.map fun p => parens (p ++ ascription t) ++ " ") ++ blockText stmts
  | .branch, _, (test, stmts, ()) =>
    (match test with
      | some e => "case " ++ e.text ++ ": "
      | none => "default: ") ++ "".intercalate (stmts.map (· ++ " "))
  | .forInit, f, rs => ForInitForm.render f rs
  | .forTarget, f, rs => ForTargetForm.render f rs
  | .importDecl, f, (default, names, ()) => ImportForm.render f default names
  | .importNames, f, rs => ImportNamesForm.render f rs
  | .importName, name, (b, ()) => if b == name then b else name ++ " as " ++ b
  | .classDecl, f, (decorators, name, tps, base, baseArgs, implemented, members, ()) =>
    "".intercalate decorators ++ flag f.exported "export" ++ flag f.exportedDefault "default" ++
      flag f.ambient "declare" ++ flag f.abstract "abstract" ++
      classText name tps base (baseArgs.map (·.map TypeText.text))
        (implemented.map TypeText.text) members
  | .funcDecl, f, (name, func, ()) =>
    flag f.exported "export" ++ flag f.exportedDefault "default" ++ func.keyword ++
      lead " " name ++ func.tail
  | .varDecl, f, (declarators, ()) =>
    flag f.exported "export" ++ f.mode.keyword ++ " " ++ commas declarators
  | .declarator, _, (b, t, init, ()) => b ++ ascription t ++ initializer init
  | .interfaceDecl, f, (tps, bases, members, ()) => interfaceText f tps bases members
  | .aliasDecl, f, (tps, t, ()) =>
    flag f.exported "export" ++ "type " ++ f.name ++ typeParams tps ++ " = " ++ t.text ++ ";"
  | .enumDecl, f, (members, ()) =>
    flag f.exported "export" ++ flag f.constant "const" ++ "enum " ++ f.name ++ " " ++
      braces (commas members)
  | .enumMember, name, (value, ()) => name ++ lead " = " (value.map ExprText.text)
  | .unit, _, (stmts, ()) => "\n".intercalate stmts
  | .many _, _, rs => rs.toList
  | .maybe _, false, () => none
  | .maybe _, true, (x, ()) => some x

namespace Tree

/-- The text of a tree. -/
def render {c : Category} : Tree c → Text c := fold fun f _ _ rs => f.render rs

end Tree

/-- The text of a type. -/
def TypeExpr.text (t : TypeExpr) : String := t.render.text

/-- The text of an expression. -/
def Expr.text (e : Expr) : String := e.render.text

/-- The text of a statement. -/
def Stmt.text (s : Stmt) : String := s.render

/-- The text of statements, one on a line. -/
def Stmt.lines (ss : List Stmt) : String := "\n".intercalate (ss.map Stmt.text)

/-- The text of a unit. -/
def SourceUnit.text (u : SourceUnit) : String := u.render

end Reify
