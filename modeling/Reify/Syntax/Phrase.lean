import Reify.Syntax.Tree

/-!
# Phrases

Names for the trees of each category and for the forms that build them.  The constructors here
are patterns as well: a function on phrases matches on them without mention of forms and
arities.
-/

namespace Reify

/-- Expressions. -/
abbrev Expr := Tree .expr

/-- Statements. -/
abbrev Stmt := Tree .stmt

/-- Patterns. -/
abbrev Pat := Tree .pat

/-- Types. -/
abbrev TypeExpr := Tree .type

/-- Members of object types. -/
abbrev TypeMember := Tree .typeMember

/-- Keys of members of object types. -/
abbrev TypeKey := Tree .typeKey

/-- Type parameters. -/
abbrev TypeParam := Tree .typeParam

/-- Parameters of signatures. -/
abbrev SigParam := Tree .sigParam

/-- Functions. -/
abbrev Func := Tree .func

/-- Function bodies. -/
abbrev FuncBody := Tree .funcBody

/-- Parameters of functions. -/
abbrev Param := Tree .param

/-- Decorators. -/
abbrev Decorator := Tree .decorator

/-- Arguments of a call. -/
abbrev Arg := Tree .arg

/-- Elements of array literals. -/
abbrev ArrayElem := Tree .arrayElem

/-- Members of object literals. -/
abbrev ObjMember := Tree .objMember

/-- Keys of class and object members. -/
abbrev MemberKey := Tree .memberKey

/-- What class and object members hold. -/
abbrev MemberVal := Tree .memberVal

/-- Members of classes. -/
abbrev ClassMember := Tree .classMember

/-- Elements of array patterns. -/
abbrev ArrayPatElem := Tree .arrayPatElem

/-- Properties of object patterns. -/
abbrev ObjPatProp := Tree .objPatProp

/-- Patterns in declarations. -/
abbrev Binding := Tree .binding

/-- Names of classes and functions. -/
abbrev Name := Tree .name

/-- Statement lists in braces. -/
abbrev Block := Tree .block

/-- `catch` clauses. -/
abbrev Handler := Tree .handler

/-- Branches of a `switch`. -/
abbrev Branch := Tree .branch

/-- First parts of `for` headers. -/
abbrev ForInit := Tree .forInit

/-- Left sides of `for … in` and `for … of` headers. -/
abbrev ForTarget := Tree .forTarget

/-- Imports. -/
abbrev ImportDecl := Tree .importDecl

/-- Named parts of imports. -/
abbrev ImportNames := Tree .importNames

/-- Single names of imports. -/
abbrev ImportName := Tree .importName

/-- Class declarations. -/
abbrev ClassDecl := Tree .classDecl

/-- Function declarations. -/
abbrev FuncDecl := Tree .funcDecl

/-- Variable declarations. -/
abbrev VarDecl := Tree .varDecl

/-- Single variables of a declaration. -/
abbrev Declarator := Tree .declarator

/-- Interface declarations. -/
abbrev InterfaceDecl := Tree .interfaceDecl

/-- Type aliases. -/
abbrev AliasDecl := Tree .aliasDecl

/-- Enum declarations. -/
abbrev EnumDecl := Tree .enumDecl

/-- Members of enums. -/
abbrev EnumMember := Tree .enumMember

/-- Compilation units. -/
abbrev SourceUnit := Tree .unit

namespace Expr

@[match_pattern] abbrev arrow (site : Site) (func : Func) : Expr :=
  .node (c := .expr) ExprForm.arrow (.two site) (.cons func .nil)

@[match_pattern] abbrev binary (site : Site) (op : Operator) (left right : Expr) : Expr :=
  .node (c := .expr) (ExprForm.binary op) (.two site) (.cons left (.cons right .nil))

@[match_pattern] abbrev call (site : Site) (optional : Bool) (callee : Expr)
    (args : Many .arg) : Expr :=
  .node (c := .expr) (ExprForm.call optional) (.two site) (.cons callee (.cons args .nil))

@[match_pattern] abbrev classExpr (site : Site) (decorators : Many .decorator)
    (name : Maybe .name) (base : Maybe .expr) (members : Many .classMember) : Expr :=
  .node (c := .expr) ExprForm.classExpr (.two site)
    (.cons decorators (.cons name (.cons base (.cons members .nil))))

@[match_pattern] abbrev index (site : Site) (optional : Bool) (object key : Expr) : Expr :=
  .node (c := .expr) (ExprForm.index optional) (.two site) (.cons object (.cons key .nil))

@[match_pattern] abbrev cond (site : Site) (test yes no : Expr) : Expr :=
  .node (c := .expr) ExprForm.cond (.two site) (.cons test (.cons yes (.cons no .nil)))

@[match_pattern] abbrev func (site : Site) (name : Maybe .name) (func : Func) : Expr :=
  .node (c := .expr) ExprForm.func (.two site) (.cons name (.cons func .nil))

@[match_pattern] abbrev ident (site : Site) (name : String) : Expr :=
  .node (c := .expr) (ExprForm.ident name) (.two site) .nil

@[match_pattern] abbrev member (site : Site) (optional : Bool) (name : String)
    (object : Expr) : Expr :=
  .node (c := .expr) (ExprForm.member optional name) (.two site) (.cons object .nil)

@[match_pattern] abbrev newCall (site : Site) (callee : Expr) (args : Many .arg) : Expr :=
  .node (c := .expr) ExprForm.newCall (.two site) (.cons callee (.cons args .nil))

@[match_pattern] abbrev super (site : Site) : Expr :=
  .node (c := .expr) ExprForm.super (.two site) .nil

@[match_pattern] abbrev this (site : Site) : Expr :=
  .node (c := .expr) ExprForm.this (.two site) .nil

@[match_pattern] abbrev unary (site : Site) (op : Operator) (operand : Expr) : Expr :=
  .node (c := .expr) (ExprForm.unary op) (.two site) (.cons operand .nil)

@[match_pattern] abbrev array (site : Site) (elems : Many .arrayElem) : Expr :=
  .node (c := .expr) ExprForm.array (.two site) (.cons elems .nil)

@[match_pattern] abbrev literal (site : Site) (value : Literal) : Expr :=
  .node (c := .expr) (ExprForm.literal value) (.two site) .nil

@[match_pattern] abbrev object (site : Site) (members : Many .objMember) : Expr :=
  .node (c := .expr) ExprForm.object (.two site) (.cons members .nil)

end Expr

namespace Stmt

@[match_pattern] abbrev block (mark : Mark) (block : Block) : Stmt :=
  .node (c := .stmt) StmtForm.block (.one mark) (.cons block .nil)

@[match_pattern] abbrev breakTo (site : Site) (label : Option String) : Stmt :=
  .node (c := .stmt) (StmtForm.breakTo label) (.two site) .nil

@[match_pattern] abbrev continueTo (site : Site) (label : Option String) : Stmt :=
  .node (c := .stmt) (StmtForm.continueTo label) (.two site) .nil

@[match_pattern] abbrev doWhile (site : Site) (test : Expr) (body : Stmt) : Stmt :=
  .node (c := .stmt) StmtForm.doWhile (.two site) (.cons test (.cons body .nil))

@[match_pattern] abbrev empty (site : Site) : Stmt :=
  .node (c := .stmt) StmtForm.empty (.two site) .nil

@[match_pattern] abbrev expr (site : Site) (expr : Expr) : Stmt :=
  .node (c := .stmt) StmtForm.expr (.two site) (.cons expr .nil)

@[match_pattern] abbrev forIn (site : Site) (target : ForTarget) (source : Expr)
    (body : Block) : Stmt :=
  .node (c := .stmt) StmtForm.forIn (.two site) (.cons target (.cons source (.cons body .nil)))

@[match_pattern] abbrev forOf (site : Site) (await : Bool) (target : ForTarget) (source : Expr)
    (body : Block) : Stmt :=
  .node (c := .stmt) (StmtForm.forOf await) (.two site)
    (.cons target (.cons source (.cons body .nil)))

@[match_pattern] abbrev forLoop (site : Site) (init : ForInit) (test update : Maybe .expr)
    (body : Block) : Stmt :=
  .node (c := .stmt) StmtForm.forLoop (.two site)
    (.cons init (.cons test (.cons update (.cons body .nil))))

@[match_pattern] abbrev ifElse (site : Site) (test : Expr) (yes : Stmt)
    (no : Maybe .stmt) : Stmt :=
  .node (c := .stmt) StmtForm.ifElse (.two site) (.cons test (.cons yes (.cons no .nil)))

@[match_pattern] abbrev importing (mark : Mark) (decl : ImportDecl) : Stmt :=
  .node (c := .stmt) StmtForm.importing (.one mark) (.cons decl .nil)

@[match_pattern] abbrev labeled (site : Site) (label : String) (body : Stmt) : Stmt :=
  .node (c := .stmt) (StmtForm.labeled label) (.two site) (.cons body .nil)

@[match_pattern] abbrev returning (site : Site) (value : Maybe .expr) : Stmt :=
  .node (c := .stmt) StmtForm.returning (.two site) (.cons value .nil)

@[match_pattern] abbrev switch (site : Site) (subject : Expr) (branches : Many .branch) : Stmt :=
  .node (c := .stmt) StmtForm.switch (.two site) (.cons subject (.cons branches .nil))

@[match_pattern] abbrev throwing (site : Site) (value : Expr) : Stmt :=
  .node (c := .stmt) StmtForm.throwing (.two site) (.cons value .nil)

@[match_pattern] abbrev trying (site : Site) (body : Block) (handler : Maybe .handler)
    (finalizer : Maybe .block) : Stmt :=
  .node (c := .stmt) StmtForm.trying (.two site)
    (.cons body (.cons handler (.cons finalizer .nil)))

@[match_pattern] abbrev whileLoop (site : Site) (test : Expr) (body : Stmt) : Stmt :=
  .node (c := .stmt) StmtForm.whileLoop (.two site) (.cons test (.cons body .nil))

@[match_pattern] abbrev classDecl (mark : Mark) (decl : ClassDecl) : Stmt :=
  .node (c := .stmt) StmtForm.classDecl (.one mark) (.cons decl .nil)

@[match_pattern] abbrev funcDecl (mark : Mark) (decl : FuncDecl) : Stmt :=
  .node (c := .stmt) StmtForm.funcDecl (.one mark) (.cons decl .nil)

@[match_pattern] abbrev varDecl (mark : Mark) (decl : VarDecl) : Stmt :=
  .node (c := .stmt) StmtForm.varDecl (.one mark) (.cons decl .nil)

@[match_pattern] abbrev interfaceDecl (mark : Mark) (decl : InterfaceDecl) : Stmt :=
  .node (c := .stmt) StmtForm.interfaceDecl (.one mark) (.cons decl .nil)

@[match_pattern] abbrev aliasDecl (mark : Mark) (decl : AliasDecl) : Stmt :=
  .node (c := .stmt) StmtForm.aliasDecl (.one mark) (.cons decl .nil)

@[match_pattern] abbrev enumDecl (mark : Mark) (decl : EnumDecl) : Stmt :=
  .node (c := .stmt) StmtForm.enumDecl (.one mark) (.cons decl .nil)

end Stmt

namespace Pat

@[match_pattern] abbrev array (site : Site) (elems : Many (.maybe .arrayPatElem))
    (rest : Maybe .pat) : Pat :=
  .node (c := .pat) PatForm.array (.two site) (.cons elems (.cons rest .nil))

@[match_pattern] abbrev ident (site : Site) (name : String) : Pat :=
  .node (c := .pat) (PatForm.ident name) (.two site) .nil

@[match_pattern] abbrev object (site : Site) (props : Many .objPatProp)
    (rest : Maybe .name) : Pat :=
  .node (c := .pat) PatForm.object (.two site) (.cons props (.cons rest .nil))

end Pat

namespace TypeExpr

@[match_pattern] abbrev keyword (site : Site) (k : TypeKeyword) : TypeExpr :=
  .node (c := .type) (TypeForm.keyword k) (.two site) .nil

@[match_pattern] abbrev reference (site : Site) (name : EntityName)
    (args : Maybe (.many .type)) : TypeExpr :=
  .node (c := .type) (TypeForm.reference name) (.two site) (.cons args .nil)

@[match_pattern] abbrev literal (site : Site) (value : TypeLiteral) : TypeExpr :=
  .node (c := .type) (TypeForm.literal value) (.two site) .nil

@[match_pattern] abbrev array (site : Site) (readonly : Bool) (elem : TypeExpr) : TypeExpr :=
  .node (c := .type) (TypeForm.array readonly) (.two site) (.cons elem .nil)

@[match_pattern] abbrev tuple (site : Site) (readonly : Bool) (elems : Many .type) : TypeExpr :=
  .node (c := .type) (TypeForm.tuple readonly) (.two site) (.cons elems .nil)

@[match_pattern] abbrev union (site : Site) (types : Many .type) : TypeExpr :=
  .node (c := .type) TypeForm.union (.two site) (.cons types .nil)

@[match_pattern] abbrev intersection (site : Site) (types : Many .type) : TypeExpr :=
  .node (c := .type) TypeForm.intersection (.two site) (.cons types .nil)

@[match_pattern] abbrev func (site : Site) (typeParams : Maybe (.many .typeParam))
    (params : Many .sigParam) (result : TypeExpr) : TypeExpr :=
  .node (c := .type) TypeForm.func (.two site)
    (.cons typeParams (.cons params (.cons result .nil)))

@[match_pattern] abbrev construct (site : Site) (abstract : Bool)
    (typeParams : Maybe (.many .typeParam)) (params : Many .sigParam)
    (result : TypeExpr) : TypeExpr :=
  .node (c := .type) (TypeForm.construct abstract) (.two site)
    (.cons typeParams (.cons params (.cons result .nil)))

@[match_pattern] abbrev object (site : Site) (members : Many .typeMember) : TypeExpr :=
  .node (c := .type) TypeForm.object (.two site) (.cons members .nil)

@[match_pattern] abbrev paren (site : Site) (inner : TypeExpr) : TypeExpr :=
  .node (c := .type) TypeForm.paren (.two site) (.cons inner .nil)

@[match_pattern] abbrev query (site : Site) (name : EntityName) : TypeExpr :=
  .node (c := .type) (TypeForm.query name) (.two site) .nil

@[match_pattern] abbrev operator (site : Site) (op : TypeOperator)
    (operand : TypeExpr) : TypeExpr :=
  .node (c := .type) (TypeForm.operator op) (.two site) (.cons operand .nil)

@[match_pattern] abbrev indexed (site : Site) (object key : TypeExpr) : TypeExpr :=
  .node (c := .type) TypeForm.indexed (.two site) (.cons object (.cons key .nil))

@[match_pattern] abbrev conditional (site : Site) (subject bound yes no : TypeExpr) : TypeExpr :=
  .node (c := .type) TypeForm.conditional (.two site)
    (.cons subject (.cons bound (.cons yes (.cons no .nil))))

@[match_pattern] abbrev infer (site : Site) (name : String) (bound : Maybe .type) : TypeExpr :=
  .node (c := .type) (TypeForm.infer name) (.two site) (.cons bound .nil)

@[match_pattern] abbrev mapped (site : Site) (name : String) (keys : TypeExpr)
    (value : Maybe .type) : TypeExpr :=
  .node (c := .type) (TypeForm.mapped name) (.two site) (.cons keys (.cons value .nil))

@[match_pattern] abbrev predicate (site : Site) (asserts : Bool) (name : String)
    (type : Maybe .type) : TypeExpr :=
  .node (c := .type) (TypeForm.predicate asserts name) (.two site) (.cons type .nil)

end TypeExpr

namespace TypeMember

@[match_pattern] abbrev property (site : Site) (readonly optional : Bool) (key : TypeKey)
    (type : Maybe .type) : TypeMember :=
  .node (c := .typeMember) (TypeMemberForm.property readonly optional) (.two site)
    (.cons key (.cons type .nil))

@[match_pattern] abbrev method (site : Site) (optional : Bool) (key : TypeKey)
    (typeParams : Maybe (.many .typeParam)) (params : Many .sigParam)
    (result : Maybe .type) : TypeMember :=
  .node (c := .typeMember) (TypeMemberForm.method optional) (.two site)
    (.cons key (.cons typeParams (.cons params (.cons result .nil))))

@[match_pattern] abbrev construct (site : Site) (typeParams : Maybe (.many .typeParam))
    (params : Many .sigParam) (result : Maybe .type) : TypeMember :=
  .node (c := .typeMember) TypeMemberForm.construct (.two site)
    (.cons typeParams (.cons params (.cons result .nil)))

@[match_pattern] abbrev call (site : Site) (typeParams : Maybe (.many .typeParam))
    (params : Many .sigParam) (result : Maybe .type) : TypeMember :=
  .node (c := .typeMember) TypeMemberForm.call (.two site)
    (.cons typeParams (.cons params (.cons result .nil)))

@[match_pattern] abbrev index (site : Site) (readonly : Bool) (name : String)
    (key value : TypeExpr) : TypeMember :=
  .node (c := .typeMember) (TypeMemberForm.index readonly name) (.two site)
    (.cons key (.cons value .nil))

end TypeMember

namespace TypeKey

@[match_pattern] abbrev ident (name : String) : TypeKey :=
  .node (c := .typeKey) (TypeKeyForm.ident name) .none .nil

@[match_pattern] abbrev str (value : String) : TypeKey :=
  .node (c := .typeKey) (TypeKeyForm.str value) .none .nil

@[match_pattern] abbrev num (text : String) : TypeKey :=
  .node (c := .typeKey) (TypeKeyForm.num text) .none .nil

@[match_pattern] abbrev computed (key : Expr) : TypeKey :=
  .node (c := .typeKey) TypeKeyForm.computed .none (.cons key .nil)

end TypeKey

namespace TypeParam

@[match_pattern] abbrev mk (mark : Mark) (name : String)
    (bound default : Maybe .type) : TypeParam :=
  .node (c := .typeParam) name (.one mark) (.cons bound (.cons default .nil))

end TypeParam

namespace SigParam

@[match_pattern] abbrev mk (mark : Mark) (form : SigParamForm) (type : Maybe .type) : SigParam :=
  .node (c := .sigParam) form (.one mark) (.cons type .nil)

end SigParam

namespace Func

@[match_pattern] abbrev mk (mark : Mark) (form : FuncForm) (typeParams : Maybe (.many .typeParam))
    (params : Many .param) (result : Maybe .type) (body : Maybe .funcBody) : Func :=
  .node (c := .func) form (.one mark)
    (.cons typeParams (.cons params (.cons result (.cons body .nil))))

end Func

namespace FuncBody

@[match_pattern] abbrev block (stmts : Many .stmt) : FuncBody :=
  .node (c := .funcBody) FuncBodyForm.block .none (.cons stmts .nil)

@[match_pattern] abbrev expr (value : Expr) : FuncBody :=
  .node (c := .funcBody) FuncBodyForm.expr .none (.cons value .nil)

end FuncBody

namespace Param

@[match_pattern] abbrev mk (mark : Mark) (form : ParamForm) (decorators : Many .decorator)
    (binding : Binding) (type : Maybe .type) (default : Maybe .expr) : Param :=
  .node (c := .param) form (.one mark)
    (.cons decorators (.cons binding (.cons type (.cons default .nil))))

end Param

namespace Decorator

@[match_pattern] abbrev mk (mark : Mark) (value : Expr) : Decorator :=
  .node (c := .decorator) () (.one mark) (.cons value .nil)

end Decorator

namespace Arg

@[match_pattern] abbrev mk (mark : Mark) (spread : Bool) (value : Expr) : Arg :=
  .node (c := .arg) spread (.one mark) (.cons value .nil)

end Arg

namespace ArrayElem

@[match_pattern] abbrev single (value : Expr) : ArrayElem :=
  .node (c := .arrayElem) ArrayElemForm.single .none (.cons value .nil)

@[match_pattern] abbrev spread (value : Expr) : ArrayElem :=
  .node (c := .arrayElem) ArrayElemForm.spread .none (.cons value .nil)

@[match_pattern] abbrev hole : ArrayElem :=
  .node (c := .arrayElem) ArrayElemForm.hole .none .nil

end ArrayElem

namespace ObjMember

@[match_pattern] abbrev valued (mark : Mark) (key : MemberKey) (val : MemberVal) : ObjMember :=
  .node (c := .objMember) ObjMemberForm.valued (.one mark) (.cons key (.cons val .nil))

@[match_pattern] abbrev shorthand (site : Site) (name : String) : ObjMember :=
  .node (c := .objMember) (ObjMemberForm.shorthand name) (.two site) .nil

@[match_pattern] abbrev spread (mark : Mark) (value : Expr) : ObjMember :=
  .node (c := .objMember) ObjMemberForm.spread (.one mark) (.cons value .nil)

end ObjMember

namespace MemberKey

@[match_pattern] abbrev direct (mark : Mark) (name : String) : MemberKey :=
  .node (c := .memberKey) (MemberKeyForm.direct name) (.one mark) .nil

@[match_pattern] abbrev computed (key : Expr) : MemberKey :=
  .node (c := .memberKey) MemberKeyForm.computed .none (.cons key .nil)

end MemberKey

namespace MemberVal

@[match_pattern] abbrev function (mark : Mark) (kind : MethodKind) (func : Func) : MemberVal :=
  .node (c := .memberVal) (MemberValForm.function kind) (.one mark) (.cons func .nil)

@[match_pattern] abbrev property (value : Maybe .expr) : MemberVal :=
  .node (c := .memberVal) MemberValForm.property .none (.cons value .nil)

@[match_pattern] abbrev index (mark : Mark) (name : String) (key value : TypeExpr) : MemberVal :=
  .node (c := .memberVal) (MemberValForm.index name) (.one mark) (.cons key (.cons value .nil))

end MemberVal

namespace ClassMember

@[match_pattern] abbrev mk (mark : Mark) (form : ClassMemberForm) (decorators : Many .decorator)
    (key : MemberKey) (type : Maybe .type) (val : MemberVal) : ClassMember :=
  .node (c := .classMember) form (.one mark)
    (.cons decorators (.cons key (.cons type (.cons val .nil))))

end ClassMember

namespace ArrayPatElem

@[match_pattern] abbrev mk (target : Pat) (default : Maybe .expr) : ArrayPatElem :=
  .node (c := .arrayPatElem) () .none (.cons target (.cons default .nil))

end ArrayPatElem

namespace ObjPatProp

@[match_pattern] abbrev mk (mark : Mark) (shorthand : Bool) (key : MemberKey) (target : Pat)
    (default : Maybe .expr) : ObjPatProp :=
  .node (c := .objPatProp) shorthand (.one mark) (.cons key (.cons target (.cons default .nil)))

end ObjPatProp

namespace Binding

@[match_pattern] abbrev mk (mark : Mark) (pat : Pat) : Binding :=
  .node (c := .binding) () (.one mark) (.cons pat .nil)

end Binding

namespace Name

@[match_pattern] abbrev mk (mark : Mark) (text : String) : Name :=
  .node (c := .name) text (.one mark) .nil

end Name

namespace Block

@[match_pattern] abbrev mk (mark : Mark) (stmts : Many .stmt) : Block :=
  .node (c := .block) () (.one mark) (.cons stmts .nil)

end Block

namespace Handler

@[match_pattern] abbrev mk (mark : Mark) (param : Maybe .binding) (type : Maybe .type)
    (stmts : Many .stmt) : Handler :=
  .node (c := .handler) () (.one mark) (.cons param (.cons type (.cons stmts .nil)))

end Handler

namespace Branch

@[match_pattern] abbrev mk (mark : Mark) (test : Maybe .expr) (stmts : Many .stmt) : Branch :=
  .node (c := .branch) () (.one mark) (.cons test (.cons stmts .nil))

end Branch

namespace ForInit

@[match_pattern] abbrev absent : ForInit :=
  .node (c := .forInit) ForInitForm.absent .none .nil

@[match_pattern] abbrev expr (value : Expr) : ForInit :=
  .node (c := .forInit) ForInitForm.expr .none (.cons value .nil)

@[match_pattern] abbrev decl (decl : VarDecl) : ForInit :=
  .node (c := .forInit) ForInitForm.decl .none (.cons decl .nil)

end ForInit

namespace ForTarget

@[match_pattern] abbrev assign (pat : Pat) : ForTarget :=
  .node (c := .forTarget) ForTargetForm.assign .none (.cons pat .nil)

@[match_pattern] abbrev decl (mode : DeclMode) (binding : Binding) : ForTarget :=
  .node (c := .forTarget) (ForTargetForm.decl mode) .none (.cons binding .nil)

end ForTarget

namespace ImportDecl

@[match_pattern] abbrev mk (mark : Mark) (form : ImportForm) (default : Maybe .binding)
    (names : Maybe .importNames) : ImportDecl :=
  .node (c := .importDecl) form (.one mark) (.cons default (.cons names .nil))

end ImportDecl

namespace ImportNames

@[match_pattern] abbrev all (binding : Binding) : ImportNames :=
  .node (c := .importNames) ImportNamesForm.all .none (.cons binding .nil)

@[match_pattern] abbrev specific (names : Many .importName) : ImportNames :=
  .node (c := .importNames) ImportNamesForm.specific .none (.cons names .nil)

end ImportNames

namespace ImportName

@[match_pattern] abbrev mk (mark : Mark) (name : String) (binding : Binding) : ImportName :=
  .node (c := .importName) name (.one mark) (.cons binding .nil)

end ImportName

namespace ClassDecl

@[match_pattern] abbrev mk (mark : Mark) (form : ClassForm) (decorators : Many .decorator)
    (name : Maybe .name) (typeParams : Maybe (.many .typeParam)) (base : Maybe .expr)
    (baseArgs : Maybe (.many .type)) (implemented : Many .type)
    (members : Many .classMember) : ClassDecl :=
  .node (c := .classDecl) form (.one mark)
    (.cons decorators (.cons name (.cons typeParams (.cons base
      (.cons baseArgs (.cons implemented (.cons members .nil)))))))

end ClassDecl

namespace FuncDecl

@[match_pattern] abbrev mk (mark : Mark) (form : FuncDeclForm) (name : Maybe .name)
    (func : Func) : FuncDecl :=
  .node (c := .funcDecl) form (.one mark) (.cons name (.cons func .nil))

end FuncDecl

namespace VarDecl

@[match_pattern] abbrev mk (mark : Mark) (form : VarForm)
    (declarators : Many .declarator) : VarDecl :=
  .node (c := .varDecl) form (.one mark) (.cons declarators .nil)

end VarDecl

namespace Declarator

@[match_pattern] abbrev mk (mark : Mark) (binding : Binding) (type : Maybe .type)
    (init : Maybe .expr) : Declarator :=
  .node (c := .declarator) () (.one mark) (.cons binding (.cons type (.cons init .nil)))

end Declarator

namespace InterfaceDecl

@[match_pattern] abbrev mk (mark : Mark) (form : TypeDeclForm)
    (typeParams : Maybe (.many .typeParam)) (bases : Many .type)
    (members : Many .typeMember) : InterfaceDecl :=
  .node (c := .interfaceDecl) form (.one mark)
    (.cons typeParams (.cons bases (.cons members .nil)))

end InterfaceDecl

namespace AliasDecl

@[match_pattern] abbrev mk (mark : Mark) (form : TypeDeclForm)
    (typeParams : Maybe (.many .typeParam)) (type : TypeExpr) : AliasDecl :=
  .node (c := .aliasDecl) form (.one mark) (.cons typeParams (.cons type .nil))

end AliasDecl

namespace EnumDecl

@[match_pattern] abbrev mk (mark : Mark) (form : EnumForm)
    (members : Many .enumMember) : EnumDecl :=
  .node (c := .enumDecl) form (.one mark) (.cons members .nil)

end EnumDecl

namespace EnumMember

@[match_pattern] abbrev mk (mark : Mark) (name : String) (value : Maybe .expr) : EnumMember :=
  .node (c := .enumMember) name (.one mark) (.cons value .nil)

end EnumMember

namespace SourceUnit

@[match_pattern] abbrev mk (mark : Mark) (stmts : Many .stmt) : SourceUnit :=
  .node (c := .unit) () (.one mark) (.cons stmts .nil)

end SourceUnit

end Reify
