import Reify.Check.Statement

/-!
# Checks of a unit

The walk that adds checks to a whole unit.  Each statement and each function is dealt with before
what is inside it, in the scope it stands in; the statements that follow a declaration are put
behind it.  Types, decorators and declarations of types are left as they are.

`Tree.fold` makes the walk of a tree out of the walks of its parts: `Form.walk` says in which
order, in which scopes and with which plans the parts are walked.
-/

namespace Reify

/-- The walk of a tree of a category.  Some walks need to know more than the tree: what a function
is to its surroundings, what becomes of an initializer, which class a member belongs to and what
the type parameters of that class are.  The walk of a statement also gives the statements that
follow it. -/
abbrev Walked : Category → Type
  | .stmt => Walk (Stmt × List Stmt)
  | .func => Role → Walk Func
  | .memberVal => Role → Walk MemberVal
  | .declarator => InitPlan → Walk Declarator
  | .varDecl => List InitPlan → Walk VarDecl
  | .classMember => Option String → List String → Walk ClassMember
  | .many c => List (Walked c)
  | .maybe c => Option (Walked c)
  | c => Walk (Tree c)

/-! ### Parts -/

/-- A statement where only one can stand; with others behind it, it becomes a block. -/
def Stmt.withFollowers (stmt : Stmt) : List Stmt → Stmt
  | [] => stmt
  | followers =>
    let mark := Mark.synthetic stmt.mark.loc
    Stmt.block mark (Block.mk mark (.ofList (stmt :: followers)))

/-- Walks a part where nothing more is known about it. -/
def Walked.run : {c : Category} → Walked c → Walk (Tree c)
  | .stmt, w => do
    let (stmt, followers) ← w
    return Stmt.withFollowers stmt followers
  | .func, w => w .function
  | .memberVal, w => w .method
  | .declarator, w => w .keep
  | .varDecl, w => w []
  | .classMember, w => w none []
  | .many _, ws => do return .ofList (← ws.mapM run)
  | .maybe _, w => do return .ofOption (← w.mapM run)
  | .expr, w | .pat, w | .type, w | .typeMember, w | .typeKey, w | .typeParam, w | .sigParam, w
  | .funcBody, w | .param, w | .decorator, w | .arg, w | .arrayElem, w | .objMember, w
  | .memberKey, w | .arrayPatElem, w | .objPatProp, w | .binding, w | .name, w | .block, w
  | .handler, w | .branch, w | .forInit, w | .forTarget, w | .importDecl, w | .importNames, w
  | .importName, w | .classDecl, w | .funcDecl, w | .interfaceDecl, w | .aliasDecl, w
  | .enumDecl, w | .enumMember, w | .unit, w => w

/-- Walks the parts of a tree in source order. -/
def Results.runAll : {cs : List Category} → Results Walked cs → Walk (Children cs)
  | [], () => return .nil
  | _ :: _, (w, ws) => do
    let t ← Walked.run w
    return .cons t (← runAll ws)

/-- Walks the parts of a tree in source order and puts them back together. -/
def Form.walkParts {c : Category} (form : Form c) (marks : Marks form.width)
    (ws : Results Walked form.arity) : Walk (Tree c) :=
  return .node form marks (← Results.runAll ws)

/-! ### Statement lists -/

/-- The names that a statement declares in its whole list. -/
def Stmt.hoisted : Stmt → List String
  | Stmt.importing _ decl => ImportDecl.bindings decl
  | Stmt.funcDecl _ (FuncDecl.mk _ _ name _) => name.toOption.toList.map Name.text
  | _ => []

/-- Walks the statements of a list. -/
def walkList (stmts : List Stmt) (walks : List (Walk (Stmt × List Stmt))) : Walk (List Stmt) := do
  (stmts.flatMap Stmt.hoisted).forM fun name => Walk.change (·.declare name)
  let groups ← walks.mapM fun w => do
    let (stmt, followers) ← w
    return stmt :: followers
  return groups.flatten

/-- Walks the statements of a list inside the unit. -/
def walkInner (stmts : Many .stmt) (walks : List (Walk (Stmt × List Stmt))) :
    Walk (Many .stmt) :=
  Walk.framed stmts.toList do return .ofList (← walkList stmts.toList walks)

/-! ### Statements -/

/-- Whether a statement counts as changed when the walk comes to it. -/
def Stmt.isRecorded : Stmt → Bool
  | Stmt.classDecl _ _ | Stmt.interfaceDecl _ _ | Stmt.aliasDecl _ _ | Stmt.varDecl _ _ => true
  | _ => false

/-- Works out what is added to a statement, unless this walk has done so before. -/
def planStmtOnce (stmt : Stmt) : Walk (StmtPlan × List Stmt) := do
  let id := stmt.mark.id
  if ← Walk.read (·.wasVisited id) then return (.keep, [])
  if Stmt.isRecorded stmt then Walk.change (·.recordMutation id)
  let (plan, r) ← planStmt stmt
  Walk.report r
  Walk.change (·.markVisited id)
  return (plan, r.toOption.getD [])

/-- Works out what happens to the initializers of a variable declaration in a loop header, unless
this walk has done so before. -/
def planVarOnce (decl : VarDecl) : Walk (List InitPlan) := do
  let id := decl.mark.id
  if ← Walk.read (·.wasVisited id) then return []
  Walk.change (·.recordMutation id)
  let (plans, r) ← planVar decl
  Walk.report r
  Walk.change (·.markVisited id)
  return plans

/-- Walks the parts of a statement. -/
def StmtForm.walkParts (plans : List InitPlan) : (form : StmtForm) → Marks form.width →
    Results Walked form.arity → Walk Stmt
  | .block, .one mark, (inner, ()) => do return Stmt.block mark (← Walk.inScope inner)
  | .doWhile, .two site, (test, body, ()) => do
    let body ← Walked.run (c := .stmt) body
    return Stmt.doWhile site (← test) body
  | .forIn, marks, ws => Walk.inScope (Form.walkParts (c := .stmt) .forIn marks ws)
  | .forOf await, marks, ws => Walk.inScope (Form.walkParts (c := .stmt) (.forOf await) marks ws)
  | .forLoop, marks, ws => Walk.inScope (Form.walkParts (c := .stmt) .forLoop marks ws)
  | .switch, .two site, (subject, branches, ()) => do
    let subject ← subject
    return Stmt.switch site subject (← Walk.inScope (Walked.run (c := .many .branch) branches))
  | .trying, .two site, (body, handler, finalizer, ()) => do
    let body ← Walk.inScope body
    let handler ← Walked.run (c := .maybe .handler) handler
    return Stmt.trying site body handler (← finalizer.mapM Walk.inScope)
  | .varDecl, .one mark, (decl, ()) => do return Stmt.varDecl mark (← decl plans)
  | form, marks, ws => Form.walkParts (c := .stmt) form marks ws

/-! ### The walk -/

/-- Walks a tree, given the walks of its parts. -/
def Form.walk : Step Walked
  | .stmt, form, marks, children, ws => do
    let (plan, followers) ← planStmtOnce (.node (c := .stmt) form marks children)
    let stmt ← StmtForm.walkParts plan.initPlans form marks ws
    return (plan.apply stmt, followers)
  | .func, form, .one mark, children, (_, params, _, body, ()) => fun role => do
    let func : Func := .node (c := .func) form (.one mark) children
    let r ← planFuncOnce role func
    Walk.report r
    let .cons typeParams (.cons _ (.cons result (.cons _ .nil))) := children
    let walked ← Walk.inScope <| Walk.withGenerics (Func.typeParamNames func) .constant do
      let params ← Walked.run (c := .many .param) params
      return Func.mk mark form typeParams params result
        (← Walked.run (c := .maybe .funcBody) body)
    match r with
    | .ok (some plan) => return plan.apply walked
    | _ => return walked
  | .funcBody, .block, .none, .cons stmts .nil, (ws, ()) => do
    return FuncBody.block (← walkInner stmts ws)
  | .block, (), .one mark, .cons stmts .nil, (ws, ()) => do
    return Block.mk mark (← walkInner stmts ws)
  | .handler, (), .one mark, .cons _ (.cons type (.cons stmts .nil)), (param, _, ws, ()) =>
    Walk.inScope do
      let param ← Walked.run (c := .maybe .binding) param
      return Handler.mk mark param type (← walkInner stmts ws)
  | .branch, (), .one mark, .cons _ (.cons stmts .nil), (test, ws, ()) => do
    let test ← Walked.run (c := .maybe .expr) test
    return Branch.mk mark test (← walkInner stmts ws)
  | .forInit, .decl, .none, .cons decl .nil, (w, ()) => do
    let plans ← planVarOnce decl
    return ForInit.decl (VarDecl.applyInits plans (← w plans))
  | .varDecl, form, .one mark, _, (ws, ()) => fun plans => do
    let plans := plans ++ List.replicate (ws.length - plans.length) .keep
    return VarDecl.mk mark form (.ofList (← (ws.zip plans).mapM fun (w, plan) => w plan))
  | .declarator, (), .one mark, .cons _ (.cons type (.cons init .nil)), (binding, _, w, ()) =>
    fun plan => do
      let binding ← binding
      match plan with
      | .drop => return Declarator.mk mark binding type init
      | _ => return Declarator.mk mark binding type (← Walked.run (c := .maybe .expr) w)
  | .classDecl, form, .one mark,
      children@(.cons decorators (.cons name (.cons typeParams (.cons _ (.cons baseArgs
        (.cons implemented (.cons _ .nil))))))), (_, _, _, base, _, _, members, ()) => do
    let decl : ClassDecl := .node (c := .classDecl) form (.one mark) children
    let base ← Walked.run (c := .maybe .expr) base
    let names := typeParams.toLists.map TypeParam.name
    let members ← members.mapM fun w => w (ClassDecl.name? decl) names
    return ClassDecl.mk mark form decorators name typeParams base baseArgs implemented
      (.ofList members)
  | .classMember, form, .one mark,
      children@(.cons decorators (.cons _ (.cons type (.cons _ .nil)))),
      (_, key, _, val, ()) => fun className names => do
    let member : ClassMember := .node (c := .classMember) form (.one mark) children
    let key ← key
    let val ← Walk.withGenerics names (ClassMember.access className member)
      (val (ClassMember.role member))
    return ClassMember.mk mark form decorators key type val
  | .memberVal, form, marks, children, ws => fun role =>
    match form, marks, children, ws with
    | .function kind, .one mark, _, (func, ()) => do
      return MemberVal.function mark kind (← func role)
    | .property, .none, _, (value, ()) => do
      return MemberVal.property (← Walked.run (c := .maybe .expr) value)
    | .index name, marks, children, _ =>
      return .node (c := .memberVal) (.index name) marks children
  | .objMember, .valued, .one mark, .cons _ (.cons val .nil), (key, w, ()) => do
    let key ← key
    return ObjMember.valued mark key (← w (MemberVal.role val))
  | .many _, _, _, _, ws => Results.toList ws
  | .maybe _, true, _, _, (w, ()) => some w
  | .maybe _, false, _, _, () => none
  | .unit, (), .one mark, .cons stmts .nil, (ws, ()) => do
    return SourceUnit.mk mark (.ofList (← walkList stmts.toList ws))
  | .expr, form, marks, _, ws | .pat, form, marks, _, ws | .funcBody, form, marks, _, ws
  | .param, form, marks, _, ws | .arg, form, marks, _, ws | .arrayElem, form, marks, _, ws
  | .objMember, form, marks, _, ws | .memberKey, form, marks, _, ws
  | .arrayPatElem, form, marks, _, ws | .objPatProp, form, marks, _, ws
  | .binding, form, marks, _, ws | .forInit, form, marks, _, ws | .forTarget, form, marks, _, ws
  | .funcDecl, form, marks, _, ws => Form.walkParts form marks ws
  | .name, form, marks, ts, _ | .type, form, marks, ts, _ | .typeMember, form, marks, ts, _
  | .typeKey, form, marks, ts, _ | .typeParam, form, marks, ts, _ | .sigParam, form, marks, ts, _
  | .decorator, form, marks, ts, _ | .importDecl, form, marks, ts, _
  | .importNames, form, marks, ts, _ | .importName, form, marks, ts, _
  | .interfaceDecl, form, marks, ts, _ | .aliasDecl, form, marks, ts, _
  | .enumDecl, form, marks, ts, _ | .enumMember, form, marks, ts, _ =>
    return Tree.node form marks ts

/-- Adds checks to the statements of a unit. -/
def SourceUnit.walk (unit : SourceUnit) : Walk SourceUnit :=
  unit.fold (X := Walked) Form.walk

/-! ### Units -/

/-- The imports that the added checks need. -/
def libraryImports (options : Options) (loc : Loc) : List Stmt :=
  (if options.moduleAliasing then [Synthetic.importStmt loc none "module-alias/register"] else [])
    ++ [Synthetic.importStmt loc (some options.library) options.libraryModule]

/-- The unit with the imports that the added checks need. -/
def SourceUnit.withImports (options : Options) : SourceUnit → SourceUnit
  | SourceUnit.mk mark stmts =>
    .mk mark (.ofList (libraryImports options mark.loc ++ stmts.toList))

/-- Adds checks to a unit.  The imports are added only if every type has a reflection. -/
def instrument (unit : SourceUnit) : Walk SourceUnit := do
  let unit ← SourceUnit.walk unit
  let w ← get
  if !w.errors.isEmpty then return unit
  Walk.log (.event .debug "unit mutated" [("mutations", .int w.context.mutations.length)])
  return SourceUnit.withImports w.context.scope.options unit

end Reify
