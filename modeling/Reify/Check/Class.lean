import Reify.Check.Walker

/-!
# Checks of classes

A class declaration is annotated with its reflection.  Its functions get their checks, its typed
properties a decorator.  The constructor asserts that the object implements what the class says
it implements and, in a generic class, keeps the type parameters on the object; if the class has
no constructor, one is made.
-/

namespace Reify

/-! ### Members -/

/-- How the type parameters of a class are reached from one of its members.  A class without a
name has no symbol to reach them through. -/
def memberAccess (className : Option String) (static constructor : Bool) : ParamAccess :=
  match className with
  | none => .erased
  | some name =>
    if constructor then .ofConstructor else if static then .erased else .ofInstance name

/-- What the function of a member is to its object. -/
def MemberVal.role : MemberVal → Role
  | MemberVal.function _ .getter _ => .getter
  | MemberVal.function _ .setter _ => .setter
  | _ => .method

namespace ClassMember

/-- Whether a member is static. -/
def isStatic : ClassMember → Bool
  | ClassMember.mk _ form _ _ _ _ => form.static

/-- What the function of a member is to the class. -/
def role : ClassMember → Role
  | m@(ClassMember.mk _ _ _ _ _ val) =>
    if ClassMember.isConstructor m then .constructor else MemberVal.role val

/-- How the type parameters of the class are reached from a member. -/
def access (className : Option String) (m : ClassMember) : ParamAccess :=
  memberAccess className (ClassMember.isStatic m) (ClassMember.isConstructor m)

end ClassMember

/-- What is added to a class member. -/
inductive MemberPlan where
  | keep
  /-- Checks of its function. -/
  | check (plan : FuncPlan)
  /-- A decorator in front. -/
  | decorate (decorator : Decorator)

/-- The class member after the plan. -/
def MemberPlan.apply : MemberPlan → ClassMember → ClassMember
  | check plan, ClassMember.mk mark form decorators key type (MemberVal.function m kind func) =>
    .mk mark form decorators key type (.function m kind (plan.apply func))
  | decorate d, ClassMember.mk mark form decorators key type val =>
    .mk mark form (.ofList (d :: decorators.toList)) key type val
  | _, m => m

/-- Applies plans to as many members as there are plans. -/
def applyMembers : List MemberPlan → List ClassMember → List ClassMember
  | p :: ps, m :: ms => p.apply m :: applyMembers ps ms
  | _, ms => ms

/-- A reflection as a property's decorator takes it: where it reads `this` it must wait until the
decorator runs. -/
def deferredReflection (loc : Loc) (reflection : Expr) : Expr :=
  if reflection.mentionsThis then Synthetic.function loc [Synthetic.returnStmt loc reflection]
  else reflection

/-- Works out what is added to a class member. -/
def planMember (className : Option String) (names : List String) (m : ClassMember) :
    Walk (Except Unsupported MemberPlan) := do
  let access := ClassMember.access className m
  match m with
  | ClassMember.mk mark _ _ _ type val =>
    match val with
    | MemberVal.function _ _ func =>
      let r ← Walk.withGenerics names access (planFuncOnce (ClassMember.role m) func)
      return r.map fun plan => (plan.map MemberPlan.check).getD .keep
    | MemberVal.property _ =>
      match checked? type with
      | none => return .ok .keep
      | some t =>
        let loc := mark.loc
        Walk.reflect fun s => do
          let reflection ← (s.withGenerics names access).reflect t
          let value := deferredReflection loc reflection
          return .decorate (Synthetic.decorator loc (s.libraryCall loc "decorate" [value]))
    | _ => return .ok .keep

/-- Works out what is added to the members of a class, up to the first failure. -/
def planMembers (className : Option String) (names : List String) :
    List ClassMember → Walk (List MemberPlan × Except Unsupported Unit)
  | [] => return ([], .ok ())
  | m :: ms => do
    match ← planMember className names m with
    | .ok plan =>
      let (plans, r) ← planMembers className names ms
      return (plan :: plans, r)
    | .error u => return ([], .error u)

/-! ### The constructor -/

/-- `lib.TypeParametersSymbol` -/
def parametersSymbol (s : Scope) (loc : Loc) : Expr :=
  Synthetic.member loc (Synthetic.ident loc s.options.library) "TypeParametersSymbol"

/-- `T.assert(this);` for each type reference that the class implements -/
def implementsChecks (s : Scope) (loc : Loc) (className : Option String) (names : List String)
    (implemented : List TypeExpr) : Except Unsupported (List Stmt) :=
  let s' := s.withGenerics names (memberAccess className false true)
  (implemented.filter isReference).mapM fun t => do
    return Synthetic.exprStmt loc (assertion loc (← s'.reflect t) [Synthetic.this loc])
where
  /-- Whether a type is a reference. -/
  isReference : TypeExpr → Bool
    | TypeExpr.reference _ _ _ => true
    | _ => false

/-- The statements that keep the type parameters of a generic class. -/
structure ParamStmts where
  /-- The constant that holds them, before the call of `super`. -/
  before : Stmt
  /-- What needs `this`, after it. -/
  after : List Stmt

/-- `const <ns>typeParameters = { T: lib.typeParameter("T", bound) };` and what stores it in the
object -/
def paramStmts (s : Scope) (loc : Loc) (className : String) (typeParams : List TypeParam)
    (baseArgs : List TypeExpr) : Except Unsupported ParamStmts := do
  let names := typeParams.map TypeParam.name
  let holder := s.options.localName "typeParameters"
  let entries ← typeParams.mapM fun
    | TypeParam.mk _ name bound _ => do
      return (name, ← typeParameterCall (s.withGenerics names .erased) loc name bound)
  let key := Synthetic.index loc (Synthetic.ident loc className) (parametersSymbol s loc)
  let target := Synthetic.index loc (Synthetic.this loc) key
  let store := Synthetic.exprStmt loc
    (Synthetic.assign loc target (Synthetic.ident loc holder))
  let args ← baseArgs.mapM (s.withGenerics names .ofConstructor).reflect
  let bind := Synthetic.exprStmt loc
    (s.libraryCall loc "bindTypeParameters" (Synthetic.this loc :: args))
  return {
    before := Synthetic.constStmt loc holder (Synthetic.object loc entries)
    after := store :: if baseArgs.isEmpty then [] else [bind] }

namespace ParamStmts

/-- Puts the statements around the call of `super`, or at the start without one. -/
def apply (p : ParamStmts) (stmts : List Stmt) : List Stmt :=
  match superIndex? stmts with
  | some i => stmts.take i ++ [p.before] ++ (stmts.drop i).take 1 ++ p.after ++ stmts.drop (i + 1)
  | none => p.before :: p.after ++ stmts

end ParamStmts

/-- What is added to the constructor of a class. -/
structure ConstructorPlan where
  loc : Loc
  params : Option ParamStmts
  implemented : List Stmt

namespace ConstructorPlan

/-- Whether there is anything to add. -/
def isEmpty (p : ConstructorPlan) : Bool := p.params.isNone && p.implemented.isEmpty

/-- The statements of the constructor after the plan. -/
def applyStmts (p : ConstructorPlan) (stmts : List Stmt) : List Stmt :=
  (match p.params with
    | some params => params.apply stmts
    | none => stmts) ++ p.implemented

/-- The constructor after the plan. -/
def applyMember (p : ConstructorPlan) : ClassMember → ClassMember
  | ClassMember.mk mark form decorators key type (MemberVal.function m kind
      (Func.mk fm ff typeParams params result (.present (FuncBody.block stmts)))) =>
    .mk mark form decorators key type (.function m kind
      (.mk fm ff typeParams params result
        (.present (FuncBody.block (.ofList (p.applyStmts stmts.toList))))))
  | m => m

/-- The constructor of a class that declares none; that of a derived class passes its arguments
on. -/
def defaultConstructor (loc : Loc) (derived : Bool) : ClassMember :=
  if derived then
    Synthetic.constructor loc [Synthetic.restAnyParam loc "args"]
      [Synthetic.exprStmt loc (Synthetic.callWith loc (Synthetic.super loc)
        [Synthetic.spreadArg (Synthetic.ident loc "args")])]
  else Synthetic.constructor loc [] []

/-- Whether a member is the constructor's implementation. -/
def isTarget (m : ClassMember) : Bool :=
  ClassMember.isConstructor m && ClassMember.isImplementation m

/-- The members with their constructor, made if it is missing, and its position. -/
def ensure (p : ConstructorPlan) (derived : Bool) (members : List ClassMember) :
    List ClassMember × Nat :=
  match members.findIdx? isTarget with
  | some i => (members, i)
  | none => (defaultConstructor p.loc derived :: members, 0)

/-- The members of a class after the plan. -/
def apply (p : ConstructorPlan) (derived : Bool) (members : List ClassMember) :
    List ClassMember :=
  if p.isEmpty then members
  else
    let (members, i) := p.ensure derived members
    members.modify i p.applyMember

end ConstructorPlan

/-! ### The class -/

/-- What is added to a class once all its types have been reflected. -/
structure ClassFinish where
  constructor : ConstructorPlan
  /-- The static member that holds the symbol of the type parameters. -/
  symbol : Option ClassMember
  /-- The decorator with the reflection. -/
  reflection : Decorator

/-- What is added to a class.  If a type of the class has no reflection, only what was worked out
for its members before is added. -/
structure ClassPlan where
  members : List MemberPlan := []
  finish : Option ClassFinish := none

namespace ClassPlan

/-- The class after the plan. -/
def apply (p : ClassPlan) : ClassDecl → ClassDecl
  | ClassDecl.mk mark form decorators name typeParams base baseArgs implemented members =>
    let ms := applyMembers p.members members.toList
    match p.finish with
    | none =>
      .mk mark form decorators name typeParams base baseArgs implemented (.ofList ms)
    | some f =>
      let ms := f.symbol.toList ++ f.constructor.apply base.toOption.isSome ms
      .mk mark form (.ofList (f.reflection :: decorators.toList)) name typeParams base baseArgs
        implemented (.ofList ms)

end ClassPlan

/-- `static [lib.TypeParametersSymbol] = Symbol("CTypeParameters");` -/
def symbolMember (s : Scope) (loc : Loc) (className : String) : ClassMember :=
  Synthetic.staticProperty loc (parametersSymbol s loc)
    (Synthetic.call loc (Synthetic.ident loc "Symbol")
      [Synthetic.str loc (className ++ "TypeParameters")])

/-- The statements of the constructor of a class. -/
def constructorStmts (members : List ClassMember) : List Stmt :=
  match members.find? ConstructorPlan.isTarget with
  | some (ClassMember.mk _ _ _ _ _ (MemberVal.function _ _
      (Func.mk _ _ _ _ _ (.present (FuncBody.block stmts))))) => stmts.toList
  | _ => []

/-- The members of a class. -/
def ClassDecl.memberList : ClassDecl → List ClassMember
  | ClassDecl.mk _ _ _ _ _ _ _ _ members => members.toList

/-- What is added to a class beside its members, if all types have reflections. -/
def planFinish (s : Scope) (reflection : Expr) : ClassDecl → Except Unsupported ClassFinish
  | decl@(ClassDecl.mk mark _ _ _ typeParams _ baseArgs implemented _) => do
    let loc := mark.loc
    let name := ClassDecl.name? decl
    let names := typeParams.toLists.map TypeParam.name
    let implemented ← implementsChecks s loc name names implemented.toList
    let generic := name.filter fun _ => !names.isEmpty
    let params ← match generic with
      | some name => some <$> paramStmts s loc name typeParams.toLists baseArgs.toLists
      | none => pure none
    return {
      constructor := { loc, params, implemented }
      symbol := generic.map (symbolMember s loc)
      reflection := Synthetic.decorator loc (s.libraryCall loc "annotate" [reflection]) }

/-- Works out what is added to a class and declares its name. -/
def planClass : ClassDecl → Walk (ClassPlan × Except Unsupported Unit)
  | decl@(ClassDecl.mk mark form _ _ typeParams _ _ _ members) => do
    let name := ClassDecl.name? decl
    if form.ambient then
      name.forM fun name => Walk.change (·.declare name)
      return ({}, .ok ())
    let merged ← Walk.read fun c => (name.map c.frame.interfaceMembers).getD []
    match ← Walk.reflect fun s => s.reflectClass mark.loc decl merged with
    | .error u => return ({}, .error u)
    | .ok reflection =>
      let names := typeParams.toLists.map TypeParam.name
      let (plans, r) ← planMembers name names members.toList
      match r with
      | .error u => return ({ members := plans }, .error u)
      | .ok () =>
        match ← Walk.reflect fun s => planFinish s reflection decl with
        | .error u => return ({ members := plans }, .error u)
        | .ok finish =>
          let plan : ClassPlan := { members := plans, finish := some finish }
          if !finish.constructor.isEmpty then
            (constructorStmts (plan.apply decl).memberList).forM fun stmt =>
              Walk.log (.event .trace "constructor" [("stmt", .str (Stmt.text stmt))])
          name.forM fun name => do
            if ← Walk.read (·.frame.hasInterface name) then Walk.change (·.setMerged name)
            Walk.change (·.declare name)
          return (plan, .ok ())

end Reify
