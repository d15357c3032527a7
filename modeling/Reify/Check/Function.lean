import Reify.Context
import Reify.Log

/-!
# Checks of functions

A function with a body gets constants for its type parameters, an assertion for each parameter
that has a type, and an assertion around each value it returns.

What is added is worked out first, as a `FuncPlan`, from the function's types and the scope it
stands in.  `FuncPlan.apply` then adds it.
-/

namespace Reify

/-- A computation that may meet a type without reflection and that writes to the log. -/
abbrev Attempt := ExceptT Unsupported (StateM (List Log.Line))

namespace Attempt

/-- A computation that writes nothing to the log. -/
def ofExcept {α : Type} (r : Except Unsupported α) : Attempt α := ExceptT.mk (pure r)

/-- Writes a line to the log. -/
def log (line : Log.Line) : Attempt Unit := ExceptT.lift (modify (· ++ [line]))

end Attempt

/-- A synthesized statement, in the log. -/
def Log.synthesized (stmt : Stmt) : Log.Line :=
  .event .trace "synthesized" [("stmt", .str (Stmt.text stmt))]

/-- What a function is to its surroundings. -/
inductive Role where
  | function
  | method
  | getter
  | setter
  | constructor
deriving DecidableEq, Repr, Inhabited

/-- A type that is checked at run time: any but `any`. -/
def checked? (t : Maybe .type) : Option TypeExpr := t.toOption.filter fun t => !TypeExpr.isAny t

/-! ### Statements of a function -/

/-- Whether a statement is a call of `super`. -/
def Stmt.isSuperCall : Stmt → Bool
  | Stmt.expr _ (Expr.call _ _ (Expr.super _) _) => true
  | _ => false

/-- The position of the first call of `super`. -/
def superIndex? (stmts : List Stmt) : Option Nat := stmts.findIdx? Stmt.isSuperCall

/-- Categories of statements and of what holds the statements of the same function. -/
def Category.holdsStmts : Category → Bool
  | .stmt | .block | .handler | .branch => true
  | .many c | .maybe c => c.holdsStmts
  | _ => false

/-- Replaces those subtrees that are statements or hold some. -/
def Children.replaceStmts : {cs : List Category} → Children cs → Results Tree cs → Children cs
  | _, .nil, () => .nil
  | c :: _, .cons t ts, (r, rs) =>
    .cons (if c.holdsStmts then r else t) (ts.replaceStmts rs)

/-- Changes the returned values at one form, given the changed subtrees. -/
def Form.mapReturns (f : Loc → Expr → Expr) : {c : Category} → (form : Form c) →
    Marks form.width → Children form.arity → Results Tree form.arity → Tree c
  | .stmt, StmtForm.returning, .two site, .cons value .nil, _ =>
    Stmt.returning site (value.toOption.map (f site.form.loc))
  | _, form, marks, children, rs => .node form marks (children.replaceStmts rs)

/-- Changes the values that a statement returns from the function it stands in.  Nested functions
and classes have returns of their own and are left alone. -/
def Stmt.mapReturns (f : Loc → Expr → Expr) (stmt : Stmt) : Stmt :=
  stmt.fold (X := Tree) (Form.mapReturns f)

/-! ### Plans -/

/-- What is added to a function. -/
structure FuncPlan where
  role : Role
  loc : Loc
  /-- The constants for the type parameters. -/
  typeConsts : List Stmt
  /-- The reflection that returned values are checked against. -/
  result : Option Expr
  /-- The name of the constant that holds it. -/
  resultName : String
  /-- The assertions of parameters. -/
  asserts : List Stmt

namespace FuncPlan

/-- The statements added at the start of the body. -/
def prologue (p : FuncPlan) : List Stmt :=
  p.typeConsts ++ (p.result.map (Synthetic.constStmt p.loc p.resultName)).toList ++ p.asserts

/-- A returned value, checked if need be. -/
def checkedValue (p : FuncPlan) (loc : Loc) (value : Expr) : Expr :=
  match p.result with
  | some _ => assertion loc (Synthetic.ident loc p.resultName) [value]
  | none => value

/-- Where the prologue goes: to the start, in a constructor after the call of `super`. -/
def position (p : FuncPlan) (stmts : List Stmt) : Nat :=
  match p.role with
  | .constructor => ((superIndex? stmts).map (· + 1)).getD 0
  | _ => 0

/-- The statements of a body with the checks. -/
def applyStmts (p : FuncPlan) (stmts : List Stmt) : List Stmt :=
  let stmts := if p.result.isSome then stmts.map (Stmt.mapReturns p.checkedValue) else stmts
  stmts.take (p.position stmts) ++ p.prologue ++ stmts.drop (p.position stmts)

/-- Whether an expression body can stay an expression. -/
def keepsExpression (p : FuncPlan) : Bool := p.typeConsts.isEmpty && p.asserts.isEmpty

/-- A body with the checks.  An expression becomes a block if statements stand before it. -/
def applyBody (p : FuncPlan) : FuncBody → FuncBody
  | FuncBody.block stmts => .block (.ofList (p.applyStmts stmts.toList))
  | FuncBody.expr value =>
    if p.keepsExpression then
      match p.result with
      | some r => .expr (assertion p.loc r [value])
      | none => .expr value
    else
      .block (.ofList
        (p.prologue ++ [Synthetic.returnStmt p.loc (p.checkedValue p.loc value)]))

/-- A function with the checks. -/
def apply (p : FuncPlan) : Func → Func
  | Func.mk mark form typeParams params result body =>
    .mk mark form typeParams params result (body.toOption.map p.applyBody)

/-- What the log says about the plan. -/
def notes (p : FuncPlan) : FuncBody → List Log.Line
  | FuncBody.block _ => p.prologue.map Log.synthesized
  | FuncBody.expr _ => if p.keepsExpression then [] else p.prologue.map Log.synthesized

end FuncPlan

/-! ### Planning -/

/-- `lib.typeParameter("T", bound)` -/
def typeParameterCall (s : Scope) (loc : Loc) (name : String) (bound : Maybe .type) :
    Except Unsupported Expr := do
  let args ← match bound.toOption with
    | some t => do pure [← s.reflect t]
    | none => pure []
  return s.libraryCall loc "typeParameter" (Synthetic.str loc name :: args)

/-- `const T = lib.typeParameter("T", bound);` -/
def typeParamConst (s : Scope) : TypeParam → Except Unsupported Stmt
  | TypeParam.mk mark name bound _ => do
    return Synthetic.constStmt mark.loc name (← typeParameterCall s mark.loc name bound)

/-- The check of the parameter at a position: `lib.param("x", T).assert(x);`.  Parameters without
a type have none, and neither have destructured ones. -/
def paramCheck (s : Scope) : Param × Nat → Attempt (Option Stmt)
  | (p@(Param.mk mark form _ _ type _), index) => do
    match Param.isReceiver p, checked? type, Param.name? p with
    | false, some t, some name =>
      let reflection ← .ofExcept (s.reflect t)
      let loc := mark.loc
      let parameter := Reflection.parameter s loc name reflection form.rest form.optional
      return some (Synthetic.exprStmt loc (assertion loc parameter [Synthetic.ident loc name]))
    | false, some _, none =>
      .log (.event .debug "destructured parameter is not asserted" [("index", .int index)])
      return none
    | _, _, _ => return none

/-- The type that the returned values of a function are checked against.  What asynchronous
functions and generators return is not what is written after `return`. -/
def resultCheck? (role : Role) (form : FuncForm) (result : Maybe .type) : Option TypeExpr :=
  if form.async || form.generator || role = .constructor || role = .setter then none
  else checked? result

/-- Works out the checks of a function; without a body there are none. -/
def planFunc (s : Scope) (role : Role) : Func → Attempt (Option FuncPlan)
  | func@(Func.mk mark form typeParams params result body) => do
    match body.toOption with
    | none => return none
    | some body =>
      let s := s.withGenerics (Func.typeParamNames func) .constant
      let typeConsts ← .ofExcept (typeParams.toLists.mapM (typeParamConst s))
      let result ← match resultCheck? role form result with
        | some t => do
          let r ← .ofExcept (s.reflect t)
          pure (some (s.libraryCall mark.loc "return" [r]))
        | none => pure none
      let asserts ← params.toList.zipIdx.filterMapM (paramCheck s)
      let plan : FuncPlan :=
        { role, loc := mark.loc, typeConsts, result, asserts
          resultName := s.options.localName "returnType" }
      (plan.notes body).forM .log
      return some plan

end Reify
