import Reify.Check.Class
import Reify.Check.Declaration
import Reify.Check.Variable

/-!
# Checks of statements

What is added to a statement, whichever its kind: a change to the statement itself and statements
that follow it.
-/

namespace Reify

/-- What is added to a statement itself. -/
inductive StmtPlan where
  | keep
  | func (plan : FuncPlan)
  | inits (plans : List InitPlan)
  | classDecl (plan : ClassPlan)

/-- The variable declaration after its plans. -/
def VarDecl.applyInits (plans : List InitPlan) : VarDecl → VarDecl
  | VarDecl.mk mark form declarators =>
    .mk mark form (.ofList (Reify.applyInits plans declarators.toList))

/-- The function declaration after the plan. -/
def FuncDecl.applyPlan (plan : FuncPlan) : FuncDecl → FuncDecl
  | FuncDecl.mk mark form name func => .mk mark form name (plan.apply func)

namespace StmtPlan

/-- The statement after the plan. -/
def apply : StmtPlan → Stmt → Stmt
  | func plan, Stmt.funcDecl mark decl => Stmt.funcDecl mark (FuncDecl.applyPlan plan decl)
  | inits plans, Stmt.varDecl mark decl => Stmt.varDecl mark (VarDecl.applyInits plans decl)
  | classDecl plan, Stmt.classDecl mark decl => Stmt.classDecl mark (plan.apply decl)
  | _, stmt => stmt

/-- The plans for the initializers of a variable declaration. -/
def initPlans : StmtPlan → List InitPlan
  | inits plans => plans
  | _ => []

end StmtPlan

/-- Works out what is added to a statement and the statements that follow it. -/
def planStmt : Stmt → Walk (StmtPlan × Except Unsupported (List Stmt))
  | Stmt.classDecl _ decl => do
    let (plan, r) ← planClass decl
    return (.classDecl plan, r.map fun _ => [])
  | Stmt.varDecl _ decl => do
    let (plans, r) ← planVar decl
    return (.inits plans, r.map fun _ => [])
  | Stmt.funcDecl _ (FuncDecl.mk _ _ _ func) => do
    match ← planFuncOnce .function func with
    | .ok (some plan) => return (.func plan, .ok [])
    | .ok none => return (.keep, .ok [])
    | .error u => return (.keep, .error u)
  | Stmt.interfaceDecl _ decl => return (.keep, ← planInterface decl)
  | Stmt.aliasDecl _ decl => return (.keep, ← planAlias decl)
  | Stmt.enumDecl _ (EnumDecl.mk _ form _) => do
    Walk.change (·.declare form.name)
    return (.keep, .ok [])
  | _ => return (.keep, .ok [])

/-- Adds to a statement what belongs to it, whether or not it has been dealt with, but to nothing
inside it. -/
def checkStmt (stmt : Stmt) : Walk (Stmt × Except Unsupported (List Stmt)) := do
  let (plan, r) ← planStmt stmt
  return (plan.apply stmt, r)

end Reify
