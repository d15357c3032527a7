import Reify.Check.Function

/-!
# Walking

The state that the walk over a unit goes through: the context, the log and the types that could
not be reflected.  Such a type does not stop the walk; all of them are reported together.
-/

namespace Reify

/-- The state of a walk with what it has reported so far. -/
structure Walker where
  context : Context
  log : List Log.Line := []
  errors : List Unsupported := []

/-- A step of a walk. -/
abbrev Walk := StateM Walker

namespace Walk

/-- Changes the context. -/
def change (f : Context → Context) : Walk Unit := modify fun w => { w with context := f w.context }

/-- Reads from the context. -/
def read {α : Type} (f : Context → α) : Walk α := return f (← get).context

/-- Writes a line to the log. -/
def log (line : Log.Line) : Walk Unit := modify fun w => { w with log := w.log ++ [line] }

/-- Reports a type without reflection. -/
def fail (u : Unsupported) : Walk Unit := modify fun w => { w with errors := w.errors ++ [u] }

/-- Reports a failed computation. -/
def report {α : Type} : Except Unsupported α → Walk Unit
  | .ok _ => return ()
  | .error u => fail u

/-- Runs a computation in the scope of the walk. -/
def attempt {α : Type} (f : Scope → Attempt α) : Walk (Except Unsupported α) := do
  let (r, log) := (f (← get).context.scope).run []
  modify fun w => { w with log := w.log ++ log }
  return r

/-- Reflects something in the scope of the walk. -/
def reflect {α : Type} (f : Scope → Except Unsupported α) : Walk (Except Unsupported α) :=
  read fun c => f c.scope

/-- Runs steps in a scope of declared names of their own. -/
def inScope {α : Type} (act : Walk α) : Walk α := do
  change Context.pushScope
  let a ← act
  change Context.popScope
  return a

/-- Runs steps with type parameters in reach. -/
def withGenerics {α : Type} (names : List String) (access : ParamAccess) (act : Walk α) :
    Walk α := do
  if names.isEmpty then act
  else
    change (·.pushGenerics names access)
    let a ← act
    change Context.popGenerics
    return a

/-- Runs steps inside a statement list. -/
def framed {α : Type} (stmts : List Stmt) (act : Walk α) : Walk α := do
  change (·.pushFrame stmts)
  let a ← act
  change Context.popFrame
  return a

end Walk

/-- Works out the checks of a function, unless this walk has done so before. -/
def planFuncOnce (role : Role) (func : Func) : Walk (Except Unsupported (Option FuncPlan)) := do
  if ← Walk.read (·.wasVisited (func.mark.id)) then return .ok none
  Walk.change (·.recordMutation (func.mark.id))
  let r ← Walk.attempt fun s => planFunc s role func
  if let .ok _ := r then Walk.change (·.markVisited (func.mark.id))
  return r

end Reify
