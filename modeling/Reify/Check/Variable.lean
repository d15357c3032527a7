import Reify.Check.Walker

/-!
# Checks of variables

An initializer is checked against the type of its variable.  If a type has no reflection, the
initializer of that variable is dropped and the names of the declaration stay undeclared.
-/

namespace Reify

/-- The names bound at one form of a pattern, given those of its parts. -/
def Form.boundNames : {c : Category} → (form : Form c) →
    Results (fun _ => List String) form.arity → List String
  | .pat, PatForm.ident name, () => [name]
  | .name, text, () => [text]
  | .arrayPatElem, _, (target, _, ()) => target
  | .objPatProp, _, (_, target, _, ()) => target
  | .expr, _, _ => []
  | .type, _, _ => []
  | _, _, rs => rs.values.flatten

/-- The names that a pattern binds, in source order. -/
def Pat.boundNames (p : Pat) : List String :=
  p.fold (X := fun _ => List String) fun form _ _ rs => form.boundNames rs

/-- The names that a variable declaration binds, in source order. -/
def Declarator.boundNames : Declarator → List String
  | Declarator.mk _ (Binding.mk _ pat) _ _ => Pat.boundNames pat

/-- What happens to the initializer of a variable. -/
inductive InitPlan where
  /-- It stays as it is. -/
  | keep
  /-- It is checked against a reflection. -/
  | check (reflection : Expr)
  /-- It is dropped. -/
  | drop

/-- An initializer that is checked. -/
def checkedInit (reflection init : Expr) : Expr := assertion (Expr.loc init) reflection [init]

namespace InitPlan

/-- The initializer after the plan. -/
def apply (p : InitPlan) (init : Maybe .expr) : Maybe .expr :=
  match p with
  | keep => init
  | check reflection => init.toOption.map (checkedInit reflection)
  | drop => .absent

/-- The declarator after the plan. -/
def applyDeclarator (p : InitPlan) : Declarator → Declarator
  | Declarator.mk mark binding type init => .mk mark binding type (p.apply init)

end InitPlan

/-- Works out what happens to initializers, up to the first type without reflection. -/
def planInits (s : Scope) : List Declarator →
    StateM (List Log.Line) (List InitPlan × Except Unsupported Unit)
  | [] => return ([], .ok ())
  | Declarator.mk _ _ type init :: rest => do
    match checked? type, init.toOption with
    | some t, some init =>
      match s.reflect t with
      | .ok reflection =>
        modify (· ++ [.event .trace "asserted initializer"
          [("init", .str (Expr.text (checkedInit reflection init)))]])
        let (plans, r) ← planInits s rest
        return (.check reflection :: plans, r)
      | .error u => return ([.drop], .error u)
    | _, _ =>
      let (plans, r) ← planInits s rest
      return (.keep :: plans, r)

/-- Applies plans to as many declarators as there are plans. -/
def applyInits : List InitPlan → List Declarator → List Declarator
  | p :: ps, d :: ds => p.applyDeclarator d :: applyInits ps ds
  | _, ds => ds

/-- Works out the checks of a variable declaration and declares its names. -/
def planVar : VarDecl → Walk (List InitPlan × Except Unsupported Unit)
  | VarDecl.mk _ _ declarators => do
    let w ← get
    let ((plans, r), log) := (planInits w.context.scope declarators.toList).run []
    set { w with log := w.log ++ log }
    if let .ok _ := r then
      (declarators.toList.flatMap Declarator.boundNames).forM fun name =>
        Walk.change (·.declare name)
    return (plans, r)

end Reify
