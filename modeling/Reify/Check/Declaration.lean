import Reify.Check.Walker

/-!
# Reflections of interfaces and type aliases

A type alias is followed by a constant of its name that holds its reflection.  So is the last of
the declarations of an interface in a statement list, unless the list also declares a class of
that name: then the members of the interface belong to the class.
-/

namespace Reify

/-- `const A = lib.type("A", …);`, in the log as well -/
def reflectionConst (loc : Loc) (name : String) (reflection : Expr) (exported : Bool) :
    Walk Stmt := do
  let stmt := Synthetic.constStmt loc name reflection exported
  Walk.log (Log.synthesized stmt)
  return stmt

/-- The constant that follows a type alias. -/
def planAlias : AliasDecl → Walk (Except Unsupported (List Stmt))
  | AliasDecl.mk mark form typeParams type => do
    if form.ambient then
      Walk.change (·.declare form.name)
      return .ok []
    let r ← Walk.reflect fun s =>
      s.namedType mark.loc form.name typeParams.toLists fun bound => s.reflectUnder bound type
    match r with
    | .ok reflection =>
      let stmt ← reflectionConst mark.loc form.name reflection form.exported
      Walk.change (·.declare form.name)
      return .ok [stmt]
    | .error u => return .error u

/-- The constant that follows the last declaration of an interface. -/
def planInterface : InterfaceDecl → Walk (Except Unsupported (List Stmt))
  | decl@(InterfaceDecl.mk mark form _ _ _) => do
    let name := form.name
    if form.ambient then return .ok []
    if ← Walk.read (·.frame.hasClass name) then
      Walk.log (.event .debug "interface merged into class" [("interface", .str name)])
      Walk.change (·.setMerged name)
      return .ok []
    if ← Walk.read (·.isMerged name) then return .ok []
    let (context, pending) ← Walk.read (·.accumulate decl)
    Walk.change fun _ => context
    match pending with
    | none => return .ok []
    | some p =>
      let r ← Walk.reflect fun s =>
        s.namedType mark.loc name (p.typeParams.getD []) fun bound =>
          s.interfaceBody bound mark.loc p.bases p.members
      match r with
      | .ok reflection =>
        let stmt ← reflectionConst mark.loc name reflection p.exported
        Walk.change (·.declare name)
        return .ok [stmt]
      | .error u => return .error u

end Reify
