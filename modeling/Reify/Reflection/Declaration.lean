import Reify.Reflection.Reflect

/-!
# Reflections of declarations

Interfaces and type aliases become named types, classes a description of their structure.  A
generic declaration goes through a factory that binds its type parameters.
-/

namespace Reify

/-- The name of a class. -/
def ClassDecl.name? : ClassDecl → Option String
  | ClassDecl.mk _ _ _ name _ _ _ _ _ => name.toOption.map Name.text

namespace Scope

/-- `type("A", reflection)`, through a factory if `A` has type parameters -/
def namedType (s : Scope) (loc : Loc) (name : String) (typeParams : List TypeParam)
    (body : List String → Except Unsupported Expr) : Except Unsupported Expr := do
  let reflection ←
    if typeParams.isEmpty then body []
    else Reflection.factory s.reflectUnder [] loc (s.options.localName name) typeParams body
  return s.libraryCall loc "type" [Synthetic.str loc name, reflection]

/-- The reflections of a member list, overloads merged. -/
def reflectMembers (s : Scope) (bound : List String) (entries : List MemberEntry) :
    Except Unsupported (List Expr) :=
  Reflection.members s s.reflectUnder bound entries

/-- `intersect(bases…, object(members…))`, or the object alone without bases -/
def interfaceBody (s : Scope) (bound : List String) (loc : Loc) (bases : List TypeExpr)
    (members : List TypeMember) : Except Unsupported Expr := do
  let object := s.libraryCall loc "object"
    (← s.reflectMembers bound (members.map MemberEntry.ofMember))
  if bases.isEmpty then return object
  return s.libraryCall loc "intersect" ((← bases.mapM (s.reflectUnder bound)) ++ [object])

/-- The parts of a class: `extends(Base, args…)` and its members, followed by the members of
interfaces of the same name. -/
def classParts (s : Scope) (bound : List String) (loc : Loc) (decl : ClassDecl)
    (merged : List TypeMember) : Except Unsupported (List Expr) :=
  match decl with
  | ClassDecl.mk _ _ _ _ _ base baseArgs _ members => do
    let heritage ← match base.toOption with
      | some base => do
        let args ← baseArgs.toLists.mapM (s.reflectUnder bound)
        pure [s.libraryCall loc "extends" (base.detach :: args)]
      | none => pure []
    let entries := classEntries members.toList ++ merged.map MemberEntry.ofMember
    return heritage ++ (← s.reflectMembers bound entries)

/-- `class("C", extends(Base, args…), members…)` -/
def reflectClass (s : Scope) (loc : Loc) (decl : ClassDecl) (merged : List TypeMember) :
    Except Unsupported Expr :=
  match decl with
  | ClassDecl.mk _ _ _ _ typeParams _ _ _ _ => do
    let name := (ClassDecl.name? decl).getD "default"
    let parts ←
      if typeParams.toLists.isEmpty then s.classParts [] loc decl merged
      else do
        let body ← Reflection.factory s.reflectUnder [] loc (s.options.localName name)
          typeParams.toLists fun bound => do
            return Synthetic.array loc (← s.classParts bound loc decl merged)
        pure [body]
    return s.libraryCall loc "class" (Synthetic.str loc name :: parts)

end Scope

end Reify
