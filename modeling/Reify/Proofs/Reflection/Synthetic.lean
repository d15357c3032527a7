import Reify.Proofs.Result
import Reify.Proofs.Syntax.Tree

/-!
# Phrases made by the program

A phrase that the program makes is synthetic if the phrases in it are: what the walk adds to a tree
never counts as a node of that tree.
-/

namespace Reify

open Synthetic

/-! ### Phrases -/

variable {object key value callee e : Expr} {args : List Expr} {body : FuncBody}
  {params : List Param} {stmts : List Stmt} {decl : ClassDecl} {merged : List TypeMember}

section

variable {loc : Loc} {name : String}

@[simp] theorem Site.synthetic_slot (loc : Loc) : (Site.synthetic loc).slot = .synthetic loc := rfl

@[simp] theorem Site.synthetic_form (loc : Loc) : (Site.synthetic loc).form = .synthetic loc := rfl

@[simp] theorem synthetic_ident : (ident loc name).Synthetic := by
  simp [ident]

@[simp] theorem synthetic_str : (str loc name).Synthetic := by simp [str]

@[simp] theorem synthetic_num {value} : (num loc value).Synthetic := by
  simp [num]

@[simp] theorem synthetic_bool {value} : (bool loc value).Synthetic := by
  simp [Synthetic.bool]

@[simp] theorem synthetic_this : (this loc).Synthetic := by simp [this]

@[simp] theorem synthetic_super : (super loc).Synthetic := by simp [super]

@[simp] theorem synthetic_member :
    (member loc object name).Synthetic ↔ object.Synthetic := by simp [member]

@[simp] theorem synthetic_index :
    (index loc object key).Synthetic ↔ object.Synthetic ∧ key.Synthetic := by
  simp [index]

@[simp] theorem synthetic_arg :
    (arg value).Synthetic ↔ value.Synthetic := by simp [arg]

@[simp] theorem synthetic_spreadArg :
    (spreadArg value).Synthetic ↔ value.Synthetic := by simp [spreadArg]

@[simp] theorem synthetic_callWith {args} :
    (callWith loc callee args).Synthetic ↔
      callee.Synthetic ∧ ∀ a ∈ args, a.Synthetic := by
  simp [callWith]

@[simp] theorem synthetic_call :
    (call loc callee args).Synthetic ↔
      callee.Synthetic ∧ ∀ a ∈ args, a.Synthetic := by
  simp [call]

@[simp] theorem synthetic_methodCall :
    (methodCall loc object name args).Synthetic ↔
      object.Synthetic ∧ ∀ a ∈ args, a.Synthetic := by
  simp [methodCall]

@[simp] theorem synthetic_assign {left right} :
    (assign loc left right).Synthetic ↔ left.Synthetic ∧ right.Synthetic := by
  simp [assign]

@[simp] theorem synthetic_array {elems} :
    (array loc elems).Synthetic ↔ ∀ e ∈ elems, e.Synthetic := by
  simp [array]

@[simp] theorem synthetic_directKey : (directKey loc name).Synthetic := by
  simp [directKey]

@[simp] theorem synthetic_object {entries} :
    (Synthetic.object loc entries).Synthetic ↔ ∀ e ∈ entries, e.2.Synthetic := by
  rw [Synthetic.object, Tree.synthetic_node, Children.synthetic_cons, Tree.synthetic_ofList,
    List.forall_mem_map]
  simp

@[simp] theorem synthetic_binding : (binding loc name).Synthetic := by
  simp [binding]

@[simp] theorem synthetic_param : (param loc name).Synthetic := by
  simp [param]

@[simp] theorem synthetic_restAnyParam : (restAnyParam loc name).Synthetic := by
  simp [restAnyParam, any]

@[simp] theorem synthetic_func {arrow} :
    (func loc arrow params body).Synthetic ↔
      (∀ p ∈ params, p.Synthetic) ∧ body.Synthetic := by
  simp [func]

@[simp] theorem synthetic_arrow {params} :
    (arrow loc params body).Synthetic ↔ body.Synthetic := by
  simp [arrow]

@[simp] theorem synthetic_thunk : (thunk loc value).Synthetic ↔ value.Synthetic := by
  simp [thunk]

@[simp] theorem synthetic_function :
    (function loc stmts).Synthetic ↔ ∀ s ∈ stmts, s.Synthetic := by
  simp [function]

@[simp] theorem synthetic_decorator :
    (decorator loc value).Synthetic ↔ value.Synthetic := by
  simp [decorator]

@[simp] theorem synthetic_exprStmt :
    (exprStmt loc value).Synthetic ↔ value.Synthetic := by
  simp [exprStmt]

@[simp] theorem synthetic_returnStmt :
    (returnStmt loc value).Synthetic ↔ value.Synthetic := by
  simp [returnStmt]

@[simp] theorem synthetic_constStmt {exported} :
    (constStmt loc name value exported).Synthetic ↔ value.Synthetic := by
  simp [constStmt]

@[simp] theorem synthetic_constructor :
    (constructor loc params stmts).Synthetic ↔
      (∀ p ∈ params, p.Synthetic) ∧ ∀ s ∈ stmts, s.Synthetic := by
  simp [constructor]

@[simp] theorem synthetic_staticProperty :
    (staticProperty loc key value).Synthetic ↔ key.Synthetic ∧ value.Synthetic := by
  simp [staticProperty]

end

/-! ### Reflections -/

section

variable {s : Scope} {loc : Loc} {name : String}

@[simp] theorem synthetic_libraryCall :
    (s.libraryCall loc name args).Synthetic ↔ ∀ a ∈ args, a.Synthetic := by
  simp [Scope.libraryCall]

@[simp] theorem synthetic_assertion :
    (assertion loc e args).Synthetic ↔ e.Synthetic ∧ ∀ a ∈ args, a.Synthetic := by
  simp [assertion]

@[simp] theorem synthetic_numeral : (numeral loc name).Synthetic := by
  unfold numeral
  split <;> (dsimp only; split <;> simp)

@[simp] theorem EntityName.synthetic_toExpr (n : EntityName) : (n.toExpr loc).Synthetic := by
  induction n with
  | ident name => simp [EntityName.toExpr]
  | qualified left right ih => simp [EntityName.toExpr, ih]

@[simp] theorem TypeKey.synthetic_toExpr (key : TypeKey) :
    (TypeKey.toExpr loc key).Synthetic := by
  unfold TypeKey.toExpr
  split <;> simp

end

@[simp] theorem Reflection.synthetic_parameter {s loc name rest optional} :
    (parameter s loc name e rest optional).Synthetic ↔ e.Synthetic := by
  unfold parameter
  cases rest <;> cases optional <;> simp

/-! ### Equations -/

/-- The bound of a type parameter. -/
def TypeParam.bound? : TypeParam → Option TypeExpr
  | TypeParam.mk _ _ bound _ => bound.toOption

/-- The names bound after type parameters. -/
def Reflection.bindParams (bound : List String) (params : List TypeParam) : List String :=
  params.foldl (fun bound p => TypeParam.name p :: bound) bound

theorem Reflection.typeParamConsts_cons
    {reflect bound factory name mark constraint default params} :
    typeParamConsts reflect factory bound (TypeParam.mk mark name constraint default :: params) = do
      let args ← constraint.toOption.toList.mapM (reflect bound)
      let r ← typeParamConsts reflect factory (name :: bound) params
      return (constStmt mark.loc name (methodCall mark.loc
        (ident mark.loc factory) "typeParameter"
          (str mark.loc name :: args)) :: r.1, r.2) := by
  rw [typeParamConsts]
  cases constraint.toOption with
  | none => rfl
  | some t => cases h : reflect bound t <;> simp [h] <;> rfl

namespace Scope

variable {s : Scope} {bound : List String} {loc : Loc}

/-- What a class says about its base class. -/
def heritage (s : Scope) (bound : List String) (loc : Loc) (base : Option Expr)
    (baseArgs : List TypeExpr) : Except Unsupported (List Expr) :=
  base.toList.mapM fun base => do
    return s.libraryCall loc "extends" (base.detach :: (← baseArgs.mapM (s.reflectUnder bound)))

theorem classParts_eq {mark form decorators name
    typeParams base baseArgs implemented members}
    (hd : decl = ClassDecl.mk mark form decorators name typeParams base baseArgs implemented
      members) :
    s.classParts bound loc decl merged = do
      let heritage ← s.heritage bound loc base.toOption baseArgs.toLists
      return heritage ++ (← s.reflectMembers bound
        (classEntries members.toList ++ merged.map MemberEntry.ofMember)) := by
  subst hd
  match base with
  | .absent => rfl
  | .present base =>
    change (do
      let args ← baseArgs.toLists.mapM (s.reflectUnder bound)
      let heritage ← pure [s.libraryCall loc "extends" (base.detach :: args)]
      return heritage ++ (← s.reflectMembers bound
        (classEntries members.toList ++ merged.map MemberEntry.ofMember))) = _
    simp [heritage, Tree.toOption]

theorem reflectClass_eq {mark form decorators name
    typeParams base baseArgs implemented members}
    (hd : decl = ClassDecl.mk mark form decorators name typeParams base baseArgs implemented
      members) :
    s.reflectClass loc decl merged =
      let name := (ClassDecl.name? decl).getD "default"
      if typeParams.toLists.isEmpty then do
        return s.libraryCall loc "class"
          (str loc name :: (← s.classParts [] loc decl merged))
      else do
        let body ← Reflection.factory s.reflectUnder [] loc (s.options.localName name)
          typeParams.toLists fun bound => do
            return array loc (← s.classParts bound loc decl merged)
        return s.libraryCall loc "class" [str loc name, body] := by
  subst hd
  rfl

end Scope

end Reify
