import Reify.Proofs.Result

/-!
# Type parameters bound by factories

Reflection is told which type parameters the factories around a type bind.  It can also keep them
in a state: a list for each factory around, added to as the type parameters are met, and taken away
once the factory is done.  `Reflecting` is reflection written that way.

It gives the same reflections and the same failures, and in either case the state is afterwards
what it was before (`Follows`).  Declarations are reflected with no factory around (`Restores`).
-/

namespace Reify

open Synthetic

/-- A reflection with a state: the type parameters bound by the factories around, the innermost
factory first. -/
abbrev Reflecting := ExceptT Unsupported (StateM (List (List String)))

/-- The type parameters of a class. -/
def ClassDecl.typeParams : ClassDecl → List TypeParam
  | ClassDecl.mk _ _ _ _ typeParams _ _ _ _ => typeParams.toLists

variable {body : Reflecting Expr}

namespace Reflecting

/-! ### Steps -/

/-- The type parameters bound around. -/
def bound : Reflecting (List String) := return (← getThe (List (List String))).flatten

/-- Binds a type parameter in the innermost factory. -/
def bindParam (name : String) : Reflecting Unit :=
  modify fun
    | [] => []
    | names :: locals => (name :: names) :: locals

/-- Runs steps inside a factory.  Its type parameters are taken away whether or not the steps
succeed. -/
def inFactory {α : Type} (act : Reflecting α) : Reflecting α :=
  ExceptT.mk do
    modify ([] :: ·)
    let r ← act.run
    modify List.tail
    return r

/-! ### Types -/

section

variable (s : Scope) (reflect : TypeExpr → Reflecting Expr)

/-- A type, where none reflects as `any`. -/
def optional (loc : Loc) : Option TypeExpr → Reflecting Expr
  | some t => reflect t
  | none => return s.libraryCall loc "any" []

/-- A reference to a type that is no type parameter. -/
def declared (loc : Loc) (name : EntityName) (args : List TypeExpr) : Reflecting Expr := do
  let args ← args.mapM reflect
  if name.ident?.any (·.toLower == "array") then return s.primitive loc "array" args
  let target := name.toExpr loc
  let target := if s.wasDeclared name.leftmost then target
    else s.libraryCall loc "tdz" [Synthetic.thunk loc target]
  return s.primitive loc "ref" (target :: args)

/-- A reference to a named type. -/
def reference (loc : Loc) (name : EntityName) (args : List TypeExpr) : Reflecting Expr := do
  match name.ident?.bind (Reflection.typeParam? s (← bound) loc) with
  | some e => return e
  | none => declared s reflect loc name args

/-- The constraint of a type parameter, if it has one. -/
def constraint : Option TypeExpr → Reflecting (List Expr)
  | some t => do pure [← reflect t]
  | none => pure []

/-- `const T = factory.typeParameter("T", bound)` for each type parameter, which is bound from then
on. -/
def typeParamConsts (factory : String) : List TypeParam → Reflecting (List Stmt)
  | [] => return []
  | TypeParam.mk mark name bound _ :: rest => do
    let loc := mark.loc
    let args ← constraint reflect bound.toOption
    let value := Synthetic.methodCall loc (Synthetic.ident loc factory) "typeParameter"
      (Synthetic.str loc name :: args)
    bindParam name
    return Synthetic.constStmt loc name value :: (← typeParamConsts factory rest)

/-- `(factory) => { const T = factory.typeParameter("T"); return body; }` -/
def factory (loc : Loc) (name : String) (params : List TypeParam) (body : Reflecting Expr) :
    Reflecting Expr := do
  let stmts ← inFactory do
    let stmts ← typeParamConsts reflect name params
    return stmts ++ [Synthetic.returnStmt loc (← body)]
  return Synthetic.arrow loc [name] (.block (.ofList stmts))

/-- The parameters of a signature and its result. -/
def signature (loc : Loc) (params : List SigParam) (result : Option TypeExpr) :
    Reflecting (List Expr) := do
  let args ← params.mapM fun
    | SigParam.mk mark form type => do
      let reflection ← optional s reflect mark.loc type.toOption
      return Reflection.parameter s mark.loc form.name reflection form.rest form.optional
  let result ← optional s reflect loc result
  return args ++ [s.libraryCall loc "return" [result]]

/-- `function(param(…)…, return(R))`, through a factory if there are type parameters -/
def function (loc : Loc) (typeParams : List TypeParam) (params : List SigParam)
    (result : Option TypeExpr) : Reflecting Expr := do
  if typeParams.isEmpty then
    return s.libraryCall loc "function" (← signature s reflect loc params result)
  else
    let body ← factory reflect loc (s.options.localName "fn") typeParams do
      return Synthetic.array loc (← signature s reflect loc params result)
    return s.libraryCall loc "function" [body]

/-- One member, after merging. -/
def member (entry : MemberEntry) : Reflecting Expr := do
  let flag (loc : Loc) (optional : Bool) : List Expr :=
    if optional then [Synthetic.bool loc true] else []
  match entry.member with
  | TypeMember.property site _ optional key type =>
    let loc := site.loc
    let type ← Reflecting.optional s reflect loc type.toOption
    return s.libraryCall loc (Reflection.memberKind entry.static "property")
      ([TypeKey.toExpr loc key, type] ++ flag loc optional)
  | TypeMember.method site optional key typeParams params result =>
    let loc := site.loc
    let f ← function s reflect loc typeParams.toLists params.toList result.toOption
    return s.libraryCall loc (Reflection.memberKind entry.static "property")
      ([TypeKey.toExpr loc key, s.nullable loc f] ++ flag loc optional)
  | TypeMember.call site typeParams params result =>
    let loc := site.loc
    let f ← function s reflect loc typeParams.toLists params.toList result.toOption
    return s.libraryCall loc (Reflection.memberKind entry.static "callProperty") [f]
  | TypeMember.construct site typeParams params result =>
    let loc := site.loc
    let f ← function s reflect loc typeParams.toLists params.toList result.toOption
    return s.libraryCall loc (Reflection.memberKind entry.static "callProperty") [f]
  | TypeMember.index site _ name key value =>
    let loc := site.loc
    let key ← reflect key
    let value ← reflect value
    return s.libraryCall loc (Reflection.memberKind entry.static "indexer")
      [Synthetic.str loc name, key, value]

/-- The members of a list, overloads merged. -/
def members (entries : List MemberEntry) : Reflecting (List Expr) :=
  (mergeOverloads entries).mapM (member s reflect)

/-- The outermost form of a type, given how its parts are reflected. -/
def step : TypeExpr → Reflecting Expr
  | TypeExpr.paren _ t => reflect t
  | TypeExpr.keyword site k => return Reflection.keyword s site.loc k
  | TypeExpr.literal site value => return Reflection.literal s site.loc value
  | TypeExpr.array site _ elem => do return s.primitive site.loc "array" [← reflect elem]
  | TypeExpr.tuple site _ elems => do
    return s.primitive site.loc "tuple" (← elems.toList.mapM reflect)
  | TypeExpr.union site types => do
    return s.primitive site.loc "union" (← types.toList.mapM reflect)
  | TypeExpr.intersection site types => do
    return s.primitive site.loc "intersection" (← types.toList.mapM reflect)
  | TypeExpr.reference site name args => reference s reflect site.loc name args.toLists
  | TypeExpr.func site typeParams params result => do
    return s.nullable site.loc
      (← function s reflect site.loc typeParams.toLists params.toList result)
  | TypeExpr.construct site _ typeParams params result => do
    return s.nullable site.loc
      (← function s reflect site.loc typeParams.toLists params.toList result)
  | TypeExpr.object site members => do
    return s.primitive site.loc "object"
      (← Reflecting.members s reflect (members.toList.map MemberEntry.ofMember))
  | TypeExpr.query site name => return s.primitive site.loc "typeOf" [name.toExpr site.loc]
  | t => throw ⟨TypeExpr.kindName t, TypeExpr.loc t⟩

end

/-- Reflects a type that is at most `fuel` high. -/
def typeWithin (s : Scope) : Nat → TypeExpr → Reflecting Expr
  | 0, t => throw ⟨TypeExpr.kindName t, TypeExpr.loc t⟩
  | fuel + 1, t => step s (typeWithin s fuel) t

/-- Reflects a type. -/
def type (s : Scope) (t : TypeExpr) : Reflecting Expr := typeWithin s t.height t

/-! ### Declarations -/

section

variable (s : Scope)

/-- `type("A", reflection)`, through a factory if `A` has type parameters -/
def namedType (loc : Loc) (name : String) (typeParams : List TypeParam) (body : Reflecting Expr) :
    Reflecting Expr := do
  let reflection ←
    if typeParams.isEmpty then body
    else factory (type s) loc (s.options.localName name) typeParams body
  return s.libraryCall loc "type" [Synthetic.str loc name, reflection]

/-- `intersect(bases…, object(members…))`, or the object alone without bases -/
def interfaceBody (loc : Loc) (bases : List TypeExpr) (members : List TypeMember) :
    Reflecting Expr := do
  let object := s.libraryCall loc "object"
    (← Reflecting.members s (type s) (members.map MemberEntry.ofMember))
  if bases.isEmpty then return object
  return s.libraryCall loc "intersect" ((← bases.mapM (type s)) ++ [object])

/-- The parts of a class: `extends(Base, args…)` and its members, followed by the members of
interfaces of the same name. -/
def classParts (loc : Loc) (decl : ClassDecl) (merged : List TypeMember) :
    Reflecting (List Expr) :=
  match decl with
  | ClassDecl.mk _ _ _ _ _ base baseArgs _ members => do
    let heritage ← match base.toOption with
      | some base => do
        let args ← baseArgs.toLists.mapM (type s)
        pure [s.libraryCall loc "extends" (base.detach :: args)]
      | none => pure []
    let entries := classEntries members.toList ++ merged.map MemberEntry.ofMember
    return heritage ++ (← Reflecting.members s (type s) entries)

/-- The parts of a class, through a factory if it has type parameters. -/
def generically (loc : Loc) (name : String) (typeParams : List TypeParam)
    (parts : Reflecting (List Expr)) : Reflecting (List Expr) :=
  if typeParams.isEmpty then parts
  else do
    let body ← factory (type s) loc (s.options.localName name) typeParams do
      return Synthetic.array loc (← parts)
    return [body]

/-- `class("C", extends(Base, args…), members…)` -/
def classDecl (loc : Loc) (decl : ClassDecl) (merged : List TypeMember) : Reflecting Expr := do
  let name := (ClassDecl.name? decl).getD "default"
  let parts ← generically s loc name decl.typeParams (classParts s loc decl merged)
  return s.libraryCall loc "class" (Synthetic.str loc name :: parts)

end

/-! ### The state does not change -/

/-- The steps give what `answer` says for the type parameters bound around, and leave the state as
it was. -/
def Follows {α : Type} (act : Reflecting α) (answer : List String → Except Unsupported α) : Prop :=
  ∀ locals, act.run.run locals = (answer locals.flatten, locals)

/-- The steps leave the state as it was, and with no factory around they give `answer`. -/
def Restores {α : Type} (act : Reflecting α) (answer : Except Unsupported α) : Prop :=
  (∀ locals, (act.run.run locals).2 = locals) ∧ act.run.run [] = (answer, [])

namespace Follows

variable {α β : Type} {act : Reflecting α} {answer : List String → Except Unsupported α}

theorem pure (a : α) : Follows (pure a) fun _ => .ok a := fun _ => rfl

theorem throw (u : Unsupported) : Follows (α := α) (throw u) fun _ => .error u := fun _ => rfl

theorem bind {f} {answers : α → List String → Except Unsupported β} (h : Follows act answer)
    (hf : ∀ a, Follows (f a) (answers a)) :
    Follows (act >>= f) fun bound => answer bound >>= (answers · bound) := by
  intro locals
  change _ = (answer locals.flatten >>= (answers · locals.flatten), locals)
  rw [ExceptT.run_bind, StateT.run_bind, h locals]
  cases answer locals.flatten with
  | error u => rfl
  | ok a => exact hf a locals

theorem mapM {f} {answers : List String → α → Except Unsupported β}
    (hf : ∀ a, Follows (f a) (answers · a)) (xs : List α) :
    Follows (xs.mapM f) fun bound => xs.mapM (answers bound) := by
  induction xs with
  | nil => exact .pure []
  | cons x xs ih =>
    simp only [List.mapM_cons]
    exact (hf x).bind fun b => ih.bind fun bs => .pure _

theorem of_bound : Follows bound fun bound => .ok bound := fun _ => rfl

end Follows

theorem run_inFactory {α : Type} (act : Reflecting α) (locals : List (List String)) :
    (inFactory act).run.run locals =
      ((act.run.run ([] :: locals)).1, (act.run.run ([] :: locals)).2.tail) := rfl

theorem run_map {α β : Type} (act : Reflecting α) (f : α → β) (locals : List (List String)) :
    StateT.run (ExceptT.run (do return f (← act))) locals =
      (f <$> (act.run.run locals).1, (act.run.run locals).2) := by
  rw [ExceptT.run_bind, StateT.run_bind]
  rcases act.run.run locals with ⟨u | a, locals'⟩ <;> rfl

section

variable {s : Scope} {reflect : TypeExpr → Reflecting Expr} {pureReflect : Reflection.Reflector}

theorem follows_optional (h : ∀ t, Follows (reflect t) (pureReflect · t)) (loc : Loc)
    (t : Option TypeExpr) :
    Follows (optional s reflect loc t) fun bound => Reflection.optional s pureReflect bound loc t := by
  cases t with
  | none => exact .pure _
  | some t => exact h t

theorem follows_declared (h : ∀ t, Follows (reflect t) (pureReflect · t)) (loc : Loc)
    {name : EntityName} (args : List TypeExpr) :
    Follows (declared s reflect loc name args) fun bound => do
      let args ← args.mapM (pureReflect bound)
      if name.ident?.any (·.toLower == "array") then return s.primitive loc "array" args
      let target := name.toExpr loc
      let target := if s.wasDeclared name.leftmost then target
        else s.libraryCall loc "tdz" [thunk loc target]
      return s.primitive loc "ref" (target :: args) := by
  refine (Follows.mapM h args).bind fun args => ?_
  split <;> exact .pure _

theorem follows_reference (h : ∀ t, Follows (reflect t) (pureReflect · t)) (loc : Loc)
    (name : EntityName) (args : List TypeExpr) :
    Follows (reference s reflect loc name args) fun bound =>
      Reflection.reference s pureReflect bound loc name args := by
  intro locals
  unfold reference Reflection.reference
  rw [ExceptT.run_bind, StateT.run_bind, Follows.of_bound locals]
  change StateT.run (ExceptT.run (match name.ident?.bind
    (Reflection.typeParam? s locals.flatten loc) with | some e => _ | none => _)) locals = _
  beta_reduce
  cases name.ident?.bind (Reflection.typeParam? s locals.flatten loc) with
  | some e => rfl
  | none => exact follows_declared h loc args locals

/-- The type parameters that are met are bound by the innermost factory. -/
theorem run_typeParamConsts (h : ∀ t, Follows (reflect t) (pureReflect · t)) (factory : String)
    (params : List TypeParam) (names : List String) (locals : List (List String)) :
    ∃ names', (typeParamConsts reflect factory params).run.run (names :: locals) =
        (Prod.fst <$> Reflection.typeParamConsts pureReflect factory (names :: locals).flatten params,
          names' :: locals) ∧
      ∀ stmts bound, Reflection.typeParamConsts pureReflect factory (names :: locals).flatten params =
        .ok (stmts, bound) → bound = (names' :: locals).flatten := by
  induction params generalizing names with
  | nil => exact ⟨names, rfl, by rintro _ _ ⟨⟩; rfl⟩
  | cons param params ih =>
    obtain ⟨name, _ | mark, _ | ⟨constraint, _ | ⟨default, _ | _⟩⟩⟩ := param
    -- once the constraint has been reflected, the parameter is bound and the others follow
    have rest (const : Stmt) : ∃ names', StateT.run (ExceptT.run (do
          bindParam name
          return const :: (← typeParamConsts reflect factory params))) (names :: locals) =
        (Prod.fst <$> (do
          let r ← Reflection.typeParamConsts pureReflect factory
            (name :: (names :: locals).flatten) params
          return (const :: r.1, r.2)), names' :: locals) ∧
        ∀ stmts bound, (do
          let r ← Reflection.typeParamConsts pureReflect factory
            (name :: (names :: locals).flatten) params
          return (const :: r.1, r.2)) = Except.ok (stmts, bound) →
            bound = (names' :: locals).flatten := by
      have flat : ((name :: names) :: locals).flatten = name :: (names :: locals).flatten := rfl
      obtain ⟨names', run, bound'⟩ := ih (name :: names)
      rw [flat] at run bound'
      generalize Reflection.typeParamConsts pureReflect factory
        (name :: (names :: locals).flatten) params = r at run bound' ⊢
      refine ⟨names', ?_, ?_⟩
      · change StateT.run (ExceptT.run (typeParamConsts reflect factory params >>= _))
          ((name :: names) :: locals) = _
        rw [ExceptT.run_bind, StateT.run_bind, run]
        rcases r with u | ⟨stmts, bound⟩ <;> rfl
      · intro stmts bound ok
        obtain ⟨⟨stmts', bound₁⟩, ok', same⟩ := bind_eq_ok.1 ok
        cases same
        exact bound' _ _ ok'
    rw [typeParamConsts, Reflection.typeParamConsts, ExceptT.run_bind, StateT.run_bind]
    cases constraint.toOption with
    | none => exact rest _
    | some t =>
      rw [Reflecting.constraint, ExceptT.run_bind, StateT.run_bind, h t (names :: locals)]
      beta_reduce
      dsimp only
      cases pureReflect (names :: locals).flatten t with
      | error u => exact ⟨names, rfl, fun _ _ ok => by cases ok⟩
      | ok e => exact rest _

/-- The type parameters of a factory are bound in its body only. -/
theorem follows_factory (h : ∀ t, Follows (reflect t) (pureReflect · t)) (loc : Loc) (name : String)
    (params : List TypeParam) {answer} (hb : Follows body answer) :
    Follows (factory reflect loc name params body) fun bound =>
      Reflection.factory pureReflect bound loc name params answer := by
  intro locals
  obtain ⟨names', run, bound'⟩ := run_typeParamConsts h name params [] locals
  have flat : ([] :: locals).flatten = locals.flatten := rfl
  rw [flat] at run bound'
  change _ = (Reflection.factory pureReflect locals.flatten loc name params answer, locals)
  unfold Reflection.factory
  generalize Reflection.typeParamConsts pureReflect name locals.flatten params = r at run bound' ⊢
  have inside : StateT.run (ExceptT.run (do
        let stmts ← typeParamConsts reflect name params
        return stmts ++ [returnStmt loc (← body)])) ([] :: locals) =
      ((do
        let r ← r
        return r.1 ++ [returnStmt loc (← answer r.2)]), names' :: locals) := by
    rw [ExceptT.run_bind, StateT.run_bind, run]
    rcases r with u | ⟨stmts, bound⟩
    · rfl
    · obtain rfl := bound' _ _ rfl
      exact (hb.bind fun value => .pure (stmts ++ [returnStmt loc value])) (names' :: locals)
  unfold factory
  rw [run_map, run_inFactory, inside]
  rcases r with u | ⟨stmts, bound⟩
  · rfl
  · change (_ <$> (answer bound >>= _), locals) = (answer bound >>= _, locals)
    cases answer bound <;> rfl

theorem follows_signature (h : ∀ t, Follows (reflect t) (pureReflect · t)) (loc : Loc)
    (params : List SigParam) (result : Option TypeExpr) :
    Follows (signature s reflect loc params result) fun bound =>
      Reflection.signature s pureReflect bound loc params result := by
  have each (p : SigParam) : Follows
      (match p with
        | SigParam.mk mark form type => do
          let reflection ← optional s reflect mark.loc type.toOption
          return Reflection.parameter s mark.loc form.name reflection form.rest form.optional)
      fun bound => match p with
        | SigParam.mk mark form type => do
          let reflection ← Reflection.optional s pureReflect bound mark.loc type.toOption
          return Reflection.parameter s mark.loc form.name reflection form.rest form.optional := by
    match p with
    | SigParam.mk mark form type => exact (follows_optional h mark.loc _).bind fun _ => .pure _
  exact (Follows.mapM each params).bind fun args =>
    (follows_optional h loc result).bind fun result => .pure _

theorem follows_function (h : ∀ t, Follows (reflect t) (pureReflect · t)) (loc : Loc)
    (typeParams : List TypeParam) (params : List SigParam) (result : Option TypeExpr) :
    Follows (function s reflect loc typeParams params result) fun bound =>
      Reflection.function s pureReflect bound loc typeParams params result := by
  have args := follows_signature (s := s) h loc params result
  unfold function Reflection.function
  split
  · exact args.bind fun _ => .pure _
  · exact (follows_factory h loc _ typeParams (args.bind fun _ => .pure _)).bind fun _ => .pure _

theorem follows_member (h : ∀ t, Follows (reflect t) (pureReflect · t)) (entry : MemberEntry) :
    Follows (member s reflect entry) fun bound => Reflection.member s pureReflect bound entry := by
  obtain ⟨static, m⟩ := entry
  match m with
  | TypeMember.property site _ _ _ type => exact (follows_optional h site.loc _).bind fun _ => .pure _
  | TypeMember.method site _ _ typeParams params result =>
    exact (follows_function h site.loc _ _ _).bind fun _ => .pure _
  | TypeMember.call site typeParams params result =>
    exact (follows_function h site.loc _ _ _).bind fun _ => .pure _
  | TypeMember.construct site typeParams params result =>
    exact (follows_function h site.loc _ _ _).bind fun _ => .pure _
  | TypeMember.index site _ _ key value =>
    exact (h key).bind fun _ => (h value).bind fun _ => .pure _

theorem follows_members (h : ∀ t, Follows (reflect t) (pureReflect · t))
    (entries : List MemberEntry) :
    Follows (members s reflect entries) fun bound =>
      Reflection.members s pureReflect bound entries :=
  .mapM (follows_member h) _

theorem follows_step (h : ∀ t, Follows (reflect t) (pureReflect · t)) (t : TypeExpr) :
    Follows (step s reflect t) fun bound => Reflection.step s pureReflect bound t := by
  match t with
  | TypeExpr.paren _ t => exact h t
  | TypeExpr.keyword _ _ | TypeExpr.literal _ _ | TypeExpr.query _ _ => exact .pure _
  | TypeExpr.array _ _ elem => exact (h elem).bind fun _ => .pure _
  | TypeExpr.tuple _ _ types | TypeExpr.union _ types | TypeExpr.intersection _ types =>
    exact (Follows.mapM h _).bind fun _ => .pure _
  | TypeExpr.reference site name args => exact follows_reference h site.loc name _
  | TypeExpr.func site _ _ _ | TypeExpr.construct site _ _ _ _ =>
    exact (follows_function h site.loc _ _ _).bind fun _ => .pure _
  | TypeExpr.object _ _ => exact (follows_members h _).bind fun _ => .pure _
  | TypeExpr.operator _ _ _ | TypeExpr.indexed _ _ _ | TypeExpr.conditional _ _ _ _ _
  | TypeExpr.infer _ _ _ | TypeExpr.mapped _ _ _ _ | TypeExpr.predicate _ _ _ _ => exact .throw _

end

/-! ### Reflections -/

section

variable (s : Scope)

theorem follows_typeWithin (fuel : Nat) (t : TypeExpr) :
    Follows (typeWithin s fuel t) (s.reflectWithin fuel · t) := by
  induction fuel generalizing t with
  | zero => exact .throw _
  | succ fuel ih => exact follows_step ih t

theorem follows_type (t : TypeExpr) : Follows (type s t) (s.reflectUnder · t) :=
  follows_typeWithin s t.height t

theorem restores_namedType (loc : Loc) (name : String) (typeParams : List TypeParam) {answer}
    (hb : Follows body answer) :
    Restores (namedType s loc name typeParams body) (s.namedType loc name typeParams answer) := by
  have run : Follows (namedType s loc name typeParams body) fun bound => do
      let reflection ←
        if typeParams.isEmpty then answer bound
        else Reflection.factory s.reflectUnder bound loc (s.options.localName name) typeParams answer
      return s.libraryCall loc "type" [str loc name, reflection] := by
    unfold namedType
    split
    · exact hb.bind fun _ => .pure _
    · exact (follows_factory (follows_type s) loc _ typeParams hb).bind fun _ => .pure _
  exact ⟨fun locals => congrArg Prod.snd (run locals), run []⟩

theorem follows_interfaceBody (loc : Loc) (bases : List TypeExpr) (members : List TypeMember) :
    Follows (interfaceBody s loc bases members) (s.interfaceBody · loc bases members) := by
  refine (follows_members (follows_type s) _).bind fun object => ?_
  split
  · exact .pure _
  · exact (Follows.mapM (follows_type s) bases).bind fun _ => .pure _

theorem follows_classParts (loc : Loc) (decl : ClassDecl) (merged : List TypeMember) :
    Follows (classParts s loc decl merged) (s.classParts · loc decl merged) := by
  match decl with
  | ClassDecl.mk _ _ _ _ _ base baseArgs _ members =>
    have rest (heritage : List Expr) := (follows_members (s := s) (follows_type s)
      (classEntries members.toList ++ merged.map MemberEntry.ofMember)).bind fun parts =>
        Follows.pure (heritage ++ parts)
    simp only [classParts, Scope.classParts]
    cases base.toOption with
    | none => exact rest []
    | some base => exact (Follows.mapM (follows_type s) baseArgs.toLists).bind fun args => rest _

theorem follows_generically (loc : Loc) (name : String) (typeParams : List TypeParam) {parts answer}
    (h : Follows parts answer) :
    Follows (generically s loc name typeParams parts) fun bound =>
      if typeParams.isEmpty then answer bound
      else do
        let body ← Reflection.factory s.reflectUnder bound loc (s.options.localName name) typeParams
          fun bound => do return array loc (← answer bound)
        return [body] := by
  unfold generically
  split
  · exact h
  · exact (follows_factory (follows_type s) loc _ typeParams (h.bind fun _ => .pure _)).bind
      fun _ => .pure _

theorem restores_classDecl (loc : Loc) (decl : ClassDecl) (merged : List TypeMember) :
    Restores (classDecl s loc decl merged) (s.reflectClass loc decl merged) := by
  have run := (follows_generically s loc ((ClassDecl.name? decl).getD "default") decl.typeParams
    (follows_classParts s loc decl merged)).bind fun parts => .pure (s.libraryCall loc "class"
      (str loc ((ClassDecl.name? decl).getD "default") :: parts))
  refine ⟨fun locals => congrArg Prod.snd (run locals), (run []).trans (congrArg (·, []) ?_)⟩
  match decl with
  | ClassDecl.mk _ _ _ _ typeParams _ _ _ _ =>
    rw [Scope.reflectClass]
    by_cases plain : typeParams.toLists.isEmpty = true
    case pos =>
      simp only [ClassDecl.typeParams, if_pos plain]
      rfl
    case neg =>
      simp only [ClassDecl.typeParams, if_neg plain, bind_assoc, pure_bind]
      rfl

end

end Reflecting

end Reify
