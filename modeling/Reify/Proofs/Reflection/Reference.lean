import Mathlib.Logic.Relation
import Reify.Proofs.Syntax.Occurrence

/-!
# References

Reflecting a type reflects the types it is made of, and the reflections of the parts occur in that
of the whole (`Request.Asks.occurs`).  So wherever a reference to a named type stands in a type, the
library call that it becomes stands in the reflection: it refers to the value directly if the value
has been declared, and defers the access otherwise (`Request.reference_reflects`).
-/

namespace Reify

open List

/-! ### Parts of types -/

namespace Reflection

/-- Types, each with the type parameters that factories around it bind. -/
abbrev Parts := List (List String × TypeExpr)

/-- The bounds of type parameters, each in reach of those before it. -/
def typeParamParts : List String → List TypeParam → Parts
  | _, [] => []
  | bound, TypeParam.mk _ name constraint _ :: rest =>
    constraint.toOption.toList.map (bound, ·) ++ typeParamParts (name :: bound) rest

/-- The types of the parameters of a signature and its result type. -/
def signatureParts (bound : List String) (params : List SigParam) (result : Option TypeExpr) :
    Parts :=
  (params.filterMap SigParam.type? ++ result.toList).map (bound, ·)

/-- The types that a function type is made of. -/
def functionParts (bound : List String) (typeParams : List TypeParam) (params : List SigParam)
    (result : Option TypeExpr) : Parts :=
  typeParamParts bound typeParams ++ signatureParts (bindParams bound typeParams) params result

/-- The types that a member is made of. -/
def memberParts (bound : List String) (entry : MemberEntry) : Parts :=
  match entry.member with
  | TypeMember.property _ _ _ _ type => type.toOption.toList.map (bound, ·)
  | TypeMember.method _ _ _ typeParams params result =>
    functionParts bound typeParams.toLists params.toList result.toOption
  | TypeMember.call _ typeParams params result =>
    functionParts bound typeParams.toLists params.toList result.toOption
  | TypeMember.construct _ typeParams params result =>
    functionParts bound typeParams.toLists params.toList result.toOption
  | TypeMember.index _ _ _ key value => [(bound, key), (bound, value)]

/-- The types that the members of a list are made of, overloads merged. -/
def membersParts (bound : List String) (entries : List MemberEntry) : Parts :=
  (mergeOverloads entries).flatMap (memberParts bound)

variable {params : List TypeParam} {result : Option TypeExpr}

/-- All parts have reflections, and these are among the given expressions. -/
def Emits (reflect : Reflector) (parts : Parts) (exprs : List Expr) : Prop :=
  ∀ p ∈ parts, ∃ e ∈ exprs, reflect p.1 p.2 = .ok e

/-- One of the parts fails. -/
def Fails (reflect : Reflector) (parts : Parts) (u : Unsupported) : Prop :=
  ∃ p ∈ parts, reflect p.1 p.2 = .error u

theorem Emits.mono {reflect parts exprs exprs'} (h : Emits reflect parts exprs)
    (sub : exprs ⊆ exprs') : Emits reflect parts exprs' := by
  intro p hp
  obtain ⟨e, he, reflected⟩ := h p hp
  exact ⟨e, sub he, reflected⟩

/-- **A result that draws on parts**: it holds the reflections of all of them, and it fails only with
one of them. -/
structure Draws (reflect : Reflector) (parts : Parts) {α : Type} (exprs : α → List Expr)
    (r : Result α) : Prop where
  emits {a} : r = .ok a → Emits reflect parts (exprs a)
  fails {u} : r = .error u → Fails reflect parts u

namespace Draws

variable {reflect : Reflector} {parts parts' : Parts} {α β : Type} {exprs : α → List Expr}
  {exprs' : β → List Expr} {x : Result α} {bound : List String}

theorem pure {a} : Draws reflect [] exprs (pure a) := ⟨fun _ => nofun, nofun⟩

theorem one {t} : Draws reflect [(bound, t)] Tree.exprs (reflect bound t) where
  emits h := forall_mem_singleton.2 ⟨_, Expr.mem_exprs_self _, h⟩
  fails h := ⟨_, mem_cons_self, h⟩

theorem bind {f : α → Result β} (h : Draws reflect parts exprs x)
    (rest : ∀ a, x = .ok a → Draws reflect parts' exprs' (f a))
    (sub : ∀ a b, f a = .ok b → exprs a ⊆ exprs' b) :
    Draws reflect (parts ++ parts') exprs' (x >>= f) where
  emits made := by
    obtain ⟨a, hx, made⟩ := bind_eq_ok.1 made
    exact forall_mem_append.2 ⟨(h.emits hx).mono (sub a _ made), (rest a hx).emits made⟩
  fails failed := by
    rcases bind_eq_error.1 failed with failed | ⟨a, hx, failed⟩
    · obtain ⟨p, hp, failed⟩ := h.fails failed
      exact ⟨p, mem_append_left _ hp, failed⟩
    · obtain ⟨p, hp, failed⟩ := (rest a hx).fails failed
      exact ⟨p, mem_append_right _ hp, failed⟩

theorem map {f : α → β} (h : Draws reflect parts exprs x) (sub : ∀ a, exprs a ⊆ exprs' (f a)) :
    Draws reflect parts exprs' (x >>= fun a => Pure.pure (f a)) where
  emits made := by
    obtain ⟨a, hx, rfl⟩ := bind_pure_eq_ok.1 made
    exact (h.emits hx).mono (sub a)
  fails failed := h.fails (bind_pure_eq_error.1 failed)

theorem mapM {f : β → Result α} {g : β → Parts} (exprs : α → List Expr)
    (h : ∀ y, Draws reflect (g y) exprs (f y)) (ys : List β) :
    Draws reflect (ys.flatMap g) (·.flatMap exprs) (ys.mapM f) where
  emits made p hp := by
    obtain ⟨y, hy, hp⟩ := mem_flatMap.1 hp
    obtain ⟨a, ha, made⟩ := mem_of_mapM made hy
    obtain ⟨e, he, reflected⟩ := (h y).emits made p hp
    exact ⟨e, mem_flatMap.2 ⟨a, ha, he⟩, reflected⟩
  fails failed := by
    obtain ⟨y, hy, failed⟩ := exists_of_mapM_error failed
    obtain ⟨p, hp, failed⟩ := (h y).fails failed
    exact ⟨p, mem_flatMap.2 ⟨y, hy, hp⟩, failed⟩

theorem types (ts : List TypeExpr) :
    Draws reflect (ts.map (bound, ·)) (·.flatMap Tree.exprs) (ts.mapM (reflect bound)) := by
  rw [map_eq_flatMap]
  exact mapM _ (fun _ => one) ts

end Draws

section

variable {s : Scope} {reflect : Reflector} {bound : List String} {loc : Loc}

theorem draws_optional (t : Option TypeExpr) :
    Draws reflect (t.toList.map (bound, ·)) Tree.exprs (optional s reflect bound loc t) := by
  cases t with
  | none => exact .pure
  | some t => exact .one

theorem draws_typeParamConsts {factory} :
    Draws reflect (typeParamParts bound params) (·.1.flatMap Tree.exprs)
      (typeParamConsts reflect factory bound params) := by
  induction params generalizing bound with
  | nil => exact .pure
  | cons p params ih =>
    match p with
    | TypeParam.mk mark name constraint default =>
      rw [typeParamConsts_cons]
      refine .bind (.types _) (fun args _ => ih.map fun r => ?_) fun args r made e he => ?_
      · exact subset_append_right _ _
      · obtain ⟨_, -, rfl⟩ := bind_pure_eq_ok.1 made
        obtain ⟨a, ha, he⟩ := mem_flatMap.1 he
        exact mem_append_left _ (mem_exprs_constStmt (mem_exprs_call (mem_cons_of_mem _ ha) he))

theorem typeParamConsts_after {factory r} (h : typeParamConsts reflect factory bound params = .ok r) :
    r.2 = bindParams bound params := by
  induction params generalizing bound r with
  | nil =>
    obtain rfl := pure_eq_ok.1 h
    rfl
  | cons p params ih =>
    match p with
    | TypeParam.mk mark name constraint default =>
      rw [typeParamConsts_cons] at h
      obtain ⟨args, -, h⟩ := bind_eq_ok.1 h
      obtain ⟨r, made, rfl⟩ := bind_pure_eq_ok.1 h
      exact (ih made : r.2 = _)

theorem draws_factory {name body parts}
    (hb : Draws reflect parts Tree.exprs (body (bindParams bound params))) :
    Draws reflect (typeParamParts bound params ++ parts) Tree.exprs
      (factory reflect bound loc name params body) := by
  refine .bind draws_typeParamConsts (fun r made => ?_) fun r e made x hx => ?_
  · rw [← typeParamConsts_after made] at hb
    exact hb.map fun value x hx => mem_exprs_arrow
      (mem_exprs_block (mem_append_right _ mem_cons_self) (mem_exprs_returnStmt hx))
  · obtain ⟨value, -, rfl⟩ := bind_pure_eq_ok.1 made
    obtain ⟨stmt, hstmt, hx⟩ := mem_flatMap.1 hx
    exact mem_exprs_arrow (mem_exprs_block (mem_append_left _ hstmt) hx)

theorem draws_signature (params : List SigParam) :
    Draws reflect (signatureParts bound params result) (·.flatMap Tree.exprs)
      (signature s reflect bound loc params result) := by
  rw [signatureParts, map_append, filterMap_eq_flatMap_toList, map_flatMap]
  refine .bind (.mapM Tree.exprs (fun p => ?_) params) (fun args _ =>
    (draws_optional result).map fun r x hx => ?_) fun args es made x hx => ?_
  · match p with
    | SigParam.mk mark form type =>
      exact (draws_optional type.toOption).map fun _ _ => mem_exprs_parameter
  · exact mem_flatMap.2 ⟨_, mem_append_right _ (mem_singleton.2 rfl),
      mem_exprs_libraryCall (mem_singleton.2 rfl) hx⟩
  · obtain ⟨r, -, rfl⟩ := bind_pure_eq_ok.1 made
    rw [flatMap_append]
    exact mem_append_left _ hx

theorem mem_exprs_arguments {name : String} {es : List Expr} :
    es.flatMap Tree.exprs ⊆ (s.libraryCall loc name es).exprs := by
  intro x hx
  obtain ⟨a, ha, hx⟩ := mem_flatMap.1 hx
  exact mem_exprs_libraryCall ha hx

theorem draws_function (typeParams : List TypeParam) (params : List SigParam) :
    Draws reflect (functionParts bound typeParams params result) Tree.exprs
      (function s reflect bound loc typeParams params result) := by
  rw [function]
  split
  case isTrue none =>
    rw [List.isEmpty_iff] at none
    subst none
    exact (draws_signature params).map fun _ => mem_exprs_arguments
  case isFalse =>
    refine (draws_factory ((draws_signature params).map fun es x hx => ?_)).map fun _ x hx =>
      mem_exprs_libraryCall (mem_singleton.2 rfl) hx
    obtain ⟨a, ha, hx⟩ := mem_flatMap.1 hx
    exact mem_exprs_array ha hx

theorem draws_member (entry : MemberEntry) :
    Draws reflect (memberParts bound entry) Tree.exprs (member s reflect bound entry) := by
  match entry with
  | ⟨static, TypeMember.property site readonly optional key type⟩ =>
    exact (draws_optional type.toOption).map fun t x hx => mem_exprs_libraryCall (by simp) hx
  | ⟨static, TypeMember.method site optional key typeParams params result⟩ =>
    exact (draws_function _ _).map fun f x hx =>
      mem_exprs_libraryCall (a := s.nullable site.loc f) (by simp) (mem_exprs_nullable hx)
  | ⟨static, TypeMember.call site typeParams params result⟩
  | ⟨static, TypeMember.construct site typeParams params result⟩ =>
    exact (draws_function _ _).map fun f x hx => mem_exprs_libraryCall (by simp) hx
  | ⟨static, TypeMember.index site readonly name key value⟩ =>
    refine .bind .one (fun k _ => .map .one fun v x hx => ?_) fun k e made x hx => ?_
    · exact mem_exprs_libraryCall (by simp) hx
    · obtain ⟨v, -, rfl⟩ := bind_pure_eq_ok.1 made
      exact mem_exprs_libraryCall (by simp) hx

theorem draws_members (entries : List MemberEntry) :
    Draws reflect (membersParts bound entries) (·.flatMap Tree.exprs)
      (members s reflect bound entries) :=
  .mapM _ draws_member _

end

/-- Whether a name is that of a type parameter in reach. -/
def isParam (generics : List Generics) (bound : List String) (name : EntityName) : Bool :=
  name.ident?.any fun x => bound.contains x || generics.any (·.names.contains x)

/-- Whether a name is that of the built-in type of arrays, in whatever case. -/
def isArray (name : EntityName) : Bool := name.ident?.any (·.toLower == "array")

theorem typeParam?_eq_none {s bound loc name} (h : isParam s.generics bound name = false) :
    name.ident?.bind (typeParam? s bound loc) = none := by
  cases hn : name.ident? with
  | none => rfl
  | some x =>
    rw [isParam, hn, Option.any_some, Bool.or_eq_false_iff] at h
    change typeParam? s bound loc x = none
    rw [typeParam?, h.1, Scope.access?, find?_eq_none.2 (by simpa using h.2)]
    rfl

end Reflection

/-! ### Requests -/

/-- A type to be reflected. -/
structure Request where
  /-- The type parameters in reach. -/
  generics : List Generics
  /-- The names that factories around the type bind. -/
  bound : List String
  type : TypeExpr

/-- The scope with the type parameters that are in reach of a request. -/
def Scope.reaching (s : Scope) (generics : List Generics) : Scope := { s with generics }

namespace Request

/-- The request is answered by an expression. -/
def Reflects (s : Scope) (q : Request) (e : Expr) : Prop :=
  ∃ fuel, (s.reaching q.generics).reflectWithin fuel q.bound q.type = .ok e

/-- A type that is reflected along with another. -/
inductive Part : Request → Request → Prop where
  | paren {gs bound site t} : Part ⟨gs, bound, TypeExpr.paren site t⟩ ⟨gs, bound, t⟩
  | array {gs bound site readonly t} :
      Part ⟨gs, bound, TypeExpr.array site readonly t⟩ ⟨gs, bound, t⟩
  | tuple {gs bound site readonly ts t} (h : t ∈ ts.toList) :
      Part ⟨gs, bound, TypeExpr.tuple site readonly ts⟩ ⟨gs, bound, t⟩
  | union {gs bound site ts t} (h : t ∈ ts.toList) :
      Part ⟨gs, bound, TypeExpr.union site ts⟩ ⟨gs, bound, t⟩
  | intersection {gs bound site ts t} (h : t ∈ ts.toList) :
      Part ⟨gs, bound, TypeExpr.intersection site ts⟩ ⟨gs, bound, t⟩
  | argument {gs bound site name args t} (hn : Reflection.isParam gs bound name = false)
      (h : t ∈ args.toLists) :
      Part ⟨gs, bound, TypeExpr.reference site name args⟩ ⟨gs, bound, t⟩
  | func {gs bound site typeParams params result bound' t}
      (h : (bound', t) ∈
        Reflection.functionParts bound typeParams.toLists params.toList (some result)) :
      Part ⟨gs, bound, TypeExpr.func site typeParams params result⟩ ⟨gs, bound', t⟩
  | construct {gs bound site abstract typeParams params result bound' t}
      (h : (bound', t) ∈
        Reflection.functionParts bound typeParams.toLists params.toList (some result)) :
      Part ⟨gs, bound, TypeExpr.construct site abstract typeParams params result⟩ ⟨gs, bound', t⟩
  | object {gs bound site members bound' t}
      (h : (bound', t) ∈
        Reflection.membersParts bound (members.toList.map MemberEntry.ofMember)) :
      Part ⟨gs, bound, TypeExpr.object site members⟩ ⟨gs, bound', t⟩

/-- A type that is reflected on the way to reflecting another. -/
abbrev Asks : Request → Request → Prop := Relation.ReflTransGen Part

variable {s : Scope} {q q' : Request} {e : Expr}

/-- What a request is answered by comes from one more step of reflection. -/
theorem Reflects.step (h : q.Reflects s e) :
    ∃ fuel, Reflection.step (s.reaching q.generics)
      ((s.reaching q.generics).reflectWithin fuel) q.bound q.type = .ok e := by
  obtain ⟨fuel, h⟩ := h
  cases fuel with
  | zero => cases h
  | succ fuel => exact ⟨fuel, h⟩

theorem of_emits {gs fuel parts exprs}
    (h : Reflection.Emits ((s.reaching gs).reflectWithin fuel) parts exprs) {bound t}
    (hp : (bound, t) ∈ parts) : ∃ e ∈ exprs, Reflects s ⟨gs, bound, t⟩ e := by
  obtain ⟨e, he, reflected⟩ := h _ hp
  exact ⟨e, he, fuel, reflected⟩

/-- The answer to a part occurs in the answer to the whole. -/
theorem Part.occurs (h : Part q q') (answer : q.Reflects s e) :
    ∃ e' ∈ e.exprs, q'.Reflects s e' := by
  obtain ⟨fuel, answer⟩ := answer.step
  cases h with
  | paren => exact ⟨e, e.mem_exprs_self, fuel, answer⟩
  | array =>
    obtain ⟨elem, helem, rfl⟩ := bind_pure_eq_ok.1 answer
    exact ⟨elem, mem_exprs_primitive (by simp) elem.mem_exprs_self, fuel, helem⟩
  | tuple h | union h | intersection h =>
    obtain ⟨es, hes, rfl⟩ := bind_pure_eq_ok.1 answer
    obtain ⟨e', he', reflected⟩ := mem_of_mapM hes h
    exact ⟨e', mem_exprs_primitive he' e'.mem_exprs_self, fuel, reflected⟩
  | @argument gs bound site name args t hn h =>
    change Reflection.reference _ _ _ _ _ _ = _ at answer
    rw [Reflection.reference, Reflection.typeParam?_eq_none hn] at answer
    obtain ⟨es, hes, answer⟩ := bind_eq_ok.1 answer
    obtain ⟨e', he', reflected⟩ := mem_of_mapM hes h
    refine ⟨e', ?_, fuel, reflected⟩
    split at answer
    · obtain rfl := pure_eq_ok.1 answer
      exact mem_exprs_primitive he' e'.mem_exprs_self
    · obtain rfl := pure_eq_ok.1 answer
      exact mem_exprs_primitive (mem_cons_of_mem _ he') e'.mem_exprs_self
  | func h | construct h =>
    obtain ⟨f, hf, rfl⟩ := bind_pure_eq_ok.1 answer
    exact of_emits (((Reflection.draws_function _ _).emits hf).mono fun _ => mem_exprs_nullable) h
  | object h =>
    obtain ⟨es, hes, rfl⟩ := bind_pure_eq_ok.1 answer
    refine of_emits (((Reflection.draws_members _).emits hes).mono fun e he => ?_) h
    obtain ⟨a, ha, he⟩ := mem_flatMap.1 he
    exact mem_exprs_primitive ha he

/-- The answer to whatever a request asks for occurs in its own answer. -/
theorem Asks.occurs (h : Asks q q') (answer : q.Reflects s e) :
    ∃ e' ∈ e.exprs, q'.Reflects s e' := by
  induction h with
  | refl => exact ⟨e, e.mem_exprs_self, answer⟩
  | tail _ part ih =>
    obtain ⟨e₁, he₁, answer₁⟩ := ih
    obtain ⟨e', he', answer'⟩ := part.occurs answer₁
    exact ⟨e', Tree.exprs_trans he₁ he', answer'⟩

end Request

/-- The library call for a reference to a named type: `lib.ref(A.B, args…)`, and
`lib.ref(lib.tdz(() => A.B), args…)` where the value must not be touched yet. -/
def Scope.refCall (s : Scope) (loc : Loc) (name : EntityName) (direct : Bool) (args : List Expr) :
    Expr :=
  s.primitive loc "ref" ((if direct then name.toExpr loc
    else s.libraryCall loc "tdz" [Synthetic.thunk loc (name.toExpr loc)]) :: args)

/-- **References.**  A reference to a named type that is neither a type parameter in reach nor the
built-in array type becomes a direct reference exactly if a value of its leftmost name has been
declared. -/
theorem Request.reference_reflects {s gs bound site name args e}
    (hp : Reflection.isParam gs bound name = false) (ha : Reflection.isArray name = false)
    (h : Request.Reflects s ⟨gs, bound, TypeExpr.reference site name args⟩ e) :
    ∃ es, e = s.refCall site.loc name (s.wasDeclared name.leftmost) es := by
  obtain ⟨fuel, h⟩ := h.step
  change Reflection.reference _ _ _ _ _ _ = _ at h
  rw [Reflection.reference, Reflection.typeParam?_eq_none hp] at h
  obtain ⟨es, -, h⟩ := bind_eq_ok.1 h
  rw [show name.ident?.any (·.toLower == "array") = false from ha] at h
  obtain rfl := pure_eq_ok.1 h
  exact ⟨es, rfl⟩

end Reify
