import Reify.Proofs.Reflection.Support

/-!
# Related reflections

Two reflections are compared by a relation on trees: they may differ in places, or in what one of
them wraps.  `Scope.Congruent` and `Scope.Corresponds` say what the relation has to bear: it holds
of trees of one form whose parts it relates, and of two calls of the library that are made nullable.
Then types whose parts have related reflections have related reflections
(`Reflection.Agrees.step`), and both fail alike.
-/

namespace Reify

open List Synthetic

/-! ### Pairs of trees -/

/-- Marks of the program's own at places that are near each other. -/
inductive Marks.Near (near : Loc → Loc → Prop) : {n : Nat} → Marks n → Marks n → Prop where
  | none : Marks.Near near .none .none
  | mark {loc loc' : Loc} (place : near loc loc') :
      Marks.Near near (.one (.synthetic loc)) (.one (.synthetic loc'))
  | site {loc loc' : Loc} (place : near loc loc') :
      Marks.Near near (.two (.synthetic loc)) (.two (.synthetic loc'))

theorem Marks.Near.eq {n} {m m' : Marks n} (h : m.Near Eq m') : m = m' := by
  cases h with
  | none => rfl
  | mark place | site place => rw [place]

theorem Children.Related.eq {cs} {ts ts' : Children cs} (h : ts.Related (fun _ => Eq) ts') :
    ts = ts' := by
  induction h with
  | nil => rfl
  | cons head _ ih => rw [head, ih]

/-- Both computations fail at places near each other, or both succeed with related results. -/
inductive Agree {α β : Type} (near : Loc → Loc → Prop) (A : α → β → Prop) :
    Except Unsupported α → Except Unsupported β → Prop where
  | ok {a : α} {b : β} (related : A a b) : Agree near A (.ok a) (.ok b)
  | error {kind : String} {loc loc' : Loc} (place : near loc loc') :
      Agree near A (.error ⟨kind, loc⟩) (.error ⟨kind, loc'⟩)

namespace Agree

variable {α β γ δ : Type} {near : Loc → Loc → Prop} {A : α → β → Prop} {B : γ → δ → Prop}

theorem bind {x y f g} (h : Agree near A x y) (hf : ∀ a b, A a b → Agree near B (f a) (g b)) :
    Agree near B (x >>= f) (y >>= g) := by
  cases h with
  | ok related => exact hf _ _ related
  | error place => exact .error place

theorem of_eq {x y : Except Unsupported α} (h : x = y) : Agree Eq Eq x y := by
  subst h
  cases x with
  | ok => exact .ok rfl
  | error => exact .error rfl

theorem eq {x y : Except Unsupported α} (h : Agree Eq Eq x y) : x = y := by
  cases h with
  | ok same => rw [same]
  | error place => rw [place]

theorem pure {a b} (h : A a b) :
    Agree near A (Pure.pure a : Except Unsupported α) (Pure.pure b) := .ok h

/-- Lists are related if their elements are. -/
theorem mapM {f g} {xs : List α} {ys : List β}
    (h : Forall₂ (fun x y => Agree near B (f x) (g y)) xs ys) :
    Agree near (Forall₂ B) (xs.mapM f) (ys.mapM g) := by
  induction h with
  | nil => exact .pure .nil
  | cons head _ ih =>
    rw [mapM_cons, mapM_cons]
    exact head.bind fun b d related => ih.bind fun bs ds rest => .pure (.cons related rest)

end Agree

/-- Sequences are related if their lists are. -/
theorem Children.related_ofList {R c ts ts'} (h : Forall₂ (R c) ts ts') :
    ∃ (n : Nat) (us us' : Children (List.replicate n c)), us.Related R us' ∧
      Tree.ofList ts = .node (c := .many c) n .none us ∧
      Tree.ofList ts' = .node (c := .many c) n .none us' := by
  induction h with
  | nil => exact ⟨0, .nil, .nil, .nil, rfl, rfl⟩
  | @cons t t' ts ts' head _ ih =>
    obtain ⟨n, us, us', tail, eq, eq'⟩ := ih
    refine ⟨n + 1, .cons t us, .cons t' us', .cons head tail, ?_, ?_⟩
    · rw [Tree.ofList_cons, eq, Tree.consMany]
    · rw [Tree.ofList_cons, eq', Tree.consMany]

/-- Two scopes in which the same names are in reach, and a relation that holds of trees made alike
from related parts. -/
structure Scope.Congruent (s s' : Scope) (near : Loc → Loc → Prop)
    (R : (c : Category) → Tree c → Tree c → Prop) : Prop where
  library : s.options.library = s'.options.library
  localName (name : String) : s.options.localName name = s'.options.localName name
  declared : s.declared = s'.declared
  generics : s.generics = s'.generics
  node {c : Category} {form : Form c} {m m' : Marks form.width} {ts ts' : Children form.arity} :
    Marks.Near near m m' → ts.Related R ts' → R c (.node form m ts) (.node form m' ts')
  loc {e e' : Expr} : R .expr e e' → near e.loc e'.loc

variable {b' : FuncBody}

namespace Scope.Congruent

variable {s s' : Scope} {near : Loc → Loc → Prop} {R : (c : Category) → Tree c → Tree c → Prop}
  {loc loc' : Loc} (M : s.Congruent s' near R)

include M

/-! ### Phrases -/

variable {c : Category} {e e' : Expr} {args' args : List Expr} {b : FuncBody}

theorem many {ts ts'} (h : Forall₂ (R c) ts ts') : R (.many c) (.ofList ts) (.ofList ts') := by
  obtain ⟨n, us, us', related, eq, eq'⟩ := Children.related_ofList h
  rw [eq, eq']
  exact M.node .none related

theorem absent : R (.maybe c) .absent .absent := M.node .none .nil

theorem present {t t'} (h : R c t t') :
    R (.maybe c) (.present t) (.present t') := M.node .none (.cons h .nil)

section

variable (h : near loc loc')

include h

theorem ident (name : String) : R .expr (ident loc name) (ident loc' name) :=
  M.node (.site h) .nil

theorem str (value : String) : R .expr (str loc value) (str loc' value) :=
  M.node (.site h) .nil

theorem bool (value : Bool) : R .expr (bool loc value) (bool loc' value) :=
  M.node (.site h) .nil

theorem this : R .expr (this loc) (this loc') := M.node (.site h) .nil

theorem numeral (text : String) : R .expr (Reify.numeral loc text) (Reify.numeral loc' text) := by
  rw [Reify.numeral, Reify.numeral]
  split
  · exact M.node (.site h) .nil
  · exact M.str h text

theorem member (he : R .expr e e') (name : String) :
    R .expr (member loc e name) (member loc' e' name) :=
  M.node (.site h) (.cons he .nil)

theorem index {key key' : Expr} (he : R .expr e e') (hk : R .expr key key') :
    R .expr (index loc e key) (index loc' e' key') :=
  M.node (.site h) (.cons he (.cons hk .nil))

omit h in
theorem arg (he : R .expr e e') : R .arg (arg e) (arg e') :=
  M.node (.mark (M.loc he)) (.cons he .nil)

theorem call (he : R .expr e e') (hargs : Forall₂ (R .expr) args args') :
    R .expr (Synthetic.call loc e args) (Synthetic.call loc' e' args') := by
  have each : Forall₂ (R .arg) (args.map Synthetic.arg) (args'.map Synthetic.arg) :=
    forall₂_map_left_iff.2 (forall₂_map_right_iff.2 (hargs.imp fun _ _ => M.arg))
  exact M.node (.site h) (.cons he (.cons (M.many each) .nil))

theorem methodCall (he : R .expr e e') (name : String) (hargs : Forall₂ (R .expr) args args') :
    R .expr (methodCall loc e name args) (methodCall loc' e' name args') :=
  M.call h (M.member h he name) hargs

theorem array {es es' : List Expr} (he : Forall₂ (R .expr) es es') :
    R .expr (array loc es) (array loc' es') := by
  have each : Forall₂ (R .arrayElem) (es.map ArrayElem.single) (es'.map ArrayElem.single) :=
    forall₂_map_left_iff.2 (forall₂_map_right_iff.2
      (he.imp fun _ _ he => M.node .none (.cons he .nil)))
  exact M.node (.site h) (.cons (M.many each) .nil)

theorem binding (name : String) :
    R .binding (binding loc name) (binding loc' name) :=
  M.node (.mark h) (.cons (M.node (.site h) .nil) .nil)

theorem param (name : String) : R .param (param loc name) (param loc' name) :=
  M.node (.mark h) (.cons (M.many .nil) (.cons (M.binding h name)
    (.cons M.absent (.cons M.absent .nil))))

theorem func (arrow : Bool) {ps ps' : List Param} (hp : Forall₂ (R .param) ps ps')
    (hb : R .funcBody b b') :
    R .func (func loc arrow ps b) (func loc' arrow ps' b') :=
  M.node (.mark h) (.cons M.absent (.cons (M.many hp) (.cons M.absent (.cons (M.present hb) .nil))))

theorem arrow (names : List String) (hb : R .funcBody b b') :
    R .expr (Synthetic.arrow loc names b) (Synthetic.arrow loc' names b') := by
  have each : Forall₂ (R .param) (names.map (Synthetic.param loc))
      (names.map (Synthetic.param loc')) :=
    forall₂_map_left_iff.2 (forall₂_map_right_iff.2
      (forall₂_same.2 fun name _ => M.param h name))
  exact M.node (.site h) (.cons (M.func h true each hb) .nil)

theorem thunk (he : R .expr e e') : R .expr (thunk loc e) (thunk loc' e') :=
  M.arrow h [] (M.node .none (.cons he .nil))

omit h in
theorem block {ss ss' : List Stmt} (hs : Forall₂ (R .stmt) ss ss') :
    R .funcBody (FuncBody.block (.ofList ss)) (FuncBody.block (.ofList ss')) :=
  M.node .none (.cons (M.many hs) .nil)

theorem returnStmt (he : R .expr e e') :
    R .stmt (returnStmt loc e) (returnStmt loc' e') :=
  M.node (.site h) (.cons (M.present he) .nil)

theorem constStmt (name : String) (he : R .expr e e') (exported : Bool) :
    R .stmt (constStmt loc name e exported)
      (constStmt loc' name e' exported) := by
  have declarator : R .declarator
      (Declarator.mk (.synthetic loc) (Synthetic.binding loc name) .absent (.present e))
      (Declarator.mk (.synthetic loc') (Synthetic.binding loc' name) .absent (.present e')) :=
    M.node (.mark h) (.cons (M.binding h name) (.cons M.absent (.cons (M.present he) .nil)))
  exact M.node (.mark h)
    (.cons (M.node (.mark h) (.cons (M.many (.cons declarator .nil)) .nil)) .nil)

/-! ### Calls of the library -/

theorem libraryCall (name : String) (hargs : Forall₂ (R .expr) args args') :
    R .expr (s.libraryCall loc name args) (s'.libraryCall loc' name args') := by
  rw [Scope.libraryCall, Scope.libraryCall, ← M.library]
  exact M.methodCall h (M.ident h _) name hargs

theorem entityName : (name : EntityName) → R .expr (name.toExpr loc) (name.toExpr loc')
  | .ident name => M.ident h name
  | .qualified left right => M.member h (entityName left) right

theorem parameter (name : String) {e e' : Expr} (he : R .expr e e') (rest optional : Bool) :
    R .expr (Reflection.parameter s loc name e rest optional)
      (Reflection.parameter s' loc' name e' rest optional) := by
  have args : Forall₂ (R .expr) [Synthetic.str loc name, e] [Synthetic.str loc' name, e'] :=
    .cons (M.str h name) (.cons he .nil)
  rw [Reflection.parameter, Reflection.parameter]
  cases rest with
  | true => exact M.libraryCall h _ args
  | false =>
    cases optional with
    | true => exact M.libraryCall h _ (.cons (M.str h name) (.cons he (.cons (M.bool h true) .nil)))
    | false => exact M.libraryCall h _ args

/-- Type parameters are reached alike. -/
theorem typeParam? (bound : List String) (name : String) :
    Option.Rel (R .expr) (Reflection.typeParam? s bound loc name)
      (Reflection.typeParam? s' bound loc' name) := by
  rw [Reflection.typeParam?, Reflection.typeParam?, Scope.access?, Scope.access?, ← M.generics]
  split
  · exact .some (M.ident h name)
  · cases (s.generics.find? (·.names.contains name)).map Generics.access with
    | none => exact .none
    | some access =>
      refine .some ?_
      cases access with
      | constant => exact M.ident h name
      | ofInstance className =>
        rw [← M.library]
        exact M.member h (M.index h (M.this h) (M.index h (M.ident h className)
          (M.member h (M.ident h _) _))) name
      | ofConstructor =>
        rw [← M.localName]
        exact M.member h (M.ident h _) name
      | erased => exact M.libraryCall h _ .nil

end

end Scope.Congruent

/-- Congruent scopes with a relation that also bears what is made nullable. -/
structure Scope.Corresponds (s s' : Scope) (near : Loc → Loc → Prop)
    (R : (c : Category) → Tree c → Tree c → Prop) : Prop extends s.Congruent s' near R where
  primitive {loc loc' : Loc} : near loc loc' → ∀ (name : String) {args args' : List Expr},
    Forall₂ (R .expr) args args' →
    R .expr (s.primitive loc name args) (s'.primitive loc' name args')

namespace Scope.Corresponds

variable {s s' : Scope} {near : Loc → Loc → Prop} {R : (c : Category) → Tree c → Tree c → Prop}
  {loc loc' : Loc} (M : s.Corresponds s' near R) (h : near loc loc')

include M h

theorem keyword (k : TypeKeyword) :
    R .expr (Reflection.keyword s loc k) (Reflection.keyword s' loc' k) := by
  cases k with
  | any | null => exact M.libraryCall h _ .nil
  | void =>
    exact M.libraryCall h _ (.cons (M.libraryCall h _ .nil) (.cons (M.libraryCall h _ .nil) .nil))
  | this => exact M.primitive h _ (.cons (M.this h) .nil)
  | _ => exact M.primitive h _ .nil

theorem literal (value : TypeLiteral) :
    R .expr (Reflection.literal s loc value) (Reflection.literal s' loc' value) := by
  cases value with
  | bool b => exact M.primitive h _ (.cons (M.bool h b) .nil)
  | num text => exact M.primitive h _ (.cons (M.numeral h text) .nil)
  | str value => exact M.primitive h _ (.cons (M.str h value) .nil)

end Scope.Corresponds

/-! ### Types -/

namespace Reflection

section

variable (near : Loc → Loc → Prop) (R : (c : Category) → Tree c → Tree c → Prop)
  (T : TypeExpr → TypeExpr → Prop)

/-- Parameters of one form with related types. -/
inductive SigParam.Related : SigParam → SigParam → Prop where
  | mk {mark mark' : Mark} {form : SigParamForm} {type type' : Maybe .type}
      (place : near mark.loc mark'.loc) (types : Option.Rel T type.toOption type'.toOption) :
      SigParam.Related (.mk mark form type) (.mk mark' form type')

/-- Type parameters of one name with related bounds. -/
inductive TypeParam.Related : TypeParam → TypeParam → Prop where
  | mk {mark mark' : Mark} {name : String} {bound bound' default default' : Maybe .type}
      (place : near mark.loc mark'.loc) (bounds : Option.Rel T bound.toOption bound'.toOption) :
      TypeParam.Related (.mk mark name bound default) (.mk mark' name bound' default')

/-- Function types with related parts. -/
structure FunctionRelated (typeParams typeParams' : Maybe (.many .typeParam))
    (params params' : Many .sigParam) (result result' : Option TypeExpr) : Prop where
  typeParams : Forall₂ (TypeParam.Related near T) typeParams.toLists typeParams'.toLists
  params : Forall₂ (SigParam.Related near T) params.toList params'.toList
  result : Option.Rel T result result'

/-- Keys that become related expressions. -/
def KeyRelated (key key' : TypeKey) : Prop :=
  ∀ loc loc', near loc loc' → R .expr (TypeKey.toExpr loc key) (TypeKey.toExpr loc' key')

/-- Members of one kind with related parts. -/
inductive MemberRelated : MemberEntry → MemberEntry → Prop where
  | property {static optional readonly readonly' : Bool} {site site' : Site} {key key' : TypeKey}
      {type type' : Maybe .type} (place : near site.loc site'.loc) (keys : KeyRelated near R key key')
      (types : Option.Rel T type.toOption type'.toOption) :
      MemberRelated ⟨static, .property site readonly optional key type⟩
        ⟨static, .property site' readonly' optional key' type'⟩
  | method {static optional : Bool} {site site' : Site} {key key' : TypeKey}
      {tps tps' : Maybe (.many .typeParam)} {ps ps' : Many .sigParam} {r r' : Maybe .type}
      (place : near site.loc site'.loc) (keys : KeyRelated near R key key')
      (parts : FunctionRelated near T tps tps' ps ps' r.toOption r'.toOption) :
      MemberRelated ⟨static, .method site optional key tps ps r⟩
        ⟨static, .method site' optional key' tps' ps' r'⟩
  | call {static : Bool} {site site' : Site} {tps tps' : Maybe (.many .typeParam)}
      {ps ps' : Many .sigParam} {r r' : Maybe .type} (place : near site.loc site'.loc)
      (parts : FunctionRelated near T tps tps' ps ps' r.toOption r'.toOption) :
      MemberRelated ⟨static, .call site tps ps r⟩ ⟨static, .call site' tps' ps' r'⟩
  | construct {static : Bool} {site site' : Site} {tps tps' : Maybe (.many .typeParam)}
      {ps ps' : Many .sigParam} {r r' : Maybe .type} (place : near site.loc site'.loc)
      (parts : FunctionRelated near T tps tps' ps ps' r.toOption r'.toOption) :
      MemberRelated ⟨static, .construct site tps ps r⟩ ⟨static, .construct site' tps' ps' r'⟩
  | index {static readonly readonly' : Bool} {name : String} {site site' : Site}
      {key key' value value' : TypeExpr} (place : near site.loc site'.loc) (keys : T key key')
      (values : T value value') :
      MemberRelated ⟨static, .index site readonly name key value⟩
        ⟨static, .index site' readonly' name key' value'⟩

end

/-- Calls of one function of the library with related arguments. -/
inductive CallsRelated (s s' : Scope) (R : (c : Category) → Tree c → Tree c → Prop)
    (loc loc' : Loc) (name : String) : Expr → Expr → Prop where
  | mk {args args' : List Expr} (each : Forall₂ (R .expr) args args') :
      CallsRelated s s' R loc loc' name (s.libraryCall loc name args) (s'.libraryCall loc' name args')

namespace CallsRelated

variable {s s' : Scope} {near : Loc → Loc → Prop} {R : (c : Category) → Tree c → Tree c → Prop}
  {loc loc' : Loc} {name : String} {e e' : Expr}

theorem related (h : CallsRelated s s' R loc loc' name e e') (M : s.Corresponds s' near R)
    (place : near loc loc') : R .expr e e' := by
  obtain ⟨each⟩ := h
  exact M.libraryCall place name each

theorem nullable (h : CallsRelated s s' R loc loc' name e e') (M : s.Corresponds s' near R)
    (place : near loc loc') : R .expr (s.nullable loc e) (s'.nullable loc' e') := by
  obtain ⟨each⟩ := h
  exact M.primitive place name each

end CallsRelated

/-- Types whose reflections are related, whatever type parameters are bound around. -/
def Agrees (near : Loc → Loc → Prop) (R : (c : Category) → Tree c → Tree c → Prop)
    (reflect reflect' : Reflector) (t t' : TypeExpr) : Prop :=
  ∀ bound, Agree near (R .expr) (reflect bound t) (reflect' bound t')

section

variable {s s' : Scope} {near : Loc → Loc → Prop} {R : (c : Category) → Tree c → Tree c → Prop}
  {reflect reflect' : Reflector} {bound : List String} {loc loc' : Loc}
  (M : s.Corresponds s' near R)

theorem agree_mapM {ts ts'} (h : Forall₂ (Agrees near R reflect reflect') ts ts') :
    Agree near (Forall₂ (R .expr)) (ts.mapM (reflect bound)) (ts'.mapM (reflect' bound)) :=
  .mapM (h.imp fun _ _ related => related bound)

variable {ps ps' : List TypeParam} {r' r : Option TypeExpr}

theorem agree_typeParamConsts {factory} (M : s.Corresponds s' near R)
    (h : Forall₂ (TypeParam.Related near (Agrees near R reflect reflect')) ps ps') :
    Agree near (fun x y => Forall₂ (R .stmt) x.1 y.1 ∧ x.2 = y.2)
      (typeParamConsts reflect factory bound ps) (typeParamConsts reflect' factory bound ps') := by
  induction h generalizing bound with
  | nil => exact .pure ⟨.nil, rfl⟩
  | cons head _ ih =>
    cases head with
    | @mk mark mark' name constraint constraint' default default' place bounds =>
      rw [typeParamConsts_cons, typeParamConsts_cons]
      have args : Agree near (Forall₂ (R .expr))
          (constraint.toOption.toList.mapM (reflect bound))
          (constraint'.toOption.toList.mapM (reflect' bound)) := by
        refine agree_mapM ?_
        revert bounds
        generalize constraint.toOption = t
        generalize constraint'.toOption = t'
        rintro (related | _)
        · exact .cons related .nil
        · exact .nil
      refine args.bind fun es es' hes => ih.bind fun x y rest => .pure ⟨.cons ?_ rest.1, rest.2⟩
      exact M.constStmt place name (M.methodCall place (M.ident place _) _
        (.cons (M.str place name) hes)) false

include M

theorem agree_optional {t t'} (h : near loc loc')
    (ht : Option.Rel (Agrees near R reflect reflect') t t') :
    Agree near (R .expr) (optional s reflect bound loc t) (optional s' reflect' bound loc' t') := by
  cases ht with
  | none => exact .pure (M.libraryCall h _ .nil)
  | some related => exact related bound

theorem agree_reference {name args args'} (h : near loc loc')
    (hargs : Forall₂ (Agrees near R reflect reflect') args args') :
    Agree near (R .expr) (reference s reflect bound loc name args)
      (reference s' reflect' bound loc' name args') := by
  have reached : Option.Rel (R .expr) (name.ident?.bind (typeParam? s bound loc))
      (name.ident?.bind (typeParam? s' bound loc')) := by
    cases name.ident? with
    | none => exact .none
    | some x => exact M.typeParam? h bound x
  rw [reference, reference]
  revert reached
  generalize name.ident?.bind (typeParam? s bound loc) = e
  generalize name.ident?.bind (typeParam? s' bound loc') = e'
  rintro (related | _)
  · exact .pure related
  · refine (agree_mapM hargs).bind fun es es' hes => ?_
    have same : s'.wasDeclared name.leftmost = s.wasDeclared name.leftmost := by
      rw [Scope.wasDeclared, Scope.wasDeclared, M.declared]
    rw [same]
    split
    · exact .pure (M.primitive h _ hes)
    · refine .pure (M.primitive h _ (.cons ?_ hes))
      split
      · exact M.entityName h name
      · exact M.libraryCall h _ (.cons (M.thunk h (M.entityName h name)) .nil)

theorem agree_factory {name body body'} (h : near loc loc')
    (hp : Forall₂ (TypeParam.Related near (Agrees near R reflect reflect')) ps ps')
    (hb : ∀ bound, Agree near (R .expr) (body bound) (body' bound)) :
    Agree near (R .expr) (factory reflect bound loc name ps body)
      (factory reflect' bound loc' name ps' body') := by
  refine (agree_typeParamConsts M hp).bind ?_
  rintro ⟨stmts, after⟩ ⟨stmts', _⟩ ⟨hs, rfl⟩
  refine (hb after).bind fun e e' he => .pure (M.arrow h _ (M.block ?_))
  exact rel_append hs (.cons (M.returnStmt h he) .nil)

theorem agree_signature {ps ps'} (h : near loc loc')
    (hp : Forall₂ (SigParam.Related near (Agrees near R reflect reflect')) ps ps')
    (hr : Option.Rel (Agrees near R reflect reflect') r r') :
    Agree near (Forall₂ (R .expr)) (signature s reflect bound loc ps r)
      (signature s' reflect' bound loc' ps' r') := by
  refine Agree.bind (A := Forall₂ (R .expr)) (.mapM (hp.imp fun p p' related => ?_)) ?_
  · cases related with
    | mk place types =>
      exact (agree_optional M place types).bind fun e e' he =>
        .pure (M.parameter place _ he _ _)
  · intro es es' hes
    refine (agree_optional M h hr).bind fun e e' he => .pure ?_
    exact rel_append hes (.cons (M.libraryCall h _ (.cons he .nil)) .nil)

theorem agree_function {tps tps' ps ps'} (h : near loc loc')
    (parts : FunctionRelated near (Agrees near R reflect reflect') tps tps' ps ps' r r') :
    Agree near (CallsRelated s s' R loc loc' "function")
      (function s reflect bound loc tps.toLists ps.toList r)
      (function s' reflect' bound loc' tps'.toLists ps'.toList r') := by
  have same : tps.toLists.isEmpty = tps'.toLists.isEmpty := by
    rw [Bool.eq_iff_iff, isEmpty_iff_length_eq_zero, isEmpty_iff_length_eq_zero,
      parts.typeParams.length_eq]
  have args (bound : List String) : Agree near (Forall₂ (R .expr))
      (signature s reflect bound loc ps.toList r) (signature s' reflect' bound loc' ps'.toList r') :=
    agree_signature M h parts.params parts.result
  rw [function, function, ← same, ← M.localName]
  split
  · exact (args bound).bind fun es es' hes => .pure (.mk hes)
  · refine Agree.bind (A := R .expr) ?_ fun e e' he => .pure (.mk (.cons he .nil))
    exact agree_factory M h parts.typeParams fun bound => (args bound).bind fun es es' hes =>
      .pure (M.array h hes)

theorem agree_member {e e'} (h : MemberRelated near R (Agrees near R reflect reflect') e e') :
    Agree near (R .expr) (member s reflect bound e) (member s' reflect' bound e') := by
  have flags {loc loc' : Loc} (h : near loc loc') (optional : Bool) :
      Forall₂ (R .expr) (if optional then [bool loc true] else [])
        (if optional then [bool loc' true] else []) := by
    cases optional with
    | true => exact .cons (M.bool h true) .nil
    | false => exact .nil
  cases h with
  | @property _ optional _ _ _ _ _ _ _ _ place keys types =>
    refine (agree_optional M place types).bind fun t t' ht => .pure ?_
    exact M.libraryCall place _
      (rel_append (.cons (keys _ _ place) (.cons ht .nil)) (flags place optional))
  | @method _ optional _ _ _ _ _ _ _ _ _ _ place keys parts =>
    refine (agree_function M place parts).bind fun f f' hf => .pure ?_
    exact M.libraryCall place _ (rel_append
      (.cons (keys _ _ place) (.cons (hf.nullable M place) .nil)) (flags place optional))
  | call place parts | construct place parts =>
    exact (agree_function M place parts).bind fun f f' hf =>
      .pure (M.libraryCall place _ (.cons (hf.related M place) .nil))
  | index place keys values =>
    exact (keys bound).bind fun k k' hk => (values bound).bind fun v v' hv =>
      .pure (M.libraryCall place _ (.cons (M.str place _) (.cons hk (.cons hv .nil))))

/-- Member lists that have been merged are reflected alike. -/
theorem agree_members {es es'}
    (h : Forall₂ (MemberRelated near R (Agrees near R reflect reflect')) es es') :
    Agree near (Forall₂ (R .expr)) (es.mapM (member s reflect bound))
      (es'.mapM (member s' reflect' bound)) :=
  .mapM (h.imp fun _ _ related => agree_member M related)

end

/-- Types of one kind with related parts. -/
inductive TypeRelated (near : Loc → Loc → Prop) (R : (c : Category) → Tree c → Tree c → Prop)
    (T : TypeExpr → TypeExpr → Prop) : TypeExpr → TypeExpr → Prop where
  | paren {site site' : Site} {t t' : TypeExpr} (inner : T t t') :
      TypeRelated near R T (.paren site t) (.paren site' t')
  | keyword {site site' : Site} {k : TypeKeyword} (place : near site.loc site'.loc) :
      TypeRelated near R T (.keyword site k) (.keyword site' k)
  | literal {site site' : Site} {value : TypeLiteral} (place : near site.loc site'.loc) :
      TypeRelated near R T (.literal site value) (.literal site' value)
  | query {site site' : Site} {name : EntityName} (place : near site.loc site'.loc) :
      TypeRelated near R T (.query site name) (.query site' name)
  | array {site site' : Site} {readonly readonly' : Bool} {t t' : TypeExpr}
      (place : near site.loc site'.loc) (elem : T t t') :
      TypeRelated near R T (.array site readonly t) (.array site' readonly' t')
  | tuple {site site' : Site} {readonly readonly' : Bool} {ts ts' : Many .type}
      (place : near site.loc site'.loc) (elems : Forall₂ T ts.toList ts'.toList) :
      TypeRelated near R T (.tuple site readonly ts) (.tuple site' readonly' ts')
  | union {site site' : Site} {ts ts' : Many .type} (place : near site.loc site'.loc)
      (types : Forall₂ T ts.toList ts'.toList) :
      TypeRelated near R T (.union site ts) (.union site' ts')
  | intersection {site site' : Site} {ts ts' : Many .type} (place : near site.loc site'.loc)
      (types : Forall₂ T ts.toList ts'.toList) :
      TypeRelated near R T (.intersection site ts) (.intersection site' ts')
  | reference {site site' : Site} {name : EntityName} {args args' : Maybe (.many .type)}
      (place : near site.loc site'.loc) (each : Forall₂ T args.toLists args'.toLists) :
      TypeRelated near R T (.reference site name args) (.reference site' name args')
  | func {site site' : Site} {tps tps' : Maybe (.many .typeParam)} {ps ps' : Many .sigParam}
      {r r' : TypeExpr} (place : near site.loc site'.loc)
      (parts : FunctionRelated near T tps tps' ps ps' (some r) (some r')) :
      TypeRelated near R T (.func site tps ps r) (.func site' tps' ps' r')
  | construct {site site' : Site} {abstract abstract' : Bool} {tps tps' : Maybe (.many .typeParam)}
      {ps ps' : Many .sigParam} {r r' : TypeExpr} (place : near site.loc site'.loc)
      (parts : FunctionRelated near T tps tps' ps ps' (some r) (some r')) :
      TypeRelated near R T (.construct site abstract tps ps r) (.construct site' abstract' tps' ps' r')
  | object {site site' : Site} {ms ms' : Many .typeMember} (place : near site.loc site'.loc)
      (members : Forall₂ (MemberRelated near R T)
        (mergeOverloads (ms.toList.map MemberEntry.ofMember))
        (mergeOverloads (ms'.toList.map MemberEntry.ofMember))) :
      TypeRelated near R T (.object site ms) (.object site' ms')
  | unsupported {t t' : TypeExpr} (place : near (TypeExpr.loc t) (TypeExpr.loc t'))
      (kind : TypeExpr.kindName t = TypeExpr.kindName t') (left : TypeExpr.isReflectable t = false)
      (right : TypeExpr.isReflectable t' = false) : TypeRelated near R T t t'

section

variable {s s' : Scope} {near : Loc → Loc → Prop} {R : (c : Category) → Tree c → Tree c → Prop}
  {reflect reflect' : Reflector} {t t' : TypeExpr}

/-- **Reflections are related** if those of the parts are. -/
theorem Agrees.step (M : s.Corresponds s' near R)
    (h : TypeRelated near R (Agrees near R reflect reflect') t t') :
    Agrees near R (Reflection.step s reflect) (Reflection.step s' reflect') t t' := by
  intro bound
  cases h with
  | paren inner => exact inner bound
  | keyword place => exact .pure (M.keyword place _)
  | literal place => exact .pure (M.literal place _)
  | query place => exact .pure (M.primitive place _ (.cons (M.entityName place _) .nil))
  | array place elem => exact (elem bound).bind fun e e' he => .pure (M.primitive place _ (.cons he .nil))
  | tuple place types | union place types | intersection place types =>
    exact (agree_mapM types).bind fun es es' hes => .pure (M.primitive place _ hes)
  | reference place args => exact agree_reference M place args
  | func place parts | construct place parts =>
    exact (agree_function M place parts).bind fun f f' hf =>
      .pure (hf.nullable M place)
  | object place members =>
    exact (agree_members M members).bind fun es es' hes => .pure (M.primitive place _ hes)
  | unsupported place kind left right =>
    rw [step_unsupported left, step_unsupported right, kind]
    exact .error place

end

/-! ### The same type twice -/

theorem exists_typeParamPart {params t} (h : t ∈ params.filterMap TypeParam.constraint?)
    (bound : List String) : ∃ bound', (bound', t) ∈ typeParamParts bound params := by
  induction params generalizing bound with
  | nil => cases h
  | cons param params ih =>
    match param, h with
    | TypeParam.mk mark name constraint default, h =>
      obtain ⟨p, hp, ht⟩ := mem_filterMap.1 h
      rcases mem_cons.1 hp with rfl | hp
      · have here : t ∈ constraint.toOption.toList := Option.mem_toList.2 ht
        exact ⟨bound, mem_append_left _ (mem_map_of_mem here)⟩
      · obtain ⟨bound', part⟩ := ih (mem_filterMap.2 ⟨p, hp, ht⟩) (name :: bound)
        exact ⟨bound', mem_append_right _ part⟩

theorem exists_functionPart {typeParams params result t}
    (h : t ∈ MemberEntry.functionTypes typeParams params result) (bound : List String) :
    ∃ bound', (bound', t) ∈ functionParts bound typeParams params result := by
  rcases mem_append.1 h with h | h
  · obtain ⟨bound', part⟩ := exists_typeParamPart h bound
    exact ⟨bound', mem_append_left _ part⟩
  · exact ⟨_, mem_append_right _ (mem_map_of_mem h)⟩

/-- The types of a member are parts of it. -/
theorem exists_memberPart {e t} (h : t ∈ e.types) (bound : List String) :
    ∃ bound', (bound', t) ∈ memberParts bound e := by
  match e, h with
  | ⟨_, TypeMember.property _ _ _ _ _⟩, h => exact ⟨bound, mem_map_of_mem h⟩
  | ⟨_, TypeMember.method _ _ _ _ _ _⟩, h | ⟨_, TypeMember.call _ _ _ _⟩, h
  | ⟨_, TypeMember.construct _ _ _ _⟩, h => exact exists_functionPart h bound
  | ⟨_, TypeMember.index _ _ _ key value⟩, h =>
    exact ⟨bound, mem_map_of_mem (f := (bound, ·)) (l := [key, value]) h⟩

/-- The types of the merged members of an object type are lower than it. -/
theorem height_lt_of_mem_merged {site ms e}
    (he : e ∈ mergeOverloads (ms.toList.map MemberEntry.ofMember)) {t} (h : t ∈ e.types) :
    t.height < (TypeExpr.object site ms).height := by
  obtain ⟨bound', part⟩ := exists_memberPart h []
  have part : (bound', t) ∈ membersParts [] (ms.toList.map MemberEntry.ofMember) :=
    mem_flatMap.2 ⟨e, he, part⟩
  have asked : Request.Part ⟨[], [], TypeExpr.object site ms⟩ ⟨[], bound', t⟩ := .object part
  exact asked.height_lt

section

variable {R : (c : Category) → Tree c → Tree c → Prop} {T : TypeExpr → TypeExpr → Prop}
  {t : TypeExpr}

theorem related_option {t} (hT : ∀ u ∈ t, T u u) : Option.Rel T t t := by
  cases t with
  | none => exact .none
  | some t => exact .some (hT t rfl)

theorem FunctionRelated.refl {tps ps r}
    (hT : ∀ u ∈ MemberEntry.functionTypes tps.toLists ps.toList r, T u u) :
    FunctionRelated Eq T tps tps ps ps r r := by
  refine ⟨forall₂_same.2 fun p hp => ?_, forall₂_same.2 fun p hp => ?_, ?_⟩
  · match p, hp with
    | TypeParam.mk _ _ _ _, hp =>
      exact .mk rfl (related_option fun u hu =>
        hT u (mem_append_left _ (mem_filterMap.2 ⟨_, hp, hu⟩)))
  · match p, hp with
    | SigParam.mk _ _ _, hp =>
      exact .mk rfl (related_option fun u hu => hT u (mem_append_right _
        (mem_append_left _ (mem_filterMap.2 ⟨_, hp, hu⟩))))
  · exact related_option fun u hu =>
      hT u (mem_append_right _ (mem_append_right _ (Option.mem_toList.2 hu)))

theorem MemberRelated.refl (hR : ∀ e, e.Synthetic → R .expr e e) {e} (hT : ∀ u ∈ e.types, T u u) :
    MemberRelated Eq R T e e := by
  have keys (key : TypeKey) : KeyRelated Eq R key key := by
    rintro loc _ rfl
    exact hR _ (TypeKey.synthetic_toExpr key)
  match e, hT with
  | ⟨_, TypeMember.property _ _ _ key _⟩, hT =>
    exact .property rfl (keys key) (related_option fun u hu => hT u (Option.mem_toList.2 hu))
  | ⟨_, TypeMember.method _ _ key _ _ _⟩, hT => exact .method rfl (keys key) (.refl hT)
  | ⟨_, TypeMember.call _ _ _ _⟩, hT => exact .call rfl (.refl hT)
  | ⟨_, TypeMember.construct _ _ _ _⟩, hT => exact .construct rfl (.refl hT)
  | ⟨_, TypeMember.index _ _ _ key value⟩, hT =>
    exact .index rfl (hT key mem_cons_self) (hT value (mem_cons_of_mem _ mem_cons_self))

/-- A type is related to itself if all lower types are. -/
theorem TypeRelated.refl (hR : ∀ e, e.Synthetic → R .expr e e) (hT : ∀ u, u.height < t.height → T u u) :
    TypeRelated Eq R T t t := by
  match t, hT with
  | TypeExpr.paren _ t, hT => exact .paren (hT t (Tree.lt_height_node (mem_singleton_self _)))
  | TypeExpr.keyword _ _, _ => exact .keyword rfl
  | TypeExpr.literal _ _, _ => exact .literal rfl
  | TypeExpr.query _ _, _ => exact .query rfl
  | TypeExpr.array _ _ elem, hT =>
    exact .array rfl (hT elem (Tree.lt_height_node (mem_singleton_self _)))
  | TypeExpr.tuple site readonly ts, hT =>
    refine .tuple rfl (forall₂_same.2 fun u hu => hT u ?_)
    exact (@Request.Part.tuple [] [] site readonly ts u hu).height_lt
  | TypeExpr.union site ts, hT =>
    refine .union rfl (forall₂_same.2 fun u hu => hT u ?_)
    exact (@Request.Part.union [] [] site ts u hu).height_lt
  | TypeExpr.intersection site ts, hT =>
    refine .intersection rfl (forall₂_same.2 fun u hu => hT u ?_)
    exact (@Request.Part.intersection [] [] site ts u hu).height_lt
  | TypeExpr.reference site name args, hT =>
    refine .reference rfl (forall₂_same.2 fun u hu => hT u ?_)
    exact Nat.lt_trans (Tree.height_lt_of_mem_toLists hu)
      (Tree.lt_height_node (mem_singleton_self _))
  | TypeExpr.func site tps ps r, hT =>
    refine .func rfl (.refl fun u hu => hT u ?_)
    obtain ⟨bound, part⟩ := exists_functionPart hu []
    have asked : Request.Part ⟨[], [], TypeExpr.func site tps ps r⟩ ⟨[], bound, u⟩ := .func part
    exact asked.height_lt
  | TypeExpr.construct site abstract tps ps r, hT =>
    refine .construct rfl (.refl fun u hu => hT u ?_)
    obtain ⟨bound, part⟩ := exists_functionPart hu []
    have asked : Request.Part ⟨[], [], TypeExpr.construct site abstract tps ps r⟩ ⟨[], bound, u⟩ :=
      .construct part
    exact asked.height_lt
  | TypeExpr.object site ms, hT =>
    exact .object rfl (forall₂_same.2 fun e he =>
      .refl hR fun u hu => hT u (height_lt_of_mem_merged he hu))
  | TypeExpr.operator _ _ _, _ | TypeExpr.indexed _ _ _, _ | TypeExpr.conditional _ _ _ _ _, _
  | TypeExpr.infer _ _ _, _ | TypeExpr.mapped _ _ _ _, _ | TypeExpr.predicate _ _ _ _, _ =>
    exact .unsupported rfl rfl rfl rfl

end

end Reflection

namespace Scope

open Reflection

/-- A type has related reflections in scopes that correspond. -/
theorem Corresponds.reflectWithin {s s' : Scope} {R} (M : s.Corresponds s' Eq R)
    (hR : ∀ e, e.Synthetic → R .expr e e) (fuel : Nat) (t : TypeExpr) :
    Agrees Eq R (s.reflectWithin fuel) (s'.reflectWithin fuel) t t := by
  induction fuel generalizing t with
  | zero => exact fun _ => .error rfl
  | succ fuel ih => exact Agrees.step M (.refl hR fun u _ => ih u)

/-! ### Fuel -/

theorem corresponds_self (s : Scope) : s.Corresponds s Eq fun _ => Eq where
  library := rfl
  localName _ := rfl
  declared := rfl
  generics := rfl
  node marks parts := by rw [marks.eq, parts.eq]
  loc h := by rw [h]
  primitive place name args args' h := by
    rw [forall₂_eq_eq_eq] at h
    rw [place, h]

/-- The reflection of a type rests on those of lower types. -/
theorem step_congr (s : Scope) {reflect reflect' t}
    (h : ∀ u, u.height < t.height → ∀ bound, reflect bound u = reflect' bound u)
    (bound : List String) : step s reflect bound t = step s reflect' bound t := by
  have parts (u : TypeExpr) (lower : u.height < t.height) :
      Agrees Eq (fun _ => Eq) reflect reflect' u u := fun bound => .of_eq (h u lower bound)
  exact (Agrees.step (corresponds_self s) (.refl (fun _ _ => rfl) parts) bound).eq

/-- More fuel than the height of a type changes nothing. -/
theorem reflectWithin_eq (s : Scope) {fuel t} (low : t.height ≤ fuel) (bound : List String) :
    s.reflectWithin fuel bound t = s.reflectUnder bound t := by
  obtain ⟨n, hn⟩ := Nat.exists_eq_add_of_lt t.height_pos
  obtain ⟨m, rfl⟩ := Nat.exists_eq_add_of_lt (Nat.lt_of_lt_of_le t.height_pos low)
  rw [reflectUnder, hn]
  refine step_congr s (fun u lower bound => ?_) bound
  rw [reflectWithin_eq s (t := u) (by omega), reflectWithin_eq s (t := u) (by omega)]
termination_by t.height

/-- **One step of reflection.** -/
theorem reflectUnder_eq (s : Scope) (bound : List String) (t : TypeExpr) :
    s.reflectUnder bound t = step s s.reflectUnder bound t := by
  rw [← s.reflectWithin_eq (Nat.le_succ t.height)]
  exact step_congr s (fun u lower bound => s.reflectWithin_eq (Nat.le_of_lt lower) bound) bound

end Scope

end Reify
