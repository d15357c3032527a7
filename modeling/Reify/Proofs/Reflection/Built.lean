import Reify.Proofs.Reflection.Overload
import Reify.Proofs.Syntax.Bindings

/-!
# What reflections are made of

A reflection is made of few kinds of phrases, and of copies of expressions that stand in the type.
`Reflection.Built s P bound e` says so of `e`: the factories around it bind the names `bound`, and
`P` holds everywhere in what is taken from the type.  Every reflection is built that way
(`Scope.reflect_built`), so what holds of all reflections is shown by induction on the phrases.
First of all, their nodes are made by the program, whatever numbers the type carries
(`Scope.reflect_synthetic`).
-/

namespace Reify

open List Tree Synthetic Option

/-- Whether an expression is `object[key]`. -/
def Expr.isIndex : Expr → Bool
  | Expr.index _ _ _ _ => true
  | _ => false

/-- Whether a form needs no more than its parts: it is no list of type parameters, opens no block
scope and is no member of something. -/
def Form.isRoutine : {c : Category} → Form c → Bool
  | .expr, .member _ _ | .many .typeParam, _ => false
  | _, form => !form.opensBlock

/-- Predicates that hold of the phrases that reflections are made of. -/
class Routine (P : (c : Category) → Tree c → Prop) : Prop where
  made {c : Category} (t : Tree c) : t.form.isRoutine = true → P c t
  member (loc : Loc) (object : Expr) (name : String) : object.isIndex = false →
    P .expr (Synthetic.member loc object name)
  noParams : P _ (Tree.ofList ([] : List TypeParam))
  /-- The constants in a factory have the names of the type parameters. -/
  block (params : List TypeParam) (stmts : List Stmt) : P _ (Tree.ofList params) →
    stmts.flatMap Tree.bindings = params.map TypeParam.name →
    P .funcBody (FuncBody.block (.ofList stmts))
  detach {c : Category} (t : Tree c) : P c t → P c t.detach

instance : Routine fun _ _ => True where
  made _ _ := trivial
  member _ _ _ _ := trivial
  noParams := trivial
  block _ _ _ _ := trivial
  detach _ _ := trivial

theorem Tree.everywhere_true {c} (t : Tree c) : t.Everywhere fun _ _ => True := by
  have all : t.Everywhere fun _ _ => ∀ x ∈ ([] : List Unit), True :=
    forall_gather.1 fun _ _ => trivial
  exact all.mono fun _ _ _ => trivial

/-- Whether a form is that of a list, of an option, or of a member or a type made by merging. -/
def Form.isMergeable : {c : Category} → Form c → Bool
  | .many .typeParam, _ => false
  | .many _, _ | .maybe _, _ | .sigParam, _ | .typeMember, _ | .type, .union
  | .type, .keyword .any => true
  | _, _ => false

/-- Predicates that hold of what merging makes. -/
class Mergeable (P : (c : Category) → Tree c → Prop) : Prop where
  made {c : Category} (t : Tree c) : t.form.isMergeable = true → P c t
  noParams : P _ (Tree.ofList ([] : List TypeParam))

attribute [simp] Form.isRoutine Form.opensBlock

section

variable {P : (c : Category) → Tree c → Prop} {c : Category}

instance [Routine P] : Mergeable P where
  made {c} t h := by
    refine Routine.made _ ?_
    match t, h with
    | .node _ _ _, h =>
      cases c with
      | many c =>
        cases c with
        | typeParam => cases h
        | _ => rfl
      | maybe | sigParam | typeMember | type => rfl
      | _ => cases h
  noParams := Routine.noParams

@[simp] theorem Tree.everywhere_of_routine [Routine P] {form : Form c} {marks ts}
    (h : form.isRoutine = true) : (Tree.node form marks ts).Everywhere P ↔ ts.Everywhere P :=
  everywhere_node.trans (and_iff_right (Routine.made _ h))

theorem Tree.Everywhere.copy [Routine P] {t : Tree c} (h : t.Everywhere P) :
    t.detach.Everywhere P :=
  h.detach Routine.detach

variable [Mergeable P]

theorem Tree.everywhere_of_mergeable {form : Form c} {marks ts} (h : form.isMergeable = true) :
    (Tree.node form marks ts).Everywhere P ↔ ts.Everywhere P :=
  everywhere_node.trans (and_iff_right (Mergeable.made _ h))

theorem Category.isMergeable_many (hc : c ≠ .typeParam) (n : Nat) :
    Form.isMergeable (c := .many c) n = true := by
  cases c with
  | typeParam => exact (hc rfl).elim
  | _ => rfl

@[simp] theorem Tree.everywhere_list (hc : c ≠ .typeParam) {ts : List (Tree c)} :
    (Tree.ofList ts).Everywhere P ↔ ∀ t ∈ ts, t.Everywhere P :=
  everywhere_ofList.trans (and_iff_right (Mergeable.made _ (Category.isMergeable_many hc _)))

theorem Tree.everywhere_present {t : Tree c} : (Tree.present t).Everywhere P ↔ t.Everywhere P :=
  (everywhere_of_mergeable rfl).trans (by simp)

theorem Tree.everywhere_ofOption {t : Option (Tree c)} :
    (Tree.ofOption t).Everywhere P ↔ ∀ u ∈ t, u.Everywhere P := by
  cases t with
  | none => simpa [ofOption] using (everywhere_of_mergeable (P := P) rfl).2 Children.everywhere_nil
  | some t => simp [ofOption, everywhere_present]

/-- Type parameters, listed or left out. -/
theorem Tree.Everywhere.typeParams {ps : Maybe (.many .typeParam)} (h : ps.Everywhere P) :
    (Tree.ofList ps.toLists).Everywhere P := by
  match ps, h with
  | .absent, _ => exact everywhere_ofList.2 ⟨Mergeable.noParams, nofun⟩
  | .present ps, h =>
    change (Tree.ofList ps.toList).Everywhere P
    rw [ofList_toList]
    exact everywhere_present.1 h

end

/-! ### Members -/

section

variable {P : (c : Category) → Tree c → Prop} [Mergeable P]

theorem everywhere_methodMember {site optional key typeParams params result} :
    (TypeMember.method site optional key typeParams params result).Everywhere P ↔
      key.Everywhere P ∧ typeParams.Everywhere P ∧ params.Everywhere P ∧ result.Everywhere P :=
  (everywhere_of_mergeable rfl).trans (by simp)

theorem everywhere_unionOf {loc ts} (h : ∀ t ∈ ts, ∀ u ∈ t, u.Everywhere P) :
    ∀ u ∈ unionOf loc ts, u.Everywhere P := by
  have distinct : ∀ t ∈ distinctTypes [] ts, ∀ u ∈ t, u.Everywhere P :=
    fun t ht => h t (mem_of_mem_distinctTypes ht)
  rw [unionOf]
  split
  · simp
  case h_2 t same =>
    rw [same] at distinct
    exact distinct t mem_cons_self
  case h_3 us _ _ =>
    rintro _ ⟨⟩
    rw [everywhere_of_mergeable rfl, Children.everywhere_cons,
      everywhere_list (c := .type) (by decide), List.forall_mem_map]
    refine ⟨fun t ht => ?_, Children.everywhere_nil⟩
    cases t with
    | none => exact (everywhere_of_mergeable rfl).2 Children.everywhere_nil
    | some u => exact distinct _ ht u rfl

/-- The predicate holds everywhere in the types of a signature. -/
structure MethodSig.Everywhere (P : (c : Category) → Tree c → Prop) (sig : MethodSig) : Prop where
  params : ∀ p ∈ sig.params, p.Everywhere P
  result : ∀ t ∈ sig.result, t.Everywhere P

omit [Mergeable P] in
theorem MemberEntry.everywhere_sig : {entry : MemberEntry} → {sig : MethodSig} →
    entry.member.Everywhere P → entry.sig? = some sig → sig.Everywhere P
  | ⟨_, TypeMember.method _ _ _ _ _ _⟩, _, h, hs => by
    obtain rfl := Option.some.inj hs
    obtain ⟨-, -, -, params, result, -⟩ := h
    exact ⟨Tree.Everywhere.toList params, Tree.Everywhere.toOption result⟩
  | ⟨_, TypeMember.property _ _ _ _ _⟩, _, _, hs | ⟨_, TypeMember.construct _ _ _ _⟩, _, _, hs
  | ⟨_, TypeMember.call _ _ _ _⟩, _, _, hs | ⟨_, TypeMember.index _ _ _ _ _⟩, _, _, hs => by
    cases hs

omit [Mergeable P] in
theorem SigParam.everywhere_type? {p : SigParam} (h : p.Everywhere P) :
    ∀ t ∈ p.type?, t.Everywhere P := by
  match p, h with
  | SigParam.mk _ _ _, h => exact Tree.Everywhere.toOption h.2.1

theorem everywhere_mergeParams {sigs} (h : ∀ sig ∈ sigs, sig.Everywhere P) :
    ∀ p ∈ mergeParams sigs, p.Everywhere P := by
  intro p hp
  obtain ⟨i, -, hp⟩ := mem_filterMap.1 hp
  obtain ⟨first, -, rfl⟩ := map_eq_some_iff.1 hp
  have types : ∀ t ∈ (sigs.filterMap (·.params[i]?)).map SigParam.type?,
      ∀ u ∈ t, u.Everywhere P := by
    rw [List.forall_mem_map]
    intro q hq
    obtain ⟨sig, hsig, hq⟩ := mem_filterMap.1 hq
    exact SigParam.everywhere_type? ((h sig hsig).params q (mem_of_getElem? hq))
  match first with
  | SigParam.mk mark form type =>
    refine (everywhere_of_mergeable rfl).2 ?_
    simpa using everywhere_ofOption.2 (everywhere_unionOf types)

theorem everywhere_mergeGroup : {first : MemberEntry} → {group : List MemberEntry} →
    first.member.Everywhere P → (∀ e ∈ group, e.member.Everywhere P) →
      (mergeGroup first group).member.Everywhere P
  | ⟨_, TypeMember.method site optional key typeParams _ _⟩, e :: e' :: es, hf, h => by
    obtain ⟨-, key, typeParams, -⟩ := hf
    have sigs : ∀ sig ∈ (e :: e' :: es).filterMap MemberEntry.sig?, sig.Everywhere P := by
      intro sig hs
      obtain ⟨entry, he, hs⟩ := mem_filterMap.1 hs
      exact MemberEntry.everywhere_sig (h entry he) hs
    refine everywhere_methodMember.2 ⟨key, typeParams, ?_, ?_⟩
    · exact (everywhere_list (c := .sigParam) nofun).2 (everywhere_mergeParams sigs)
    · refine everywhere_ofOption.2 (everywhere_unionOf ?_)
      rw [List.forall_mem_map]
      exact fun sig hs => (sigs sig hs).result
  | ⟨_, TypeMember.method _ _ _ _ _ _⟩, [], hf, _ | ⟨_, TypeMember.method _ _ _ _ _ _⟩, [_], hf, _
  | ⟨_, TypeMember.property _ _ _ _ _⟩, _, hf, _ | ⟨_, TypeMember.construct _ _ _ _⟩, _, hf, _
  | ⟨_, TypeMember.call _ _ _ _⟩, _, hf, _ | ⟨_, TypeMember.index _ _ _ _ _⟩, _, hf, _ => hf

theorem everywhere_mergeOverloads {entries} (h : ∀ e ∈ entries, e.member.Everywhere P) :
    ∀ e ∈ mergeOverloads entries, e.member.Everywhere P := by
  intro e he
  obtain ⟨first, hf, rfl⟩ := mem_map.1 he
  have own := h first (mem_of_mem_firstEntries hf)
  split
  · exact own
  · exact everywhere_mergeGroup own fun e he => h e (mem_of_mem_filter he)

end

section

variable {P : (c : Category) → Tree c → Prop} [Routine P]

theorem everywhere_memberFunction {mark kind f} :
    (MemberVal.function mark kind f).Everywhere P ↔ f.Everywhere P := by
  simp

theorem everywhere_classMember {mark form decorators key type val} :
    (ClassMember.mk mark form decorators key type val).Everywhere P ↔
      decorators.Everywhere P ∧ key.Everywhere P ∧ type.Everywhere P ∧ val.Everywhere P := by
  simp

theorem everywhere_funcParts {mark form typeParams params result body} :
    (Func.mk mark form typeParams params result body).Everywhere P ↔
      typeParams.Everywhere P ∧ params.Everywhere P ∧ result.Everywhere P ∧ body.Everywhere P := by
  simp

theorem everywhere_classDecl
    {mark form decorators name typeParams base baseArgs implemented members} :
    (ClassDecl.mk mark form decorators name typeParams base baseArgs implemented members).Everywhere
        P ↔
      decorators.Everywhere P ∧ name.Everywhere P ∧ typeParams.Everywhere P ∧ base.Everywhere P ∧
        baseArgs.Everywhere P ∧ implemented.Everywhere P ∧ members.Everywhere P := by
  simp

theorem MemberKey.everywhere_toTypeKey {key} (h : key.Everywhere P) :
    (MemberKey.toTypeKey key).Everywhere P := by
  match key, h with
  | MemberKey.direct _ _, _ => simp [MemberKey.toTypeKey]
  | MemberKey.computed _, h => simpa [MemberKey.toTypeKey] using h

omit [Routine P] in
theorem Param.everywhere_type? {p} (h : p.Everywhere P) : ∀ t ∈ Param.type? p, t.Everywhere P := by
  match p, h with
  | Param.mk _ _ _ _ _ _, h => exact Tree.Everywhere.toOption h.2.2.2.1

theorem Func.everywhere_sigParams {f} (h : f.Everywhere P) :
    ∀ p ∈ Func.sigParams f, p.Everywhere P := by
  match f, h with
  | Func.mk _ _ _ params _ _, h =>
    have all := Tree.Everywhere.toList h.2.2.1
    intro p hp
    obtain ⟨⟨q, i⟩, hq, rfl⟩ := mem_map.1 hp
    have mem : q ∈ params.toList :=
      (mem_zipIdx' (mem_of_mem_filter hq)).2 ▸ getElem_mem _
    have param := all q mem
    match q, param with
    | Param.mk _ _ _ _ _ _, param => simpa [Param.toSigParam] using param.2.2.2.1

theorem ClassMember.everywhere_toTypeMember {m} (h : m.Everywhere P) :
    (ClassMember.toTypeMember m).Everywhere P := by
  match m, h with
  | ClassMember.mk mark form _ k type val, h =>
    obtain ⟨-, -, key, type, hv, -⟩ := h
    have property {site : Site} {readonly optional : Bool} {t : Option TypeExpr}
        (ht : ∀ u ∈ t, u.Everywhere P) : (TypeMember.property site readonly optional
          (MemberKey.toTypeKey k) (.ofOption t)).Everywhere P := by
      simpa using ⟨MemberKey.everywhere_toTypeKey key, everywhere_ofOption.2 ht⟩
    match val, hv with
    | MemberVal.property _, _ => exact property (Tree.Everywhere.toOption type)
    | MemberVal.function _ .getter (Func.mk _ _ _ _ result _), hv =>
      have func := everywhere_funcParts.1 (everywhere_memberFunction.1 hv)
      exact property (Tree.Everywhere.toOption func.2.2.1)
    | MemberVal.function _ .setter (Func.mk _ _ _ params _ _), hv =>
      have func := everywhere_funcParts.1 (everywhere_memberFunction.1 hv)
      refine property fun t ht => ?_
      obtain ⟨p, hp, ht⟩ := bind_eq_some_iff.1 ht
      exact Param.everywhere_type? (Tree.Everywhere.toList func.2.1 p (mem_of_find?_eq_some hp))
        t ht
    | MemberVal.function _ .method (Func.mk _ _ _ _ _ _), hv =>
      have func := everywhere_memberFunction.1 hv
      obtain ⟨typeParams, -, result, -⟩ := everywhere_funcParts.1 func
      exact everywhere_methodMember.2 ⟨MemberKey.everywhere_toTypeKey key, typeParams,
        (everywhere_list (c := .sigParam) nofun).2 (Func.everywhere_sigParams func), result⟩
    | MemberVal.index _ _ _ _, hv => simpa [ClassMember.toTypeMember] using hv

theorem everywhere_classEntries {members} (h : ∀ m ∈ members, m.Everywhere P) :
    ∀ e ∈ classEntries members, e.member.Everywhere P := by
  suffices ∀ seen ms, (∀ m ∈ ms, m.Everywhere P) →
      ∀ e ∈ classEntries.go members seen ms, e.member.Everywhere P from this [] members h
  intro seen ms hm
  induction ms generalizing seen with
  | nil => simp [classEntries.go]
  | cons m ms ih =>
    rw [forall_mem_cons] at hm
    have entry : (⟨(ClassMember.group m).1, (ClassMember.toTypeMember m).detach⟩ :
        MemberEntry).member.Everywhere P :=
      (ClassMember.everywhere_toTypeMember hm.1).copy
    rw [classEntries.go]
    split
    · exact ih _ hm.2
    · split <;> split
      · exact ih _ hm.2
      · exact forall_mem_cons.2 ⟨entry, ih _ hm.2⟩
      · exact ih _ hm.2
      · exact forall_mem_cons.2 ⟨entry, ih _ hm.2⟩

end

/-! ### Phrases -/

namespace Reflection

/-- `const T = factory.typeParameter("T", args…)` -/
def paramConst (factory : String) : TypeParam → List Expr → Stmt
  | TypeParam.mk mark name _ _, args =>
    Synthetic.constStmt mark.loc name (Synthetic.methodCall mark.loc
      (Synthetic.ident mark.loc factory) "typeParameter" (Synthetic.str mark.loc name :: args))

theorem forall_paramConst {Q : Stmt → Prop} {factory params args}
    (h : ∀ p, ∀ as ∈ args, Q (paramConst factory p as)) :
    ∀ stmt ∈ List.zipWith (paramConst factory) params args, Q stmt := by
  intro stmt hs
  obtain ⟨i, hi⟩ := mem_iff_getElem?.1 hs
  obtain ⟨p, as, -, here, rfl⟩ := getElem?_zipWith_eq_some.1 hi
  exact h p as (mem_of_getElem? here)

theorem bindings_paramConst {factory : String} : {params : List TypeParam} →
    {args : List (List Expr)} → args.length = params.length →
    (List.zipWith (paramConst factory) params args).flatMap Tree.bindings =
      params.map TypeParam.name
  | [], _, _ => by simp
  | _ :: _, [], h => by cases h
  | TypeParam.mk _ name _ _ :: _, _ :: _, h => by
    rw [zipWith_cons_cons, flatMap_cons, bindings_paramConst (Nat.succ.inj h)]
    rfl

/-- The bounds of type parameters are reflected in reach of the parameters before them. -/
theorem typeParamConsts_eq_ok {reflect : Reflector} {factory : String} {params : List TypeParam}
    {bound after : List String} {stmts : List Stmt}
    (h : typeParamConsts reflect factory bound params = .ok (stmts, after)) :
    after = bindParams bound params ∧ ∃ args, stmts = List.zipWith (paramConst factory) params args ∧
      args.length = params.length ∧ ∀ (i : Nat) as, args[i]? = some as → ∃ p, params[i]? = some p ∧
        (TypeParam.bound? p).toList.mapM (reflect (bindParams bound (params.take i))) = .ok as := by
  induction params generalizing bound stmts after with
  | nil =>
    obtain ⟨rfl, rfl⟩ := Prod.mk.inj (pure_eq_ok.1 h)
    exact ⟨rfl, [], rfl, rfl, by simp⟩
  | cons p params ih =>
    match p with
    | TypeParam.mk mark name constraint default =>
      rw [typeParamConsts_cons] at h
      obtain ⟨args, hargs, h⟩ := bind_eq_ok.1 h
      obtain ⟨⟨stmts', after'⟩, hrest, same⟩ := bind_pure_eq_ok.1 h
      obtain ⟨rfl, argss, rfl, length, bounds⟩ := ih hrest
      obtain ⟨rfl, rfl⟩ := Prod.mk.inj same
      refine ⟨rfl, args :: argss, rfl, congrArg (· + 1) length, fun i as here => ?_⟩
      cases i with
      | zero =>
        obtain rfl := Option.some.inj here
        exact ⟨_, rfl, hargs⟩
      | succ i => exact bounds i as here

/-- **The phrases of reflections.** -/
inductive Built (s : Scope) (P : (c : Category) → Tree c → Prop) : List String → Expr → Prop where
  | param {bound loc name e site args}
      (own : P .type (TypeExpr.reference site (EntityName.ident name) args))
      (h : typeParam? s bound loc name = some e) : Built s P bound e
  | name {bound loc site n args} (own : P .type (TypeExpr.reference site n args))
      (declared : s.wasDeclared n.leftmost = true) : Built s P bound (n.toExpr loc)
  | deferred {bound loc site n args} (own : P .type (TypeExpr.reference site n args)) :
      Built s P bound (Synthetic.thunk loc (n.toExpr loc))
  | query {bound loc site n} (own : P .type (TypeExpr.query site n)) :
      Built s P bound (n.toExpr loc)
  | literal {bound loc value} : Built s P bound (Expr.literal (.synthetic loc) value)
  | this {bound loc} : Built s P bound (Synthetic.this loc)
  /-- A copy of an expression that stands in the type. -/
  | copy {bound} {e : Expr} (h : e.Everywhere P) : Built s P bound e.detach
  | call {bound loc name args} (h : ∀ e ∈ args, Built s P bound e) :
      Built s P bound (s.libraryCall loc name args)
  | array {bound loc elems} (h : ∀ e ∈ elems, Built s P bound e) :
      Built s P bound (Synthetic.array loc elems)
  /-- `args` are the bounds of the type parameters, each in reach of the parameters before it. -/
  | factory {bound loc name args value} {params : List TypeParam}
      (list : (Tree.ofList params).Everywhere P) (length : args.length = params.length)
      (bounds : ∀ i as, args[i]? = some as →
        ∀ e ∈ as, Built s P (bindParams bound (params.take i)) e)
      (result : Built s P (bindParams bound params) value) :
      Built s P bound (Synthetic.arrow loc [name] (.block (.ofList
        (List.zipWith (paramConst name) params args ++ [Synthetic.returnStmt loc value]))))

/-- An expression built that way which is not in brackets. -/
structure Reflected (s : Scope) (P : (c : Category) → Tree c → Prop) (bound : List String)
    (e : Expr) : Prop where
  built : Built s P bound e
  plain : e.isIndex = false

section

variable {s : Scope} {P : (c : Category) → Tree c → Prop} {bound : List String} {loc : Loc}
  {name : String}

theorem Built.str : Built s P bound (str loc name) := .literal

theorem Built.numeral : Built s P bound (numeral loc name) := by
  unfold Reify.numeral
  split <;> (dsimp only; split <;> exact .literal)

theorem Built.key {k} (h : k.Everywhere P) : Built s P bound (TypeKey.toExpr loc k) := by
  unfold TypeKey.toExpr
  split
  · exact .literal
  · exact .literal
  · exact .numeral
  · exact .copy h.2.1

theorem Reflected.param {e site args}
    (own : P .type (TypeExpr.reference site (EntityName.ident name) args))
    (h : typeParam? s bound loc name = some e) : Reflected s P bound e := by
  refine ⟨.param own h, ?_⟩
  unfold typeParam? at h
  split at h
  · obtain rfl := Option.some.inj h
    rfl
  · obtain ⟨access, _, rfl⟩ := map_eq_some_iff.1 h
    cases access <;> rfl

theorem Reflected.call {args} (h : ∀ e ∈ args, Built s P bound e) :
    Reflected s P bound (s.libraryCall loc name args) := ⟨.call h, rfl⟩

theorem Reflected.nullable {e} (h : Reflected s P bound e) :
    Reflected s P bound (s.nullable loc e) := by
  unfold Scope.nullable
  split
  · exact .call (forall_mem_singleton.2 h.built)
  · exact h

theorem Reflected.primitive {args} (h : ∀ e ∈ args, Built s P bound e) :
    Reflected s P bound (s.primitive loc name args) := (Reflected.call h).nullable

theorem Reflected.keyword (k : TypeKeyword) : Reflected s P bound (keyword s loc k) := by
  cases k with
  | any | null => exact .call nofun
  | void =>
    refine .call (forall_mem_cons.2 ⟨.call nofun, forall_mem_singleton.2 (.call nofun)⟩)
  | this => exact .primitive (forall_mem_singleton.2 .this)
  | _ => exact .primitive nofun

theorem Reflected.literal (l : TypeLiteral) : Reflected s P bound (literal s loc l) := by
  cases l with
  | num => exact .primitive (forall_mem_singleton.2 .numeral)
  | bool | str => exact .primitive (forall_mem_singleton.2 .literal)

theorem Built.parameter {e : Expr} (h : Built s P bound e) {rest optional : Bool} :
    Built s P bound (parameter s loc name e rest optional) := by
  have args : ∀ x ∈ [Synthetic.str loc name, e], Built s P bound x :=
    forall_mem_cons.2 ⟨.str, forall_mem_singleton.2 h⟩
  unfold Reflection.parameter
  split
  · exact .call args
  · split
    · exact .call (forall_mem_append.2 ⟨args, forall_mem_singleton.2 .literal⟩)
    · exact .call args

end

/-! ### Types -/

/-- A reflector whose reflections are built from the types. -/
def Builds (s : Scope) (P : (c : Category) → Tree c → Prop) (reflect : Reflector) : Prop :=
  ∀ bound t e, t.Everywhere P → reflect bound t = .ok e → Reflected s P bound e

variable {P : (c : Category) → Tree c → Prop} {s : Scope} {reflect : Reflector}
  {bound : List String} {loc : Loc} (hr : Builds s P reflect)

include hr

theorem Builds.optional {t : Option TypeExpr} (ht : ∀ u ∈ t, u.Everywhere P) {e : Expr}
    (h : optional s reflect bound loc t = .ok e) : Built s P bound e := by
  cases t with
  | none =>
    obtain rfl := pure_eq_ok.1 h
    exact .call nofun
  | some t => exact (hr bound t e (ht t rfl) h).built

theorem Builds.mapM {ts : List TypeExpr} (ht : ∀ t ∈ ts, t.Everywhere P) {es}
    (h : ts.mapM (reflect bound) = .ok es) : ∀ e ∈ es, Built s P bound e :=
  forall_of_mapM (fun t mem e he => (hr bound t e (ht t mem) he).built) h

theorem Builds.reference {site : Site} {name : EntityName} {args : Maybe (.many .type)}
    (ht : (TypeExpr.reference site name args).Everywhere P) {e : Expr}
    (h : reference s reflect bound loc name args.toLists = .ok e) : Reflected s P bound e := by
  have own := ht.root
  unfold Reflection.reference at h
  split at h
  case h_1 e' he =>
    obtain rfl := pure_eq_ok.1 h
    match name, own, he with
    | .ident _, own, he => exact .param own he
  case h_2 =>
    obtain ⟨es, hes, h⟩ := bind_eq_ok.1 h
    have args := hr.mapM (Tree.Everywhere.toLists ht.2.1) hes
    split at h
    · obtain rfl := pure_eq_ok.1 h
      exact .primitive args
    · obtain rfl := pure_eq_ok.1 h
      refine .primitive (forall_mem_cons.2 ⟨?_, args⟩)
      split
      case isTrue declared => exact .name own declared
      · exact .call (forall_mem_singleton.2 (.deferred own))

theorem Builds.typeParamConsts {factory : String} {params : List TypeParam} {stmts : List Stmt}
    (hp : ∀ p ∈ params, p.Everywhere P) {after : List String}
    (h : typeParamConsts reflect factory bound params = .ok (stmts, after)) :
    after = bindParams bound params ∧ ∃ args, stmts = List.zipWith (paramConst factory) params args ∧
      args.length = params.length ∧ ∀ i as, args[i]? = some as →
        ∀ e ∈ as, Built s P (bindParams bound (params.take i)) e := by
  obtain ⟨bound', args, same, length, bounds⟩ := typeParamConsts_eq_ok h
  refine ⟨bound', args, same, length, fun i as here => ?_⟩
  obtain ⟨p, hp', reflected⟩ := bounds i as here
  refine hr.mapM (fun t ht => ?_) reflected
  match p, hp p (mem_of_getElem? hp'), mem_toList.1 ht with
  | TypeParam.mk _ _ _ _, own, ht => exact Tree.Everywhere.toOption own.2.1 t ht

theorem Builds.factory {name : String} {params : List TypeParam}
    (hp : (Tree.ofList params).Everywhere P) {body : List String → Result Expr}
    (hb : ∀ bound e, body bound = .ok e → Built s P bound e) {e : Expr}
    (h : factory reflect bound loc name params body = .ok e) : Built s P bound e := by
  obtain ⟨⟨stmts, after⟩, hs, h⟩ := bind_eq_ok.1 h
  obtain ⟨value, hv, rfl⟩ := bind_pure_eq_ok.1 h
  obtain ⟨rfl, args, rfl, length, bounds⟩ := hr.typeParamConsts (everywhere_ofList.1 hp).2 hs
  exact .factory hp length bounds (hb _ _ hv)

theorem Builds.signature {params : List SigParam} (hp : ∀ p ∈ params, p.Everywhere P)
    {result : Option TypeExpr} (ht : ∀ t ∈ result, t.Everywhere P) {es : List Expr}
    (h : signature s reflect bound loc params result = .ok es) : ∀ e ∈ es, Built s P bound e := by
  obtain ⟨args, hargs, h⟩ := bind_eq_ok.1 h
  obtain ⟨r, hres, rfl⟩ := bind_pure_eq_ok.1 h
  refine forall_mem_append.2 ⟨forall_of_mapM (fun p mem x hx => ?_) hargs, ?_⟩
  · match p, mem with
    | SigParam.mk mark form type, mem =>
      obtain ⟨t, ht, rfl⟩ := bind_pure_eq_ok.1 hx
      exact (hr.optional (SigParam.everywhere_type? (hp _ mem)) ht).parameter
  · exact forall_mem_singleton.2 (.call (forall_mem_singleton.2 (hr.optional ht hres)))

theorem Builds.function {typeParams : List TypeParam}
    (htp : (Tree.ofList typeParams).Everywhere P) {params : List SigParam}
    (hp : ∀ p ∈ params, p.Everywhere P) {result : Option TypeExpr}
    (ht : ∀ t ∈ result, t.Everywhere P) {e : Expr}
    (h : function s reflect bound loc typeParams params result = .ok e) : Reflected s P bound e := by
  unfold Reflection.function at h
  split at h
  · obtain ⟨es, hes, rfl⟩ := bind_pure_eq_ok.1 h
    exact .call (hr.signature hp ht hes)
  · obtain ⟨body, hb, rfl⟩ := bind_pure_eq_ok.1 h
    refine .call (forall_mem_singleton.2 (hr.factory htp (fun bound e he => ?_) hb))
    obtain ⟨es, hes, rfl⟩ := bind_pure_eq_ok.1 he
    exact .array (hr.signature hp ht hes)

variable [Mergeable P]

theorem Builds.member : {entry : MemberEntry} → entry.member.Everywhere P → {e : Expr} →
    member s reflect bound entry = .ok e → Built s P bound e
  | ⟨_, TypeMember.property _ _ optional _ _⟩, own, _, h => by
    obtain ⟨-, key, type, -⟩ := own
    obtain ⟨t, ht, rfl⟩ := bind_pure_eq_ok.1 h
    refine .call (forall_mem_cons.2 ⟨.key key, forall_mem_cons.2
      ⟨hr.optional (Tree.Everywhere.toOption type) ht, ?_⟩⟩)
    cases optional with
    | true => exact forall_mem_singleton.2 .literal
    | false => exact nofun
  | ⟨_, TypeMember.method _ optional _ _ _ _⟩, own, _, h => by
    obtain ⟨-, key, typeParams, params, result, -⟩ := own
    obtain ⟨f, hf, rfl⟩ := bind_pure_eq_ok.1 h
    have func := hr.function (Tree.Everywhere.typeParams typeParams) (Tree.Everywhere.toList params)
      (Tree.Everywhere.toOption result) hf
    refine .call (forall_mem_cons.2 ⟨.key key, forall_mem_cons.2
      ⟨func.nullable.built, ?_⟩⟩)
    cases optional with
    | true => exact forall_mem_singleton.2 .literal
    | false => exact nofun
  | ⟨_, TypeMember.call _ _ _ _⟩, own, _, h | ⟨_, TypeMember.construct _ _ _ _⟩, own, _, h => by
    obtain ⟨-, typeParams, params, result, -⟩ := own
    obtain ⟨f, hf, rfl⟩ := bind_pure_eq_ok.1 h
    exact .call (forall_mem_singleton.2 (hr.function (Tree.Everywhere.typeParams typeParams)
      (Tree.Everywhere.toList params) (Tree.Everywhere.toOption result) hf).built)
  | ⟨_, TypeMember.index _ _ _ _ _⟩, own, _, h => by
    obtain ⟨-, key, value, -⟩ := own
    obtain ⟨k, hk, h⟩ := bind_eq_ok.1 h
    obtain ⟨v, hv, rfl⟩ := bind_pure_eq_ok.1 h
    exact .call (forall_mem_cons.2 ⟨.literal, forall_mem_cons.2
      ⟨(hr _ _ _ key hk).built, forall_mem_singleton.2 (hr _ _ _ value hv).built⟩⟩)

theorem Builds.members {entries : List MemberEntry}
    (he : ∀ e ∈ entries, e.member.Everywhere P) {es : List Expr}
    (h : members s reflect bound entries = .ok es) : ∀ e ∈ es, Built s P bound e :=
  forall_of_mapM (fun _ mem _ => hr.member (everywhere_mergeOverloads he _ mem)) h

theorem Builds.step {t : TypeExpr} (ht : t.Everywhere P) {e : Expr}
    (h : step s reflect bound t = .ok e) : Reflected s P bound e := by
  match t, ht, h with
  | TypeExpr.paren _ t, ht, h => exact hr bound t e ht.2.1 h
  | TypeExpr.keyword _ k, _, h =>
    obtain rfl := pure_eq_ok.1 h
    exact .keyword k
  | TypeExpr.literal _ l, _, h =>
    obtain rfl := pure_eq_ok.1 h
    exact .literal l
  | TypeExpr.array _ _ t, ht, h =>
    obtain ⟨elem, helem, rfl⟩ := bind_pure_eq_ok.1 h
    exact .primitive (forall_mem_singleton.2 (hr bound t elem ht.2.1 helem).built)
  | TypeExpr.tuple _ _ _, ht, h | TypeExpr.union _ _, ht, h | TypeExpr.intersection _ _, ht, h =>
    obtain ⟨es, hes, rfl⟩ := bind_pure_eq_ok.1 h
    exact .primitive (hr.mapM (Tree.Everywhere.toList ht.2.1) hes)
  | TypeExpr.reference _ _ _, ht, h => exact hr.reference ht h
  | TypeExpr.func _ _ _ _, ht, h | TypeExpr.construct _ _ _ _ _, ht, h =>
    obtain ⟨-, typeParams, params, result, -⟩ := ht
    obtain ⟨f, hf, rfl⟩ := bind_pure_eq_ok.1 h
    exact (hr.function (Tree.Everywhere.typeParams typeParams) (Tree.Everywhere.toList params)
      (by simpa using result) hf).nullable
  | TypeExpr.object _ _, ht, h =>
    obtain ⟨es, hes, rfl⟩ := bind_pure_eq_ok.1 h
    have members := Tree.Everywhere.toList ht.2.1
    exact .primitive (hr.members (forall_mem_map.2 members) hes)
  | TypeExpr.query _ _, ht, h =>
    obtain rfl := pure_eq_ok.1 h
    exact .primitive (forall_mem_singleton.2 (.query ht.root))
  | TypeExpr.operator _ _ _, _, h | TypeExpr.indexed _ _ _, _, h
  | TypeExpr.conditional _ _ _ _ _, _, h | TypeExpr.infer _ _ _, _, h
  | TypeExpr.mapped _ _ _ _, _, h | TypeExpr.predicate _ _ _ _, _, h =>
    cases h

end Reflection

/-! ### Declarations -/

namespace Scope

open Reflection

variable {P : (c : Category) → Tree c → Prop} [Mergeable P] {s : Scope} {bound : List String}
  {loc : Loc}

theorem builds_reflectUnder (s : Scope) : Builds s P s.reflectUnder := by
  suffices ∀ fuel, Builds s P (s.reflectWithin fuel) from fun bound t => this t.height bound t
  intro fuel
  induction fuel with
  | zero => exact fun _ _ _ _ h => nomatch h
  | succ fuel ih => exact fun _ _ _ ht h => ih.step ht h

/-- **Reflections are built from few kinds of phrases.** -/
theorem reflect_built {t} (ht : t.Everywhere P) {e} (h : s.reflect t = .ok e) :
    Reflected s P [] e :=
  s.builds_reflectUnder [] t e ht h

theorem namedType_built {name} {typeParams : List TypeParam}
    (hp : (Tree.ofList typeParams).Everywhere P) {body}
    (hb : ∀ bound e, body bound = .ok e → Built s P bound e) {e}
    (h : s.namedType loc name typeParams body = .ok e) : Built s P [] e := by
  have call {r : Expr} (hr : Built s P [] r) :
      Built s P [] (s.libraryCall loc "type" [str loc name, r]) :=
    .call (forall_mem_cons.2 ⟨.str, forall_mem_singleton.2 hr⟩)
  unfold namedType at h
  split at h
  · obtain ⟨r, hr, rfl⟩ := bind_pure_eq_ok.1 h
    exact call (hb _ _ hr)
  · obtain ⟨r, hr, rfl⟩ := bind_pure_eq_ok.1 h
    exact call (s.builds_reflectUnder.factory hp hb hr)

theorem interfaceBody_built {bases} (ht : ∀ t ∈ bases, t.Everywhere P) {members}
    (hm : ∀ m ∈ members, m.Everywhere P) {e} (h : s.interfaceBody bound loc bases members = .ok e) :
    Built s P bound e := by
  obtain ⟨ms, hms, h⟩ := bind_eq_ok.1 h
  have object : Built s P bound (s.libraryCall loc "object" ms) :=
    .call (s.builds_reflectUnder.members (forall_mem_map.2 hm) hms)
  split at h
  · obtain rfl := pure_eq_ok.1 h
    exact object
  · obtain ⟨bs, hbs, rfl⟩ := bind_pure_eq_ok.1 h
    exact .call (forall_mem_append.2
      ⟨s.builds_reflectUnder.mapM ht hbs, forall_mem_singleton.2 object⟩)

theorem classParts_built [Routine P] {decl} (hd : decl.Everywhere P) {merged}
    (hm : ∀ m ∈ merged, m.Everywhere P) {es} (h : s.classParts bound loc decl merged = .ok es) :
    ∀ e ∈ es, Built s P bound e := by
  match decl, hd with
  | ClassDecl.mk _ _ _ _ _ base baseArgs _ members, hd =>
    obtain ⟨-, -, -, -, hb, hargs, -, hmem, -⟩ := hd
    rw [classParts_eq rfl] at h
    obtain ⟨hs, hh, h⟩ := bind_eq_ok.1 h
    obtain ⟨ms, hms, rfl⟩ := bind_pure_eq_ok.1 h
    refine forall_mem_append.2 ⟨forall_of_mapM (fun b mem e he => ?_) hh,
      s.builds_reflectUnder.members (forall_mem_append.2 ⟨everywhere_classEntries
        (Tree.Everywhere.toList hmem), forall_mem_map.2 hm⟩) hms⟩
    obtain ⟨args, hes, rfl⟩ := bind_pure_eq_ok.1 he
    exact .call (forall_mem_cons.2 ⟨.copy (Tree.Everywhere.toOption hb b
      (mem_toList.1 mem)), s.builds_reflectUnder.mapM (Tree.Everywhere.toLists hargs) hes⟩)

theorem reflectClass_built [Routine P] {decl} (hd : decl.Everywhere P) {merged}
    (hm : ∀ m ∈ merged, m.Everywhere P) {e} (h : s.reflectClass loc decl merged = .ok e) :
    Built s P [] e := by
  match decl, hd with
  | ClassDecl.mk _ _ _ _ typeParams _ _ _ _, hd =>
    have params := Tree.Everywhere.typeParams hd.2.2.2.1
    rw [reflectClass_eq rfl] at h
    dsimp only at h
    split at h
    · obtain ⟨parts, hp, rfl⟩ := bind_pure_eq_ok.1 h
      exact .call (forall_mem_cons.2 ⟨.literal, s.classParts_built hd hm hp⟩)
    · obtain ⟨body, hb, rfl⟩ := bind_pure_eq_ok.1 h
      refine .call (forall_mem_cons.2 ⟨.literal, forall_mem_singleton.2 ?_⟩)
      refine s.builds_reflectUnder.factory params (fun bound e he => ?_) hb
      obtain ⟨parts, hp, rfl⟩ := bind_pure_eq_ok.1 he
      exact .array (s.classParts_built hd hm hp)

end Scope

/-! ### Reflections are made by the program -/

theorem Reflection.Built.synthetic {s P bound e} (h : Built s P bound e) : e.Synthetic := by
  induction h with
  | param _ h =>
    unfold typeParam? at h
    split at h
    · obtain rfl := Option.some.inj h
      simp
    · obtain ⟨access, _, rfl⟩ := map_eq_some_iff.1 h
      cases access <;> simp
  | @name _ _ _ n | @query _ _ _ n => exact n.synthetic_toExpr
  | @deferred _ _ _ n => exact synthetic_thunk.2 n.synthetic_toExpr
  | literal | this => simp
  | copy => exact synthetic_detach _
  | call _ ih => exact synthetic_libraryCall.2 ih
  | array _ ih => exact synthetic_array.2 ih
  | factory _ _ _ _ bounds value =>
    rw [synthetic_arrow, synthetic_node, Children.synthetic_cons, synthetic_ofList,
      forall_mem_append]
    refine ⟨by simp, ⟨forall_paramConst fun p as mem => ?_, by simpa using value⟩, by simp⟩
    obtain ⟨i, here⟩ := mem_iff_getElem?.1 mem
    match p with
    | TypeParam.mk _ _ _ _ => simpa [paramConst] using bounds i as here

/-- **Reflections are synthetic**, whatever the type. -/
theorem Scope.reflect_synthetic {s : Scope} {t e} (h : s.reflect t = .ok e) : e.Synthetic :=
  (s.reflect_built t.everywhere_true h).built.synthetic

end Reify
