import Reify.Proofs.Reflection.Merging

/-!
# Renumbering and reflection

Reflection does not see the numbers of nodes.  The reflection of a renumbered type is that of the
type, and of a renumbered declaration that of the declaration (`Scope.reflectUnder_renumber`,
`Scope.reflectClass_renumber`).  Merging overloads builds new members around parts of old ones and
commutes with every renumbering that keeps 0, the number of what the program makes.
-/

namespace Reify

open List Tree

variable {f : Nat → Nat}

/-! ### Recursion on trees -/

mutual

/-- A recursion that does not see numbers gives the same for a renumbered tree. -/
theorem Tree.fold_renumber {X : Category → Type} {step : Step X}
    (blind : ∀ {c : Category} (form : Form c) (marks : Marks form.width)
      (ts : Children form.arity) (rs : Results X form.arity),
      step form (marks.renumber f) (ts.renumber f) rs = step form marks ts rs) :
    {c : Category} → (t : Tree c) → (t.renumber f).fold step = t.fold step
  | _, .node form marks ts => by
    rw [renumber_node, Tree.fold, Tree.fold, ts.fold_renumber blind, blind]

theorem Children.fold_renumber {X : Category → Type} {step : Step X}
    (blind : ∀ {c : Category} (form : Form c) (marks : Marks form.width)
      (ts : Children form.arity) (rs : Results X form.arity),
      step form (marks.renumber f) (ts.renumber f) rs = step form marks ts rs) :
    {cs : List Category} → (ts : Children cs) → (ts.renumber f).fold step = ts.fold step
  | _, .nil => by rw [Children.renumber_nil]
  | _, .cons t ts => by
    rw [Children.renumber_cons, Children.fold, Children.fold, t.fold_renumber blind,
      ts.fold_renumber blind]

end

variable {c : Category}

@[simp] theorem Tree.render_renumber (t : Tree c) : (t.renumber f).render = t.render :=
  t.fold_renumber fun _ _ _ _ => rfl

@[simp] theorem Tree.height_renumber (t : Tree c) : (t.renumber f).height = t.height :=
  t.fold_renumber fun _ _ _ _ => rfl

@[simp] theorem TypeExpr.text_renumber (t : TypeExpr) :
    TypeExpr.text (t.renumber f) = TypeExpr.text t :=
  congrArg TypeText.text t.render_renumber

@[simp] theorem Expr.text_renumber (e : Expr) : Expr.text (e.renumber f) = Expr.text e :=
  congrArg ExprText.text e.render_renumber

@[simp] theorem Stmt.text_renumber (s : Stmt) : Stmt.text (s.renumber f) = Stmt.text s :=
  s.render_renumber

/-! ### Names and places -/

@[simp] theorem TypeExpr.loc_renumber :
    (t : TypeExpr) → TypeExpr.loc (t.renumber f) = TypeExpr.loc t
  | .node (c := .type) _ (.two _) _ => rfl

@[simp] theorem Expr.loc_renumber : (e : Expr) → Expr.loc (e.renumber f) = Expr.loc e
  | .node (c := .expr) _ (.two _) _ => rfl

@[simp] theorem TypeExpr.kindName_renumber (t : TypeExpr) :
    TypeExpr.kindName (t.renumber f) = TypeExpr.kindName t :=
  congrArg TypeForm.kindName t.form_renumber

@[simp] theorem TypeExpr.isAny_renumber (t : TypeExpr) :
    TypeExpr.isAny (t.renumber f) = TypeExpr.isAny t := by
  rw [TypeExpr.isAny, TypeExpr.isAny, form_renumber]

@[simp] theorem Name.text_renumber : (n : Name) → Name.text (n.renumber f) = Name.text n
  | Name.mk _ _ => rfl

theorem TypeParam.names_renumber (params : List TypeParam) :
    (params.map (Tree.renumber f)).map TypeParam.name = params.map TypeParam.name := by
  rw [map_map]
  exact map_congr_left fun p _ => TypeParam.name_renumber p

@[simp] theorem Pat.ident?_renumber : (p : Pat) → Pat.ident? (p.renumber f) = Pat.ident? p
  | Pat.ident _ _ | Pat.array _ _ _ | Pat.object _ _ _ => rfl

@[simp] theorem Binding.ident?_renumber :
    (b : Binding) → Binding.ident? (b.renumber f) = Binding.ident? b
  | Binding.mk _ pat => Pat.ident?_renumber pat

@[simp] theorem MemberKey.direct?_renumber :
    (k : MemberKey) → MemberKey.direct? (k.renumber f) = MemberKey.direct? k
  | MemberKey.direct _ _ | MemberKey.computed _ => rfl

@[simp] theorem Param.name?_renumber : (p : Param) → Param.name? (p.renumber f) = Param.name? p
  | Param.mk _ _ _ binding _ _ => Binding.ident?_renumber binding

@[simp] theorem Param.isReceiver_renumber (p : Param) :
    Param.isReceiver (p.renumber f) = Param.isReceiver p := by
  rw [Param.isReceiver, Param.isReceiver, Param.name?_renumber]

@[simp] theorem Param.reflectedName_renumber (p : Param) (index : Nat) :
    Param.reflectedName (p.renumber f) index = Param.reflectedName p index := by
  rw [Param.reflectedName, Param.reflectedName, Param.name?_renumber]

@[simp] theorem ClassMember.isConstructor_renumber :
    (m : ClassMember) → ClassMember.isConstructor (m.renumber f) = ClassMember.isConstructor m
  | ClassMember.mk _ form _ key _ (MemberVal.function _ .method _) =>
    congrArg (!form.static && · == some "constructor" && true) (MemberKey.direct?_renumber key)
  | ClassMember.mk _ form _ key _ (MemberVal.function _ .getter _)
  | ClassMember.mk _ form _ key _ (MemberVal.function _ .setter _)
  | ClassMember.mk _ form _ key _ (MemberVal.property _)
  | ClassMember.mk _ form _ key _ (MemberVal.index _ _ _ _) =>
    congrArg (!form.static && · == some "constructor" && false) (MemberKey.direct?_renumber key)

@[simp] theorem ClassDecl.name?_renumber (d : ClassDecl) :
    ClassDecl.name? (d.renumber f) = ClassDecl.name? d := by
  match d with
  | ClassDecl.mk _ _ _ name _ _ _ _ _ =>
    change (name.renumber f).toOption.map Name.text = name.toOption.map Name.text
    rw [toOption_renumber, Option.map_map]
    exact congrArg (Option.map · _) (funext Name.text_renumber)

/-! ### Overloads -/

/-- Renumbers the member of an entry. -/
def MemberEntry.renumber (f : Nat → Nat) (e : MemberEntry) : MemberEntry :=
  { e with member := e.member.renumber f }

@[simp] theorem TypeKey.group_renumber :
    (k : TypeKey) → TypeKey.group (k.renumber f) = TypeKey.group k
  | TypeKey.ident _ | TypeKey.str _ | TypeKey.num _ => rfl
  | TypeKey.computed key => congrArg ("[" ++ · ++ "]") (Expr.text_renumber key)

theorem MemberEntry.group?_renumber :
    (e : MemberEntry) → (e.renumber f).group? = e.group?
  | ⟨static, TypeMember.method _ _ key _ _ _⟩ =>
    congrArg (fun name => some (static, name)) (TypeKey.group_renumber key)
  | ⟨_, TypeMember.property _ _ _ _ _⟩ | ⟨_, TypeMember.construct _ _ _ _⟩
  | ⟨_, TypeMember.call _ _ _ _⟩ | ⟨_, TypeMember.index _ _ _ _ _⟩ => rfl

section

variable (hf : f 0 = 0)

include hf

theorem Mark.renumber_synthetic (loc : Loc) : (Mark.synthetic loc).renumber f = .synthetic loc :=
  congrArg (Mark.mk · loc) hf

theorem Marks.renumber_synthetic (loc : Loc) :
    (Marks.two (.synthetic loc)).renumber f = .two (.synthetic loc) :=
  congrArg (fun mark => Marks.two ⟨mark, mark⟩) (Mark.renumber_synthetic hf loc)

end

/-! ### Members of classes -/

theorem MemberKey.toTypeKey_renumber :
    (k : MemberKey) → MemberKey.toTypeKey (k.renumber f) = (MemberKey.toTypeKey k).renumber f
  | MemberKey.direct _ _ | MemberKey.computed _ => rfl

theorem ClassMember.group_renumber :
    (m : ClassMember) → ClassMember.group (m.renumber f) = ClassMember.group m
  | ClassMember.mk _ form _ key _ _ => by
    change (form.static, TypeKey.group (MemberKey.toTypeKey (key.renumber f))) = _
    rw [MemberKey.toTypeKey_renumber, TypeKey.group_renumber]
    rfl

theorem ClassMember.isOverload_renumber :
    (m : ClassMember) → ClassMember.isOverload (m.renumber f) = ClassMember.isOverload m
  | ClassMember.mk _ _ _ _ _ (MemberVal.function _ .method (Func.mk _ _ _ _ _ body)) => by
    change (body.renumber f).toOption.isNone = body.toOption.isNone
    rw [toOption_renumber, Option.isNone_map]
  | ClassMember.mk _ _ _ _ _ (MemberVal.function _ .getter _)
  | ClassMember.mk _ _ _ _ _ (MemberVal.function _ .setter _)
  | ClassMember.mk _ _ _ _ _ (MemberVal.property _)
  | ClassMember.mk _ _ _ _ _ (MemberVal.index _ _ _ _) => rfl

theorem ClassMember.isImplementation_renumber :
    (m : ClassMember) → ClassMember.isImplementation (m.renumber f) = ClassMember.isImplementation m
  | ClassMember.mk _ _ _ _ _ (MemberVal.function _ .method (Func.mk _ _ _ _ _ body)) => by
    change (body.renumber f).toOption.isSome = body.toOption.isSome
    rw [toOption_renumber, Option.isSome_map]
  | ClassMember.mk _ _ _ _ _ (MemberVal.function _ .getter _)
  | ClassMember.mk _ _ _ _ _ (MemberVal.function _ .setter _)
  | ClassMember.mk _ _ _ _ _ (MemberVal.property _)
  | ClassMember.mk _ _ _ _ _ (MemberVal.index _ _ _ _) => rfl

theorem ClassMember.isAccessor_renumber :
    (m : ClassMember) → ClassMember.isAccessor (m.renumber f) = ClassMember.isAccessor m
  | ClassMember.mk _ _ _ _ _ (MemberVal.function _ .method _)
  | ClassMember.mk _ _ _ _ _ (MemberVal.function _ .getter _)
  | ClassMember.mk _ _ _ _ _ (MemberVal.function _ .setter _)
  | ClassMember.mk _ _ _ _ _ (MemberVal.property _)
  | ClassMember.mk _ _ _ _ _ (MemberVal.index _ _ _ _) => rfl

theorem Param.type?_renumber :
    (p : Param) → Param.type? (p.renumber f) = (Param.type? p).map (Tree.renumber f)
  | Param.mk _ _ _ _ type _ => type.toOption_renumber

section

variable (hf : f 0 = 0)

include hf

theorem Param.toSigParam_renumber (index : Nat) : (p : Param) →
    Param.toSigParam (p.renumber f) index = (Param.toSigParam p index).renumber f
  | Param.mk mark form decorators binding type default => by
    let p := Param.mk mark form decorators binding type default
    change SigParam.mk (.synthetic mark.loc)
        ⟨Param.reflectedName (p.renumber f) index, form.optional, form.rest⟩ (type.renumber f) =
      (SigParam.mk (.synthetic mark.loc) ⟨Param.reflectedName p index, form.optional, form.rest⟩
        type).renumber f
    rw [Param.reflectedName_renumber, renumber_node, Children.renumber_cons,
      Children.renumber_nil]
    exact congrArg (SigParam.mk · _ _) (Mark.renumber_synthetic hf mark.loc).symm

theorem Func.sigParams_renumber : (g : Func) →
    Func.sigParams (g.renumber f) = (Func.sigParams g).map (Tree.renumber f)
  | Func.mk _ _ _ params _ _ => by
    change (((params.renumber f).toList.zipIdx.filter fun x => !Param.isReceiver x.1).map
        fun x => Param.toSigParam x.1 x.2) =
      ((params.toList.zipIdx.filter fun x => !Param.isReceiver x.1).map
        fun x => Param.toSigParam x.1 x.2).map (Tree.renumber f)
    rw [toList_renumber, zipIdx_map, filter_map, map_map, map_map]
    have kept : ((fun x : Param × Nat => !Param.isReceiver x.1) ∘ Prod.map (Tree.renumber f) id) =
        fun x => !Param.isReceiver x.1 :=
      funext fun x => congrArg (!·) (Param.isReceiver_renumber x.1)
    rw [kept]
    exact map_congr_left fun x _ => Param.toSigParam_renumber hf x.2 x.1

theorem TypeMember.renumber_property (loc : Loc) (readonly optional : Bool) (key : MemberKey)
    (t : Option TypeExpr) :
    TypeMember.property (.synthetic loc) readonly optional (MemberKey.toTypeKey (key.renumber f))
        (.ofOption (t.map (Tree.renumber f))) =
      (TypeMember.property (.synthetic loc) readonly optional (MemberKey.toTypeKey key)
        (.ofOption t)).renumber f := by
  simp only [renumber_node, Children.renumber_cons, Children.renumber_nil,
    Marks.renumber_synthetic hf, MemberKey.toTypeKey_renumber, renumber_ofOption]

/-- A class member as a member of an object type commutes with renumbering. -/
theorem ClassMember.toTypeMember_renumber : (m : ClassMember) →
    ClassMember.toTypeMember (m.renumber f) = (ClassMember.toTypeMember m).renumber f
  | ClassMember.mk mark form _ key type (MemberVal.property _) => by
    refine Eq.trans ?_ (TypeMember.renumber_property hf mark.loc form.readonly form.optional key
      type.toOption)
    rw [← toOption_renumber]
    rfl
  | ClassMember.mk mark form _ key _ (MemberVal.function _ .getter (Func.mk _ _ _ _ result _)) => by
    refine Eq.trans ?_ (TypeMember.renumber_property hf mark.loc form.readonly form.optional key
      result.toOption)
    rw [← toOption_renumber]
    rfl
  | ClassMember.mk mark form _ key _ (MemberVal.function _ .setter (Func.mk _ _ _ params _ _)) => by
    have found : ((params.renumber f).toList.find? fun p => !Param.isReceiver p).bind Param.type? =
        ((params.toList.find? fun p => !Param.isReceiver p).bind Param.type?).map
          (Tree.renumber f) := by
      rw [toList_renumber, find?_map]
      have kept : ((fun p : Param => !Param.isReceiver p) ∘ Tree.renumber f) =
          fun p => !Param.isReceiver p :=
        funext fun p => congrArg (!·) (Param.isReceiver_renumber p)
      rw [kept]
      cases params.toList.find? fun p => !Param.isReceiver p with
      | none => rfl
      | some p => exact Param.type?_renumber p
    refine Eq.trans ?_ (TypeMember.renumber_property hf mark.loc form.readonly form.optional key _)
    rw [← found]
    rfl
  | ClassMember.mk mark form _ key _ (MemberVal.function _ .method
      (Func.mk fm ff typeParams params result body)) => by
    change TypeMember.method (.synthetic mark.loc) form.optional
        (MemberKey.toTypeKey (key.renumber f)) (typeParams.renumber f)
        (.ofList (Func.sigParams ((Func.mk fm ff typeParams params result body).renumber f)))
        (result.renumber f) =
      (TypeMember.method (.synthetic mark.loc) form.optional (MemberKey.toTypeKey key) typeParams
        (.ofList (Func.sigParams (Func.mk fm ff typeParams params result body)))
        result).renumber f
    rw [Func.sigParams_renumber hf, MemberKey.toTypeKey_renumber]
    simp only [renumber_node, Children.renumber_cons, Children.renumber_nil,
      Marks.renumber_synthetic hf, renumber_ofList]
  | ClassMember.mk mark form _ _ _ (MemberVal.index _ name key value) => by
    change TypeMember.index (.synthetic mark.loc) form.readonly name (key.renumber f)
      (value.renumber f) = (TypeMember.index (.synthetic mark.loc) form.readonly name key
        value).renumber f
    simp only [renumber_node, Children.renumber_cons, Children.renumber_nil,
      Marks.renumber_synthetic hf]

theorem classEntries_renumber (members : List ClassMember) :
    classEntries (members.map (Tree.renumber f)) = classEntries members := by
  have overloaded : classEntries.overloaded (members.map (Tree.renumber f)) =
      classEntries.overloaded members := by
    rw [classEntries.overloaded, classEntries.overloaded, filter_map, map_map]
    have kept : ClassMember.isOverload ∘ Tree.renumber f = ClassMember.isOverload :=
      funext ClassMember.isOverload_renumber
    rw [kept]
    exact map_congr_left fun m _ => ClassMember.group_renumber m
  have rest (seen : List (Bool × String)) (ms : List ClassMember) :
      classEntries.go (members.map (Tree.renumber f)) seen (ms.map (Tree.renumber f)) =
        classEntries.go members seen ms := by
    induction ms generalizing seen with
    | nil => rfl
    | cons m ms ih =>
      rw [map_cons, classEntries.go, classEntries.go, overloaded]
      simp only [ClassMember.group_renumber, ClassMember.isConstructor_renumber,
        ClassMember.isAccessor_renumber, ClassMember.isImplementation_renumber,
        ClassMember.toTypeMember_renumber hf, detach_renumber, ih]
  exact rest [] members

end

/-! ### Reflection -/

/-- A reflector that does not see numbers. -/
def Reflection.Blind (f : Nat → Nat) (reflect : Reflection.Reflector) : Prop :=
  ∀ bound t, reflect bound (t.renumber f) = reflect bound t

theorem TypeKey.toExpr_renumber (loc : Loc) :
    (k : TypeKey) → TypeKey.toExpr loc (k.renumber f) = TypeKey.toExpr loc k
  | TypeKey.ident _ | TypeKey.str _ | TypeKey.num _ => rfl
  | TypeKey.computed key => key.detach_renumber

namespace Reflection

section

variable {T : TypeExpr → TypeExpr → Prop} (renumbered : ∀ t, T t (t.renumber f))

include renumbered

theorem option_renumber (t : Option TypeExpr) : Option.Rel T t (t.map (Tree.renumber f)) := by
  cases t with
  | none => exact .none
  | some t => exact .some (renumbered t)

theorem list_renumber (ts : List TypeExpr) : Forall₂ T ts (ts.map (Tree.renumber f)) :=
  forall₂_map_right_iff.2 (forall₂_same.2 fun t _ => renumbered t)

theorem typeParams_renumber (ps : List TypeParam) :
    Forall₂ (TypeParam.Related Eq T) ps (ps.map (Tree.renumber f)) := by
  refine forall₂_map_right_iff.2 (forall₂_same.2 fun p _ => ?_)
  match p with
  | TypeParam.mk mark name bound default =>
    change TypeParam.Related Eq T _
      (TypeParam.mk (mark.renumber f) name (bound.renumber f) (default.renumber f))
    refine .mk rfl ?_
    rw [toOption_renumber]
    exact option_renumber renumbered _

theorem function_renumber (tps : Maybe (.many .typeParam)) (ps : Many .sigParam)
    (r : Option TypeExpr) :
    FunctionRelated Eq T tps (tps.renumber f) ps (ps.renumber f) r (r.map (Tree.renumber f)) := by
  refine ⟨?_, ?_, option_renumber renumbered r⟩
  · rw [toLists_renumber]
    exact typeParams_renumber renumbered _
  · rw [toList_renumber]
    refine forall₂_map_right_iff.2 (forall₂_same.2 fun p _ => ?_)
    match p with
    | SigParam.mk mark form type =>
      change SigParam.Related Eq T _ (SigParam.mk (mark.renumber f) form (type.renumber f))
      refine .mk rfl ?_
      rw [toOption_renumber]
      exact option_renumber renumbered _

theorem member_renumber (e : MemberEntry) : MemberRelated Eq (fun _ => Eq) T e (e.renumber f) := by
  have keys (key : TypeKey) : KeyRelated Eq (fun _ => Eq) key (key.renumber f) := by
    rintro loc _ rfl
    exact (TypeKey.toExpr_renumber loc key).symm
  have parts (tps : Maybe (.many .typeParam)) (ps : Many .sigParam) (r : Maybe .type) :
      FunctionRelated Eq T tps (tps.renumber f) ps (ps.renumber f) r.toOption
        (r.renumber f).toOption := by
    rw [toOption_renumber]
    exact function_renumber renumbered tps ps r.toOption
  match e with
  | ⟨static, TypeMember.property site readonly optional key type⟩ =>
    refine .property rfl (keys key) ?_
    rw [toOption_renumber]
    exact option_renumber renumbered _
  | ⟨static, TypeMember.method site optional key tps ps r⟩ =>
    exact .method rfl (keys key) (parts tps ps r)
  | ⟨static, TypeMember.call site tps ps r⟩ => exact .call rfl (parts tps ps r)
  | ⟨static, TypeMember.construct site tps ps r⟩ => exact .construct rfl (parts tps ps r)
  | ⟨static, TypeMember.index site readonly name key value⟩ =>
    exact .index rfl (renumbered key) (renumbered value)

/-- Merging overloads does not see numbers. -/
theorem merges_renumber (hf : f 0 = 0) : Merges Eq (fun t t' => t' = t.renumber f) T where
  same h := h ▸ renumbered _
  text h := by rw [h, TypeExpr.text_renumber]
  union {loc loc' ts ts'} place h := by
    subst place
    have any : Synthetic.any loc = (Synthetic.any loc).renumber f :=
      congrArg (fun mark => TypeExpr.keyword ⟨mark, mark⟩ .any) (Mark.renumber_synthetic hf loc).symm
    have each : ts' = ts.map (Tree.renumber f) := by
      induction h with
      | nil => rfl
      | cons head _ ih =>
        rw [map_cons, ih]
        rcases head with rfl | ⟨rfl, rfl⟩
        · rfl
        · rw [← any]
    have whole := renumbered (.union (.synthetic loc) (.ofList ts))
    rw [renumber_node, Children.renumber_cons, Children.renumber_nil, renumber_ofList,
      Marks.renumber_synthetic hf, ← each] at whole
    exact whole

/-- A type and the renumbered type have related parts. -/
theorem type_renumber (hf : f 0 = 0) (t : TypeExpr) :
    TypeRelated Eq (fun _ => Eq) T t (t.renumber f) := by
  have types (ts : Many .type) : Forall₂ T ts.toList (ts.renumber f).toList := by
    rw [toList_renumber]
    exact list_renumber renumbered _
  match t with
  | TypeExpr.paren _ t => exact .paren (renumbered t)
  | TypeExpr.keyword _ _ => exact .keyword rfl
  | TypeExpr.literal _ _ => exact .literal rfl
  | TypeExpr.query _ _ => exact .query rfl
  | TypeExpr.array _ _ elem => exact .array rfl (renumbered elem)
  | TypeExpr.tuple _ _ ts => exact .tuple rfl (types ts)
  | TypeExpr.union _ ts => exact .union rfl (types ts)
  | TypeExpr.intersection _ ts => exact .intersection rfl (types ts)
  | TypeExpr.reference _ _ args =>
    refine .reference rfl ?_
    rw [toLists_renumber]
    exact list_renumber renumbered _
  | TypeExpr.func _ tps ps r => exact .func rfl (function_renumber renumbered tps ps (some r))
  | TypeExpr.construct _ _ tps ps r =>
    exact .construct rfl (function_renumber renumbered tps ps (some r))
  | TypeExpr.object _ ms =>
    refine .object rfl (mergeOverloads_related (merges_renumber renumbered hf) ?_)
    rw [toList_renumber, map_map]
    exact forall₂_map_left_iff.2 (forall₂_map_right_iff.2 (forall₂_same.2
      fun m _ => ⟨member_renumber (T := fun t t' => t' = t.renumber f) (fun _ => rfl) (.ofMember m),
        (MemberEntry.group?_renumber (.ofMember m)).symm⟩))
  | TypeExpr.operator _ _ _ | TypeExpr.indexed _ _ _ | TypeExpr.conditional _ _ _ _ _
  | TypeExpr.infer _ _ _ | TypeExpr.mapped _ _ _ _ | TypeExpr.predicate _ _ _ _ =>
    exact .unsupported rfl rfl rfl rfl

end

variable {s : Scope} {reflect : Reflector}

theorem Blind.agrees (blind : Blind f reflect) (t : TypeExpr) :
    Agrees Eq (fun _ => Eq) reflect reflect t (t.renumber f) :=
  fun bound => .of_eq (blind bound t).symm

theorem Blind.mapM (blind : Blind f reflect) (bound : List String) (ts : List TypeExpr) :
    (ts.map (Tree.renumber f)).mapM (reflect bound) = ts.mapM (reflect bound) := by
  rw [mapM_map]
  exact congrArg (List.mapM · ts) (funext (blind bound))

theorem Blind.factory (blind : Blind f reflect) (bound : List String) (loc : Loc) (name : String)
    (params : List TypeParam) (body : List String → Result Expr) :
    Reflection.factory reflect bound loc name (params.map (Tree.renumber f)) body =
      Reflection.factory reflect bound loc name params body :=
  (agree_factory (Scope.corresponds_self {}) rfl (typeParams_renumber blind.agrees params)
    fun _ => .of_eq rfl).eq.symm

end Reflection

namespace Scope

open Reflection

variable (hf : f 0 = 0) (s : Scope)

include hf

theorem blind_reflectWithin (fuel : Nat) : Reflection.Blind f (s.reflectWithin fuel) := by
  induction fuel with
  | zero =>
    intro bound t
    rw [reflectWithin, reflectWithin, TypeExpr.kindName_renumber, TypeExpr.loc_renumber]
  | succ fuel ih =>
    exact fun bound t => (Agrees.step s.corresponds_self (type_renumber ih.agrees hf t) bound).eq.symm

theorem blind_reflectUnder : Reflection.Blind f s.reflectUnder := by
  intro bound t
  rw [reflectUnder, height_renumber]
  exact s.blind_reflectWithin hf _ bound t

/-- A renumbered type has the same reflection. -/
theorem reflect_renumber (t : TypeExpr) : s.reflect (t.renumber f) = s.reflect t :=
  s.blind_reflectUnder hf [] t

theorem namedType_renumber (loc : Loc) (name : String) (typeParams : List TypeParam)
    (body : List String → Except Unsupported Expr) :
    s.namedType loc name (typeParams.map (Tree.renumber f)) body =
      s.namedType loc name typeParams body := by
  rw [namedType, namedType, isEmpty_map, (s.blind_reflectUnder hf).factory]

theorem classParts_renumber (bound : List String) (loc : Loc) (merged : List TypeMember) :
    (decl : ClassDecl) →
    s.classParts bound loc (decl.renumber f) merged = s.classParts bound loc decl merged
  | ClassDecl.mk mark form decorators name typeParams base baseArgs implemented members => by
    have heritage : s.heritage bound loc (base.renumber f).toOption (baseArgs.renumber f).toLists =
        s.heritage bound loc base.toOption baseArgs.toLists := by
      rw [toOption_renumber, toLists_renumber]
      cases base.toOption with
      | none => rfl
      | some base =>
        rw [Option.map_some, Scope.heritage, Scope.heritage, (s.blind_reflectUnder hf).mapM]
        simp only [Option.toList_some, mapM_cons, detach_renumber]
    let decl := ClassDecl.mk mark form decorators name typeParams base baseArgs implemented members
    have parts : s.classParts bound loc (decl.renumber f) merged = _ := classParts_eq rfl
    rw [parts, classParts_eq rfl, heritage, toList_renumber, classEntries_renumber hf]

/-- A renumbered class has the same reflection. -/
theorem reflectClass_renumber (loc : Loc) (merged : List TypeMember) : (decl : ClassDecl) →
    s.reflectClass loc (decl.renumber f) merged = s.reflectClass loc decl merged
  | ClassDecl.mk mark form decorators name typeParams base baseArgs implemented members => by
    let decl := ClassDecl.mk mark form decorators name typeParams base baseArgs implemented members
    have whole : s.reflectClass loc (decl.renumber f) merged = _ := reflectClass_eq rfl
    rw [whole, reflectClass_eq rfl, ClassDecl.name?_renumber, toLists_renumber,
      isEmpty_map]
    simp only [s.classParts_renumber hf]
    rw [(s.blind_reflectUnder hf).factory]

end Scope

end Reify
