import Reify.Proofs.Reflection.Built
import Reify.Proofs.Reflection.Locals
import Reify.Proofs.Reflection.Overload
import Reify.Proofs.Reflection.Renumber

/-!
# Reflections of classes

`contributors members` are the members of a class that its reflection shows: no constructors, no
method with a body beside signatures of the same name, and of the getters and setters of one name
only the first.  `ClassMember.Shows` says which entry a member gives.

* `classEntries_shown`: the entries of a class are those of its contributors, in order.
* `reflectClass_members`: the reflection of a class holds the reflections of these entries and of
  the members of interfaces merged with the class, overloads merged, and no member is missing there.
  It goes through a factory that binds the type parameters of the class if there are any.
-/

namespace Reify

open List

/-! ### Entries -/

namespace ClassMember

/-- The accessors that a getter or setter belongs to. -/
def accessors? (m : ClassMember) : Option (Bool × String) :=
  if isAccessor m then some (group m) else none

/-- Whether a member of a class has a part in its reflection: constructors have none, and neither
has a method with a body if there are signatures of the same name. -/
def isShown (members : List ClassMember) (m : ClassMember) : Bool :=
  !isConstructor m && !(isImplementation m && members.any fun o => isOverload o && group o == group m)

/-- **The entry of a member.**  A getter counts as a property with the type of its result, a setter
as one with the type of its parameter. -/
inductive Shows : ClassMember → MemberEntry → Prop where
  | property {mark form decorators key type init} :
      Shows (.mk mark form decorators key type (.property init))
        ⟨form.static, (TypeMember.property (.synthetic mark.loc) form.readonly form.optional
          (MemberKey.toTypeKey key) type).detach⟩
  | getter {mark form decorators key type slot func flags typeParams params result body} :
      Shows (.mk mark form decorators key type
          (.function slot .getter (.mk func flags typeParams params result body)))
        ⟨form.static, (TypeMember.property (.synthetic mark.loc) form.readonly form.optional
          (MemberKey.toTypeKey key) result).detach⟩
  | setter {mark form decorators key type slot func flags typeParams params result body} :
      Shows (.mk mark form decorators key type
          (.function slot .setter (.mk func flags typeParams params result body)))
        ⟨form.static, (TypeMember.property (.synthetic mark.loc) form.readonly form.optional
          (MemberKey.toTypeKey key)
          (.ofOption ((params.toList.find? (!Param.isReceiver ·)).bind Param.type?))).detach⟩
  | method {mark form decorators key type slot func flags typeParams params result body} :
      Shows (.mk mark form decorators key type
          (.function slot .method (.mk func flags typeParams params result body)))
        ⟨form.static, (TypeMember.method (.synthetic mark.loc) form.optional
          (MemberKey.toTypeKey key) typeParams
          (.ofList (Func.sigParams (.mk func flags typeParams params result body))) result).detach⟩
  | index {mark form decorators key type slot name keys values} :
      Shows (.mk mark form decorators key type (.index slot name keys values))
        ⟨form.static, (TypeMember.index (.synthetic mark.loc) form.readonly name keys values).detach⟩

theorem shows_entry : (m : ClassMember) → Shows m ⟨(group m).1, (toTypeMember m).detach⟩
  | ClassMember.mk _ _ _ _ _ (MemberVal.property _)
  | ClassMember.mk _ _ _ _ _ (MemberVal.function _ .getter (Func.mk _ _ _ _ _ _)) => by
    rw [toTypeMember]
    dsimp only
    rw [Tree.ofOption_toOption]
    constructor
  | ClassMember.mk _ _ _ _ _ (MemberVal.function _ .setter (Func.mk _ _ _ _ _ _)) => .setter
  | ClassMember.mk _ _ _ _ _ (MemberVal.function _ .method (Func.mk _ _ _ _ _ _)) => .method
  | ClassMember.mk _ _ _ _ _ (MemberVal.index _ _ _ _) => .index

theorem hidden_of_not_isShown {members} {m : ClassMember} (plain : isConstructor m = false)
    (h : ¬isShown members m = true) :
    isImplementation m = true ∧ ∃ o ∈ members, isOverload o = true ∧ group o = group m := by
  simpa [isShown, plain] using h

theorem not_isImplementation_of_isAccessor : {m : ClassMember} → isAccessor m = true →
    isImplementation m = false
  | ClassMember.mk _ _ _ _ _ (MemberVal.function _ .getter _), _
  | ClassMember.mk _ _ _ _ _ (MemberVal.function _ .setter _), _ => rfl

end ClassMember

/-- The members of a class that have an entry. -/
def contributors (members : List ClassMember) : List ClassMember :=
  firsts ClassMember.accessors? (members.filter (ClassMember.isShown members))

theorem overloaded_contains (members : List ClassMember) (g : Bool × String) :
    (classEntries.overloaded members).contains g =
      members.any fun o => ClassMember.isOverload o && ClassMember.group o == g := by
  rw [Bool.eq_iff_iff, contains_iff_mem, any_eq_true]
  simp [classEntries.overloaded, and_assoc]

theorem classEntries_go (members : List ClassMember) (seen : List (Bool × String))
    (ms : List ClassMember) : classEntries.go members seen ms =
      (unseen ClassMember.accessors? seen (ms.filter (ClassMember.isShown members))).map
        fun m => ⟨(ClassMember.group m).1, (ClassMember.toTypeMember m).detach⟩ := by
  induction ms generalizing seen with
  | nil => rfl
  | cons m ms ih =>
    rw [classEntries.go, overloaded_contains]
    cases constructor : ClassMember.isConstructor m with
    | true =>
      rw [filter_cons_of_neg (by simp [ClassMember.isShown, constructor]), if_pos rfl, ih]
    | false =>
      rw [if_neg Bool.false_ne_true]
      split
      case isTrue accessor =>
        have shown : ClassMember.isShown members m = true := by
          simp [ClassMember.isShown, constructor,
            ClassMember.not_isImplementation_of_isAccessor accessor]
        rw [filter_cons_of_pos shown, unseen, ClassMember.accessors?, if_pos accessor]
        simp only [ih]
        split <;> rfl
      case isFalse accessor =>
        split
        case isTrue hidden =>
          rw [filter_cons_of_neg (by simp [ClassMember.isShown, hidden]), ih]
        case isFalse visible =>
          have shown : ClassMember.isShown members m = true := by
            rw [ClassMember.isShown, constructor, eq_false_of_ne_true visible]
            rfl
          rw [filter_cons_of_pos shown, unseen, ClassMember.accessors?, if_neg accessor, map_cons, ih]

/-- The entries of a class are those of its contributors, in order. -/
theorem classEntries_shown (members : List ClassMember) :
    Forall₂ ClassMember.Shows (contributors members) (classEntries members) := by
  rw [classEntries, classEntries_go, unseen_nil, ← contributors, forall₂_map_right_iff,
    forall₂_same]
  exact fun m _ => m.shows_entry

/-! ### No member is lost -/

/-- The static flag and the text of the key of a property or a method. -/
def MemberEntry.label? (e : MemberEntry) : Option (Bool × String) :=
  match e.member with
  | TypeMember.property _ _ _ key _ | TypeMember.method _ _ key _ _ _ =>
    some (e.static, TypeKey.group key)
  | _ => none

/-- Whether a class member is an index signature. -/
def ClassMember.isIndex : ClassMember → Bool
  | ClassMember.mk _ _ _ _ _ (MemberVal.index _ _ _ _) => true
  | _ => false

theorem MemberEntry.label?_of_group? {e : MemberEntry} {g} (h : e.group? = some g) :
    e.label? = some g := by
  obtain ⟨_, _, _, _, _, _, _, rfl, rfl⟩ := MemberEntry.method_of_group? h
  rfl

theorem MemberEntry.label?_detach (static : Bool) : (t : TypeMember) →
    (⟨static, t.detach⟩ : MemberEntry).label? = (⟨static, t⟩ : MemberEntry).label?
  | TypeMember.property _ _ _ key _ | TypeMember.method _ _ key _ _ _ => by
    rw [Tree.detach_eq]
    exact congrArg (fun name => some (static, name)) (TypeKey.group_renumber key)
  | TypeMember.construct _ _ _ _ | TypeMember.call _ _ _ _ | TypeMember.index _ _ _ _ _ => by
    rw [Tree.detach_eq]
    rfl

namespace ClassMember.Shows

variable {m : ClassMember} {e : MemberEntry}

theorem label?_eq (h : Shows m e) (named : m.isIndex = false) : e.label? = some m.group := by
  cases h with
  | index => cases named
  | _ => exact MemberEntry.label?_detach _ _

theorem group?_of_isIndex (h : Shows m e) (index : m.isIndex = true) : e.group? = none := by
  cases h with
  | index =>
    rw [Tree.detach_eq]
    rfl
  | _ => cases index

end ClassMember.Shows

theorem MemberKey.direct?_of_group : {key : MemberKey} →
    TypeKey.group (MemberKey.toTypeKey key) = "constructor" → MemberKey.direct? key = some "constructor"
  | MemberKey.direct _ _, h => congrArg some h
  | MemberKey.computed e, h => by
    -- the text of a computed key starts with a bracket
    have chars : '[' :: ((Expr.text e).toList ++ [']']) = "constructor".toList := by
      simpa [TypeKey.group, MemberKey.toTypeKey] using congrArg String.toList h
    cases chars

theorem ClassMember.group_of_isConstructor : {m : ClassMember} → m.isConstructor = true →
    m.group = (false, "constructor")
  | ClassMember.mk _ form _ key _ val, h => by
    rw [isConstructor, Bool.and_eq_true, Bool.and_eq_true] at h
    have static : form.static = false := by simpa using h.1.1
    have name : MemberKey.direct? key = some "constructor" := by simpa using h.1.2
    clear h
    match key, name with
    | MemberKey.direct _ _, name =>
      obtain rfl := Option.some.inj name
      exact congrArg (·, "constructor") static
    | MemberKey.computed _, name => cases name

/-- A method with the name of a constructor is one. -/
theorem ClassMember.isConstructor_of_group : {m : ClassMember} → m.isImplementation = true →
    m.group = (false, "constructor") → m.isConstructor = true
  | ClassMember.mk _ form _ key _ (MemberVal.function _ .method _), _, h => by
    obtain ⟨static, name⟩ := Prod.mk.inj h
    rw [isConstructor, static, MemberKey.direct?_of_group name]
    rfl

/-- What merging leaves represents every entry. -/
theorem MergedMembers.represents {entries merged} (h : MergedMembers entries merged) {e}
    (he : e ∈ entries) : e ∈ merged ∨ ∃ g, e.group? = some g ∧ ∃ x ∈ merged, x.label? = some g := by
  cases hg : e.group? with
  | some g =>
    have group := (h.groups g).2 (mem_filterMap.2 ⟨e, he, hg⟩)
    obtain ⟨x, hx, eq⟩ := mem_filterMap.1 group
    exact .inr ⟨g, rfl, x, hx, MemberEntry.label?_of_group? eq⟩
  | _ =>
    have other : e ∈ entries.filter (·.group?.isNone) := mem_filter.2 ⟨he, by simp [hg]⟩
    rw [← h.others] at other
    exact .inl (mem_of_mem_filter other)

/-- **Every member of a class but its constructors is among the merged entries**: an index signature
as it is, any other member by its static flag and the text of its key. -/
def Represented (members : List ClassMember) (merged : List MemberEntry) : Prop :=
  ∀ m ∈ members, m.isConstructor = false →
    if m.isIndex then ∃ x ∈ merged, m.Shows x else ∃ x ∈ merged, x.label? = some m.group

theorem exists_of_contributors {members m} (h : m ∈ contributors members) :
    ∃ e ∈ classEntries members, m.Shows e := by
  obtain ⟨e, he, shows⟩ := exists_of_forall₂ (classEntries_shown members).flip h
  exact ⟨e, he, shows⟩

/-- A member that is shown contributes, or an accessor of its name does. -/
theorem exists_contributor {members m} (hm : m ∈ members) (shown : m.isShown members = true) :
    m ∈ contributors members ∨
      m.isAccessor = true ∧ ∃ m' ∈ contributors members, m'.isAccessor = true ∧ m'.group = m.group := by
  have visible : m ∈ members.filter (ClassMember.isShown members) := mem_filter.2 ⟨hm, shown⟩
  cases accessor : m.isAccessor with
  | false =>
    left
    have key : m.accessors?.isNone = true := by rw [ClassMember.accessors?, accessor]; rfl
    have here := mem_filter (p := (·.accessors?.isNone)) |>.2 ⟨visible, key⟩
    rw [← filter_firsts] at here
    exact mem_of_mem_filter here
  | true =>
    right
    have key : m.accessors? = some m.group := by rw [ClassMember.accessors?, accessor]; rfl
    obtain ⟨m', hm', same⟩ := exists_first visible key
    rw [ClassMember.accessors?] at same
    split at same
    case isTrue accessor' => exact ⟨rfl, m', hm', accessor', Option.some.inj same⟩
    case isFalse => cases same

theorem ClassMember.not_isIndex : {m : ClassMember} →
    m.isAccessor = true ∨ m.isOverload = true ∨ m.isImplementation = true → m.isIndex = false
  | ClassMember.mk _ _ _ _ _ (MemberVal.property _), _
  | ClassMember.mk _ _ _ _ _ (MemberVal.function _ _ _), _ => rfl
  | ClassMember.mk _ _ _ _ _ (MemberVal.index _ _ _ _), h => by rcases h with h | h | h <;> cases h

theorem ClassMember.not_isImplementation_of_isOverload : {m : ClassMember} → m.isOverload = true →
    m.isImplementation = false
  | ClassMember.mk _ _ _ _ _ (MemberVal.function _ .method (Func.mk _ _ _ _ _ body)), h => by
    have none : body.toOption.isNone = true := h
    change body.toOption.isSome = false
    simpa using none

section

variable {members : List ClassMember} {others merged : List MemberEntry}
  (all : MergedMembers (classEntries members ++ others) merged)

include all

variable {m : ClassMember}

/-- What a contributor shows is represented. -/
theorem MergedMembers.represented_of_contributor (h : m ∈ contributors members) :
    if m.isIndex then ∃ x ∈ merged, m.Shows x else ∃ x ∈ merged, x.label? = some m.group := by
  obtain ⟨e, he, shows⟩ := exists_of_contributors h
  have represents := all.represents (mem_append_left others he)
  split
  case isTrue index =>
    rcases represents with mem | ⟨g, hg, -⟩
    · exact ⟨e, mem, shows⟩
    · rw [shows.group?_of_isIndex index] at hg
      cases hg
  case isFalse named =>
    have label := shows.label?_eq (eq_false_of_ne_true named)
    rcases represents with mem | ⟨g, hg, x, hx, eq⟩
    · exact ⟨e, mem, label⟩
    · rw [MemberEntry.label?_of_group? hg] at label
      exact ⟨x, hx, eq.trans label⟩

theorem MergedMembers.represented_of_shown (hm : m ∈ members) (shown : m.isShown members = true) :
    if m.isIndex then ∃ x ∈ merged, m.Shows x else ∃ x ∈ merged, x.label? = some m.group := by
  rcases exists_contributor hm shown with mem | ⟨accessor, m', hm', accessor', same⟩
  · exact all.represented_of_contributor mem
  · have other := all.represented_of_contributor hm'
    rw [ClassMember.not_isIndex (.inl accessor'), same] at other
    rw [ClassMember.not_isIndex (.inl accessor)]
    exact other

theorem MergedMembers.represented : Represented members merged := by
  intro m hm constructor
  by_cases shown : m.isShown members = true
  · exact all.represented_of_shown hm shown
  · -- a hidden implementation is represented by its signatures
    obtain ⟨implementation, o, ho, overload, same⟩ :=
      ClassMember.hidden_of_not_isShown constructor shown
    have shown : o.isShown members = true := by
      have plain : o.isConstructor = false := by
        by_contra h
        have name := ClassMember.group_of_isConstructor (eq_true_of_ne_false h)
        rw [ClassMember.isConstructor_of_group implementation (same ▸ name)] at constructor
        cases constructor
      rw [ClassMember.isShown, plain, ClassMember.not_isImplementation_of_isOverload overload]
      rfl
    have other := all.represented_of_shown ho shown
    rw [ClassMember.not_isIndex (.inr (.inl overload)), same] at other
    rw [ClassMember.not_isIndex (.inr (.inr implementation))]
    exact other

end

/-! ### Members that belong together -/

/-- The name of a key that is not computed. -/
def TypeKey.direct? : TypeKey → Option String
  | TypeKey.ident name | TypeKey.str name | TypeKey.num name => some name
  | TypeKey.computed _ => none

/-- **Keys that belong together**: direct keys of one name, computed keys of one text, and a direct
key whose name is the text of a computed one in its brackets. -/
inductive TypeKey.Meets : TypeKey → TypeKey → Prop where
  | direct {k k' : TypeKey} {name} (h : k.direct? = some name) (h' : k'.direct? = some name) :
      Meets k k'
  | computed {e e'} (h : Expr.text e = Expr.text e') : Meets (.computed e) (.computed e')
  | bracketed {k : TypeKey} {e} (h : k.direct? = some ("[" ++ Expr.text e ++ "]")) :
      Meets k (.computed e)
  | brackets {k : TypeKey} {e} (h : k.direct? = some ("[" ++ Expr.text e ++ "]")) :
      Meets (.computed e) k

theorem TypeKey.direct_or_computed : (k : TypeKey) →
    k.direct? = some (TypeKey.group k) ∨ ∃ e, k = .computed e
  | TypeKey.ident _ | TypeKey.str _ | TypeKey.num _ => .inl rfl
  | TypeKey.computed e => .inr ⟨e, rfl⟩

theorem TypeKey.Meets.of_group {k k' : TypeKey} (h : TypeKey.group k = TypeKey.group k') :
    k.Meets k' := by
  rcases k.direct_or_computed with direct | ⟨e, rfl⟩ <;>
    rcases k'.direct_or_computed with direct' | ⟨e', rfl⟩
  · exact .direct direct (direct'.trans (congrArg some h.symm))
  · exact .bracketed (direct.trans (congrArg some h))
  · exact .brackets (direct'.trans (congrArg some h.symm))
  · refine .computed (String.toList_injective ?_)
    simpa [TypeKey.group] using congrArg String.toList h

/-- Methods with one static flag and keys that belong together. -/
inductive MemberEntry.Meets : MemberEntry → MemberEntry → Prop where
  | mk {static site optional typeParams params result site' optional' typeParams' params' result'}
      {k k' : TypeKey} (h : k.Meets k') :
      Meets ⟨static, .method site optional k typeParams params result⟩
        ⟨static, .method site' optional' k' typeParams' params' result'⟩

/-- Class members with one static flag and keys that belong together. -/
def ClassMember.Meets : ClassMember → ClassMember → Prop
  | ClassMember.mk _ form _ key _ _, ClassMember.mk _ form' _ key' _ _ =>
    form.static = form'.static ∧ (MemberKey.toTypeKey key).Meets (MemberKey.toTypeKey key')

theorem MemberEntry.Meets.of_group? {e e' : MemberEntry} {g} (h : e.group? = some g)
    (h' : e'.group? = some g) : e.Meets e' := by
  obtain ⟨_, _, _, _, _, _, _, rfl, rfl⟩ := MemberEntry.method_of_group? h
  obtain ⟨_, _, _, _, _, _, _, rfl, eq⟩ := MemberEntry.method_of_group? h'
  obtain ⟨rfl, same⟩ := Prod.mk.inj eq
  exact .mk (.of_group same)

theorem ClassMember.Meets.of_group : {m m' : ClassMember} → m.group = m'.group → m.Meets m'
  | ClassMember.mk _ _ _ _ _ _, ClassMember.mk _ _ _ _ _ _, h =>
    have ⟨static, same⟩ := Prod.mk.inj h
    ⟨static, .of_group same⟩

/-- **Only members that meet are grouped.**  What stands for several methods stands for methods that
meet each other.  A class member without an entry is a constructor, a method hidden by a signature
that it meets, or an accessor that meets an accessor with one. -/
theorem grouped_members_meet (entries : List MemberEntry) (members : List ClassMember) :
    (∀ m ∈ mergeOverloads entries, m ∈ entries ∨ ∃ group, group.Sublist entries ∧
      Overloaded group m ∧ ∀ e ∈ group, ∀ e' ∈ group, e.Meets e') ∧
    ∀ m ∈ members, m ∈ contributors members ∨ m.isConstructor = true ∨
      (m.isImplementation = true ∧ ∃ o ∈ members, o.isOverload = true ∧ o.Meets m) ∨
      m.isAccessor = true ∧ ∃ m' ∈ contributors members, m'.isAccessor = true ∧ m'.Meets m := by
  refine ⟨fun m hm => ?_, fun m hm => ?_⟩
  · obtain ⟨e, he, represents⟩ :=
      exists_of_forall₂ (mergedMembers_mergeOverloads entries).slots hm
    have he := (firsts_sublist _ _).subset he
    cases represents with
    | several h others merged =>
      refine .inr ⟨_, filter_sublist, merged, fun e he e' he' => ?_⟩
      exact .of_group? (mem_groupOf.1 he).2 (mem_groupOf.1 he').2
    | _ => exact .inl he
  · by_cases shown : m.isShown members = true
    · rcases exists_contributor hm shown with mem | ⟨accessor, m', hm', accessor', same⟩
      · exact .inl mem
      · exact .inr (.inr (.inr ⟨accessor, m', hm', accessor', .of_group same⟩))
    · cases constructor : m.isConstructor with
      | true => exact .inr (.inl rfl)
      | false =>
        obtain ⟨implementation, o, ho, overload, same⟩ :=
          ClassMember.hidden_of_not_isShown constructor shown
        exact .inr (.inr (.inl ⟨implementation, o, ho, overload, .of_group same⟩))

/-- `"[x]"()` and `[x]()` count as overloads of one method. -/
theorem bracketed_name_merged :
    let method (key : TypeKey) : MemberEntry :=
      .ofMember (.method {} false key .absent (.ofList []) .absent)
    (mergeOverloads [method (.str "[x]"), method (.computed (Synthetic.ident {} "x"))]).length = 1 := by
  decide +kernel

/-! ### Reflections -/

namespace Scope

open Reflection

variable {s : Scope} {loc : Loc} {decl : ClassDecl} {merged : List TypeMember}

/-- The parts of a class: its heritage, if it has one, and the reflections of its entries in
order. -/
def SaysParts (s : Scope) (bound : List String) (loc : Loc) (entries : List MemberEntry)
    (parts : List Expr) : Prop :=
  ∃ heritage members, parts = heritage ++ members ∧
    (heritage = [] ∨ ∃ args, heritage = [s.libraryCall loc "extends" args]) ∧
    Forall₂ (fun entry e => member s s.reflectUnder bound entry = .ok e) entries members

/-- **The reflection of a class with the given parts.**  They stand in a factory exactly if the class
has type parameters, and the factory binds these. -/
inductive SaysClass (s : Scope) (loc : Loc) (decl : ClassDecl) (parts : List Expr) : Expr → Prop where
  | plain (none : decl.typeParams = []) : SaysClass s loc decl parts
      (s.libraryCall loc "class" (Synthetic.str loc (decl.name?.getD "default") :: parts))
  | generic {args : List (List Expr)} (some : decl.typeParams ≠ [])
      (length : args.length = decl.typeParams.length) : SaysClass s loc decl parts
      (s.libraryCall loc "class" [Synthetic.str loc (decl.name?.getD "default"),
        Synthetic.arrow loc [s.options.localName (decl.name?.getD "default")] (.block (.ofList
          (List.zipWith (paramConst (s.options.localName (decl.name?.getD "default"))) decl.typeParams
            args ++ [Synthetic.returnStmt loc (Synthetic.array loc parts)])))])

theorem saysParts_of_classParts {bound parts} (h : s.classParts bound loc decl merged = .ok parts) :
    s.SaysParts bound loc (mergeOverloads (classEntries decl.memberList ++
      merged.map MemberEntry.ofMember)) parts := by
  match decl, h with
  | ClassDecl.mk _ _ _ _ _ base baseArgs _ members, h =>
    rw [classParts_eq rfl] at h
    obtain ⟨heritage, hh, h⟩ := bind_eq_ok.1 h
    obtain ⟨es, hes, rfl⟩ := bind_pure_eq_ok.1 h
    refine ⟨heritage, es, rfl, ?_, mapM_eq_ok.1 hes⟩
    cases hb : base.toOption with
    | none =>
      rw [hb] at hh
      exact .inl (pure_eq_ok.1 hh).symm
    | _ =>
      rw [hb] at hh
      cases mapM_eq_ok.1 hh with
      | cons head rest =>
        cases rest
        obtain ⟨args, -, rfl⟩ := bind_pure_eq_ok.1 head
        exact .inr ⟨_, rfl⟩

theorem saysClass_of_reflectClass {e} (h : s.reflectClass loc decl merged = .ok e) :
    ∃ parts, s.SaysParts (bindParams [] decl.typeParams) loc (mergeOverloads
      (classEntries decl.memberList ++ merged.map MemberEntry.ofMember)) parts ∧
      s.SaysClass loc decl parts e := by
  match decl, h with
  | ClassDecl.mk mark form decorators name typeParams base baseArgs implemented members, h =>
    rw [reflectClass_eq rfl] at h
    dsimp only at h
    split at h
    case isTrue none =>
      obtain ⟨parts, hp, rfl⟩ := bind_pure_eq_ok.1 h
      have none : typeParams.toLists = [] := List.isEmpty_iff.1 none
      refine ⟨parts, ?_, .plain none⟩
      rw [ClassDecl.typeParams, none]
      exact saysParts_of_classParts hp
    case isFalse some =>
      obtain ⟨body, hb, rfl⟩ := bind_pure_eq_ok.1 h
      obtain ⟨⟨stmts, after⟩, hs, hb⟩ := bind_eq_ok.1 hb
      obtain ⟨value, hv, rfl⟩ := bind_pure_eq_ok.1 hb
      obtain ⟨parts, hparts, rfl⟩ := bind_pure_eq_ok.1 hv
      obtain ⟨rfl, args, rfl, length, -⟩ := (builds_reflectUnder (P := fun _ _ => True) s).typeParamConsts
        (fun p _ => p.everywhere_true) hs
      exact ⟨parts, saysParts_of_classParts hparts, .generic (mt List.isEmpty_iff.2 some) length⟩

/-- **The reflection of a class shows every member once.** -/
theorem reflectClass_members {e : Expr} (h : s.reflectClass loc decl merged = .ok e) :
    ∃ entries, List.Forall₂ ClassMember.Shows (contributors decl.memberList) entries ∧
      let all := mergeOverloads (entries ++ merged.map MemberEntry.ofMember)
      Represented decl.memberList all ∧ (all.filterMap MemberEntry.group?).Nodup ∧
      ∃ parts, s.SaysParts (bindParams [] decl.typeParams) loc all parts ∧
        s.SaysClass loc decl parts e := by
  have all := mergedMembers_mergeOverloads
    (classEntries decl.memberList ++ merged.map MemberEntry.ofMember)
  exact ⟨_, classEntries_shown decl.memberList, all.represented, all.once,
    saysClass_of_reflectClass h⟩

/-- `class C<T> { constructor() {} m(x: T): void; m(x: string): void; m(x) {} static m() {}
get p(): T {} set p(x) {} [k: string]: T }` -/
def manifold : ClassDecl :=
  let param (type : Maybe .type) : Param :=
    .mk {} default (.ofList []) (Binding.mk {} (Pat.ident {} "x")) type .absent
  let func (params : List Param) (result : Maybe .type) (body : Maybe .funcBody) : Func :=
    .mk {} default .absent (.ofList params) result body
  let block : Maybe .funcBody := .present (FuncBody.block (.ofList []))
  let member (static : Bool) (name : String) (kind : MethodKind) (f : Func) : ClassMember :=
    .mk {} { (default : ClassMemberForm) with static } (.ofList []) (MemberKey.direct {} name) .absent
      (MemberVal.function {} kind f)
  let t : TypeExpr := .reference {} (.ident "T") .absent
  let string : TypeExpr := .keyword {} .string
  let void : TypeExpr := .keyword {} .void
  .mk {} default (.ofList []) (.present (Name.mk {} "C"))
    (.present (.ofList [TypeParam.mk {} "T" .absent .absent])) .absent .absent (.ofList []) (.ofList [
      member false "constructor" .method (func [] .absent block),
      member false "m" .method (func [param (.present t)] (.present void) .absent),
      member false "m" .method (func [param (.present string)] (.present void) .absent),
      member false "m" .method (func [param .absent] .absent block),
      member true "m" .method (func [] .absent block),
      member false "p" .getter (func [] (.present t) block),
      member false "p" .setter (func [param .absent] .absent block),
      ClassMember.mk {} default (.ofList []) (MemberKey.direct {} "") .absent
        (MemberVal.index {} "k" string t)])

/-- A class with overloads, accessors and an index signature, and an interface with another
overload. -/
theorem reflectClass_members_manifold :
    let merged : List TypeMember :=
      [.method {} false (.ident "m") .absent (.ofList []) (.present (TypeExpr.keyword {} .null))]
    ∃ e entries, ({} : Scope).reflectClass {} manifold merged = .ok e ∧
      List.Forall₂ ClassMember.Shows (contributors manifold.memberList) entries ∧
      let all := mergeOverloads (entries ++ merged.map MemberEntry.ofMember)
      Represented manifold.memberList all ∧ (all.filterMap MemberEntry.group?).Nodup ∧
      ∃ parts, ({} : Scope).SaysParts (bindParams [] manifold.typeParams) {} all parts ∧
        ({} : Scope).SaysClass {} manifold parts e := by
  intro merged
  obtain ⟨e, he⟩ : ∃ e, ({} : Scope).reflectClass {} manifold merged = .ok e := ⟨_, rfl⟩
  obtain ⟨entries, h⟩ := reflectClass_members he
  exact ⟨e, entries, he, h⟩

end Scope

end Reify
