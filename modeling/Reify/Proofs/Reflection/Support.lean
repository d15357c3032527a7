import Reify.Proofs.Reflection.Overload
import Reify.Proofs.Reflection.Reference
import Reify.Proofs.Syntax.Everywhere

/-!
# Which types have reflections

Some kinds of types have no value at run time.  A type has no reflection exactly if reflecting it
asks for a type of such a kind, and the failure then names one of those (`Scope.reflectUnder_fails`).

Failures come from parts: `Reflection.Fails` says of each maker that it fails only with a part.  The
recursion of reflection is bounded by the height of the type.  The parts are lower than the whole
(`Request.Part.height_lt`) although the unions that overloads are merged into are no subtrees of it:
the types in a union stand deep enough in the members that it is made from.
-/

namespace Reify

open List Tree Option

/-! ### Kinds -/

/-- Whether types of a form have a value at run time. -/
def TypeForm.isReflectable : TypeForm → Bool
  | operator _ | indexed | conditional | infer _ | mapped _ | predicate _ _ => false
  | _ => true

/-- Whether a type is of a kind that has a value at run time, whatever its parts are. -/
def TypeExpr.isReflectable (t : TypeExpr) : Bool := TypeForm.isReflectable t.form

/-! ### Failures -/

variable {params typeParams : List TypeParam} {result : Option TypeExpr}
  {entries : List MemberEntry} {p : List String × TypeExpr} {e : MemberEntry} {n : Nat}
  {q : Request}

namespace Reflection

variable {t : TypeExpr}

section

variable {s : Scope} {reflect : Reflector} {bound : List String} {loc : Loc} {u : Unsupported}

/-- A type parameter in reach has an expression. -/
theorem typeParam?_isSome {name} (h : isParam s.generics bound name = true) :
    (name.ident?.bind (typeParam? s bound loc)).isSome = true := by
  cases hn : name.ident? with
  | none =>
    rw [isParam, hn] at h
    cases h
  | some x =>
    rw [isParam, hn, any_some, Bool.or_eq_true] at h
    change (typeParam? s bound loc x).isSome = true
    rw [typeParam?]
    split
    · rfl
    · rw [isSome_map, Scope.access?, isSome_map, find?_isSome]
      exact any_eq_true.1 (h.resolve_left ‹_›)

/-- A step of reflection fails at types that have no value at run time. -/
theorem step_unsupported (h : TypeExpr.isReflectable t = false) :
    step s reflect bound t = .error ⟨TypeExpr.kindName t, TypeExpr.loc t⟩ := by
  match t, h with
  | TypeExpr.operator _ _ _, _ | TypeExpr.indexed _ _ _, _ | TypeExpr.conditional _ _ _ _ _, _
  | TypeExpr.infer _ _ _, _ | TypeExpr.mapped _ _ _ _, _ | TypeExpr.predicate _ _ _ _, _ => rfl

/-- Otherwise it fails with a part. -/
theorem step_fails (h : step s reflect bound t = .error u) :
    TypeExpr.isReflectable t = false ∧ u = ⟨TypeExpr.kindName t, TypeExpr.loc t⟩ ∨
      ∃ q, Request.Part ⟨s.generics, bound, t⟩ q ∧ q.generics = s.generics ∧
        reflect q.bound q.type = .error u := by
  have part {parts : Parts} (failed : Fails reflect parts u)
      (hq : ∀ p ∈ parts, Request.Part ⟨s.generics, bound, t⟩ ⟨s.generics, p.1, p.2⟩) :
      ∃ q, Request.Part ⟨s.generics, bound, t⟩ q ∧ q.generics = s.generics ∧
        reflect q.bound q.type = .error u := by
    obtain ⟨p, hp, failed⟩ := failed
    exact ⟨_, hq p hp, rfl, failed⟩
  match t with
  | TypeExpr.paren _ t => exact .inr ⟨_, .paren, rfl, h⟩
  | TypeExpr.keyword _ _ | TypeExpr.literal _ _ | TypeExpr.query _ _ => cases h
  | TypeExpr.array _ _ elem =>
    exact .inr ⟨_, .array, rfl, bind_pure_eq_error.1 h⟩
  | TypeExpr.tuple _ _ types =>
    obtain ⟨t, ht, failed⟩ := exists_of_mapM_error (bind_pure_eq_error.1 h)
    exact .inr ⟨_, .tuple ht, rfl, failed⟩
  | TypeExpr.union _ types =>
    obtain ⟨t, ht, failed⟩ := exists_of_mapM_error (bind_pure_eq_error.1 h)
    exact .inr ⟨_, .union ht, rfl, failed⟩
  | TypeExpr.intersection _ types =>
    obtain ⟨t, ht, failed⟩ := exists_of_mapM_error (bind_pure_eq_error.1 h)
    exact .inr ⟨_, .intersection ht, rfl, failed⟩
  | TypeExpr.reference site name args =>
    change reference s reflect bound site.loc name args.toLists = _ at h
    by_cases hn : isParam s.generics bound name = true
    · obtain ⟨e, he⟩ := isSome_iff_exists.1 (@typeParam?_isSome s bound site.loc _ hn)
      rw [reference, he] at h
      cases h
    · rw [Bool.not_eq_true] at hn
      rw [reference, typeParam?_eq_none hn] at h
      rcases bind_eq_error.1 h with h | ⟨es, -, h⟩
      · obtain ⟨t, ht, failed⟩ := exists_of_mapM_error h
        exact .inr ⟨_, .argument hn ht, rfl, failed⟩
      · split at h <;> cases h
  | TypeExpr.func _ _ _ _ =>
    exact .inr (part ((draws_function _ _).fails (bind_pure_eq_error.1 h)) fun _ => .func)
  | TypeExpr.construct _ _ _ _ _ =>
    exact .inr (part ((draws_function _ _).fails (bind_pure_eq_error.1 h)) fun _ => .construct)
  | TypeExpr.object _ _ =>
    exact .inr (part ((draws_members _).fails (bind_pure_eq_error.1 h)) fun _ => .object)
  | TypeExpr.operator _ _ _ | TypeExpr.indexed _ _ _ | TypeExpr.conditional _ _ _ _ _
  | TypeExpr.infer _ _ _ | TypeExpr.mapped _ _ _ _ | TypeExpr.predicate _ _ _ _ =>
    exact .inl ⟨rfl, (Except.error.inj h).symm⟩

end

end Reflection

/-! ### Merged types -/

/-- The bound of a type parameter. -/
def TypeParam.constraint? : TypeParam → Option TypeExpr
  | TypeParam.mk _ _ constraint _ => constraint.toOption

namespace MemberEntry

/-- The types that a function type is made of. -/
def functionTypes (typeParams : List TypeParam) (params : List SigParam)
    (result : Option TypeExpr) : List TypeExpr :=
  typeParams.filterMap TypeParam.constraint? ++ (params.filterMap SigParam.type? ++ result.toList)

/-- The types that a member is made of. -/
def types (e : MemberEntry) : List TypeExpr :=
  match e.member with
  | TypeMember.property _ _ _ _ type => type.toOption.toList
  | TypeMember.method _ _ _ typeParams params result
  | TypeMember.call _ typeParams params result
  | TypeMember.construct _ typeParams params result =>
    functionTypes typeParams.toLists params.toList result.toOption
  | TypeMember.index _ _ _ key value => [key, value]

end MemberEntry

/-- A type of a list, or a union of such types, where one that is left out counts as `any`. -/
inductive Merged (types : List TypeExpr) : TypeExpr → Prop where
  | same {t : TypeExpr} (h : t ∈ types) : Merged types t
  | union (loc : Loc) {ts : List TypeExpr} (h : ∀ t ∈ ts, t ∈ types ∨ t = Synthetic.any loc) :
      Merged types (.union (.synthetic loc) (.ofList ts))

theorem Merged.mono {types types' t} (h : Merged types t) (sub : types ⊆ types') :
    Merged types' t := by
  cases h with
  | same h => exact .same (sub h)
  | union loc h => exact .union loc fun t ht => (h t ht).imp_left (sub ·)

theorem merged_unionOf {loc types t} (h : unionOf loc types = some t) :
    Merged (types.filterMap id) t := by
  have among : ∀ t ∈ distinctTypes [] types, t ∈ types := fun _ => mem_of_mem_distinctTypes
  rw [unionOf] at h
  split at h
  case h_1 => cases h
  case h_2 t' single =>
    subst h
    exact .same (mem_filterMap.2 ⟨_, among _ (single ▸ mem_singleton_self _), rfl⟩)
  case h_3 =>
    obtain rfl := Option.some.inj h
    refine .union loc fun t ht => ?_
    obtain ⟨t', ht', rfl⟩ := mem_map.1 ht
    cases t' with
    | none => exact .inr rfl
    | some t' => exact .inl (mem_filterMap.2 ⟨_, among _ ht', rfl⟩)

/-- The parameters of merged signatures have types that are merged from those of the signatures. -/
theorem merged_mergeParams {sigs p t} (hp : p ∈ mergeParams sigs) (ht : SigParam.type? p = some t) :
    Merged (sigs.flatMap (·.params.filterMap SigParam.type?)) t := by
  obtain ⟨i, -, hi⟩ := mem_filterMap.1 hp
  obtain ⟨first, -, rfl⟩ := map_eq_some_iff.1 hi
  match first, ht with
  | SigParam.mk mark form _, ht =>
    rw [SigParam.withUnion, SigParam.type?, toOption_ofOption] at ht
    refine (merged_unionOf ht).mono fun t ht => ?_
    obtain ⟨_, ht, rfl⟩ := mem_filterMap.1 ht
    obtain ⟨param, hparam, ht⟩ := mem_map.1 ht
    obtain ⟨sig, hsig, at_i⟩ := mem_filterMap.1 hparam
    exact mem_flatMap.2 ⟨sig, hsig,
      mem_filterMap.2 ⟨param, mem_of_getElem? at_i, ht⟩⟩

theorem mem_constraints_of_typeParamParts {bound} (h : p ∈ Reflection.typeParamParts bound params) :
    p.2 ∈ params.filterMap TypeParam.constraint? := by
  induction params generalizing bound with
  | nil => cases h
  | cons param params ih =>
    match param, h with
    | TypeParam.mk mark name constraint default, h =>
      rcases mem_append.1 h with h | h
      · obtain ⟨t, ht, rfl⟩ := mem_map.1 h
        exact mem_filterMap.2 ⟨_, mem_cons_self, mem_toList.1 ht⟩
      · obtain ⟨param, hparam, ht⟩ := mem_filterMap.1 (ih h)
        exact mem_filterMap.2 ⟨param, mem_cons_of_mem _ hparam, ht⟩

theorem mem_functionTypes_of_parts {bound params}
    (h : p ∈ Reflection.functionParts bound typeParams params result) :
    p.2 ∈ MemberEntry.functionTypes typeParams params result := by
  rcases mem_append.1 h with h | h
  · exact mem_append_left _ (mem_constraints_of_typeParamParts h)
  · obtain ⟨t, ht, rfl⟩ := mem_map.1 h
    exact mem_append_right _ ht

theorem mem_types_of_memberParts {bound} (h : p ∈ Reflection.memberParts bound e) :
    p.2 ∈ e.types := by
  match e, h with
  | ⟨_, TypeMember.property _ _ _ _ _⟩, h =>
    obtain ⟨t, ht, rfl⟩ := mem_map.1 h
    exact ht
  | ⟨_, TypeMember.method _ _ _ _ _ _⟩, h
  | ⟨_, TypeMember.call _ _ _ _⟩, h
  | ⟨_, TypeMember.construct _ _ _ _⟩, h => exact mem_functionTypes_of_parts h
  | ⟨_, TypeMember.index _ _ _ _ _⟩, h =>
    obtain ⟨t, ht, rfl⟩ := mem_map.1 (show p ∈ [_, _].map (bound, ·) from h)
    exact ht

theorem MemberEntry.types_of_sig {sig} (h : e.sig? = some sig) :
    sig.params.filterMap SigParam.type? ++ sig.result.toList ⊆ e.types := by
  match e, h with
  | ⟨_, TypeMember.method _ _ _ _ _ _⟩, h =>
    obtain rfl := Option.some.inj h
    exact subset_append_right _ _

/-- A member that overloads are merged into is made of types that are merged from theirs. -/
theorem merged_mergeGroup {first group} (hf : first ∈ group) {bound}
    (h : p ∈ Reflection.memberParts bound (mergeGroup first group)) :
    Merged (group.flatMap MemberEntry.types) p.2 := by
  have unmerged (h : p ∈ Reflection.memberParts bound first) :
      Merged (group.flatMap MemberEntry.types) p.2 :=
    .same (mem_flatMap.2 ⟨first, hf, mem_types_of_memberParts h⟩)
  match first, group with
  | ⟨_, TypeMember.property _ _ _ _ _⟩, _ | ⟨_, TypeMember.call _ _ _ _⟩, _
  | ⟨_, TypeMember.construct _ _ _ _⟩, _ | ⟨_, TypeMember.index _ _ _ _ _⟩, _
  | ⟨_, TypeMember.method _ _ _ _ _ _⟩, [] | ⟨_, TypeMember.method _ _ _ _ _ _⟩, [_] =>
    exact unmerged h
  | ⟨static, TypeMember.method site optional key typeParams params result⟩, e :: e' :: rest =>
    have sigs {t : TypeExpr} (ht : t ∈ ((e :: e' :: rest).filterMap MemberEntry.sig?).flatMap
        fun sig => sig.params.filterMap SigParam.type? ++ sig.result.toList) :
        t ∈ (e :: e' :: rest).flatMap MemberEntry.types := by
      obtain ⟨sig, hsig, ht⟩ := mem_flatMap.1 ht
      obtain ⟨d, hd, hsig⟩ := mem_filterMap.1 hsig
      exact mem_flatMap.2 ⟨d, hd, MemberEntry.types_of_sig hsig ht⟩
    rcases mem_append.1 h with h | h
    · -- the type parameters are those of the first signature
      exact .same (mem_flatMap.2
        ⟨_, hf, mem_append_left _ (mem_constraints_of_typeParamParts h)⟩)
    · obtain ⟨t, ht, rfl⟩ := mem_map.1 h
      rw [toList_ofList, toOption_ofOption] at ht
      rcases mem_append.1 ht with ht | ht
      · obtain ⟨param, hparam, ht⟩ := mem_filterMap.1 ht
        refine (merged_mergeParams hparam ht).mono fun t ht => sigs ?_
        obtain ⟨sig, hsig, ht⟩ := mem_flatMap.1 ht
        exact mem_flatMap.2 ⟨sig, hsig, mem_append_left _ ht⟩
      · refine (merged_unionOf (mem_toList.1 ht)).mono fun t ht => sigs ?_
        obtain ⟨_, ht, rfl⟩ := mem_filterMap.1 ht
        obtain ⟨sig, hsig, ht⟩ := mem_map.1 ht
        exact mem_flatMap.2 ⟨sig, hsig, mem_append_right _ (mem_toList.2 ht)⟩

/-- The parts of a member list are merged from the types that stand in it. -/
theorem merged_membersParts {bound} (h : p ∈ Reflection.membersParts bound entries) :
    Merged (entries.flatMap MemberEntry.types) p.2 := by
  obtain ⟨merged, hmerged, hp⟩ := mem_flatMap.1 h
  obtain ⟨e, he, rfl⟩ := mem_map.1 hmerged
  have entry : e ∈ entries := mem_of_mem_firstEntries he
  split at hp
  case h_1 => exact .same (mem_flatMap.2 ⟨e, entry, mem_types_of_memberParts hp⟩)
  case h_2 g hg =>
    have first : e ∈ entries.filter (·.group? == some g) := mem_filter.2 ⟨entry, by simp [hg]⟩
    refine (merged_mergeGroup first hp).mono fun t ht => ?_
    obtain ⟨d, hd, ht⟩ := mem_flatMap.1 ht
    exact mem_flatMap.2 ⟨d, mem_of_mem_filter hd, ht⟩

/-! ### Heights -/

/-- The heights of some trees. -/
def Children.heights {cs : List Category} (ts : Children cs) : List Nat :=
  (ts.fold (X := fun _ => Nat) fun _ _ _ rs => rs.values.foldl max 0 + 1).values

section

variable {c : Category}

@[simp] theorem Children.heights_cons {cs} (t : Tree c) (ts : Children cs) :
    (Children.cons t ts).heights = t.height :: ts.heights := rfl

theorem Children.heights_ofList (ts : List (Tree c)) :
    (Children.ofList ts).heights = ts.map Tree.height := by
  induction ts with
  | nil => rfl
  | cons t ts ih =>
    rw [map_cons, ← ih]
    rfl

/-- A part is lower than the whole. -/
theorem Tree.lt_height_node {form : Form c} {marks ts h} (hm : h ∈ ts.heights) :
    h < (Tree.node form marks ts).height :=
  Nat.lt_succ_of_le ((le_foldl_max _ 0).2 h hm)

theorem Tree.height_pos (t : Tree c) : 0 < t.height := by
  match t with
  | .node _ _ _ => exact Nat.succ_pos _

theorem Tree.height_lt_of_mem_toList {t : Many c} {u} (h : u ∈ t.toList) : u.height < t.height := by
  rw [← ofList_toList t]
  refine lt_height_node ?_
  rw [Children.heights_ofList]
  exact mem_map_of_mem h

theorem Tree.height_lt_of_toOption {t : Maybe c} {u} (h : t.toOption = some u) :
    u.height < t.height := by
  match t, h with
  | .present v, h =>
    obtain rfl := Option.some.inj h
    exact lt_height_node (mem_singleton_self v.height)

theorem Tree.height_lt_of_mem_toLists {t : Maybe (.many c)} {u} (h : u ∈ t.toLists) :
    u.height < t.height := by
  match t, h with
  | .present us, h =>
    exact Nat.lt_trans (height_lt_of_mem_toList h)
      (lt_height_node (mem_singleton_self us.height))

theorem foldl_max_le {xs : List Nat} {m} (hn : n ≤ m) (h : ∀ x ∈ xs, x ≤ m) :
    xs.foldl max n ≤ m := by
  induction xs generalizing n with
  | nil => exact hn
  | cons x xs ih =>
    exact ih (Nat.max_le.2 ⟨hn, h x mem_cons_self⟩) fun y hy => h y (mem_cons_of_mem _ hy)

variable {t : TypeExpr}

/-- A merged type is at most two levels higher than the types it is merged from. -/
theorem Merged.height_le {types} (h : Merged types t) (low : ∀ t ∈ types, t.height ≤ n)
    (pos : 0 < n) : t.height ≤ n + 2 := by
  cases h with
  | same h => exact Nat.le_add_right_of_le (low t h)
  | @union loc ts h =>
    have members : (Tree.ofList ts).height ≤ n + 1 := by
      refine Nat.succ_le_succ (foldl_max_le (Nat.zero_le _) fun m hm => ?_)
      change m ∈ (Children.ofList ts).heights at hm
      rw [Children.heights_ofList] at hm
      obtain ⟨u, hu, rfl⟩ := mem_map.1 hm
      rcases h u hu with hu | rfl
      · exact low u hu
      · exact pos
    have whole : (TypeExpr.union (.synthetic loc) (.ofList ts)).height =
      max 0 (Tree.ofList ts).height + 1 := rfl
    omega

theorem height_lt_of_mem_functionTypes {typeParams : Maybe (.many .typeParam)}
    {params : Many .sigParam} (hp : typeParams.height ≤ n) (hs : params.height ≤ n)
    (hr : ∀ t ∈ result, t.height < n)
    (h : t ∈ MemberEntry.functionTypes typeParams.toLists params.toList result) : t.height < n := by
  rcases mem_append.1 h with h | h
  · obtain ⟨param, hparam, ht⟩ := mem_filterMap.1 h
    have lower := height_lt_of_mem_toLists hparam
    match param, ht with
    | TypeParam.mk mark name constraint default, ht =>
      have part := height_lt_of_toOption ht
      have whole : (TypeParam.mk mark name constraint default).height =
        max (max 0 constraint.height) default.height + 1 := rfl
      omega
  · rcases mem_append.1 h with h | h
    · obtain ⟨param, hparam, ht⟩ := mem_filterMap.1 h
      have lower := height_lt_of_mem_toList hparam
      match param, ht with
      | SigParam.mk mark form type, ht =>
        have part := height_lt_of_toOption ht
        have whole : (SigParam.mk mark form type).height = max 0 type.height + 1 := rfl
        omega
    · exact hr t (mem_toList.1 h)

/-- The types of a member are lower than the member. -/
theorem MemberEntry.height_lt_of_mem_types (h : t ∈ e.types) : t.height < e.member.height := by
  match e, h with
  | ⟨_, TypeMember.property _ _ _ _ _⟩, h =>
    refine Nat.lt_trans (height_lt_of_toOption (mem_toList.1 h)) ?_
    exact lt_height_node (mem_cons_of_mem _ mem_cons_self)
  | ⟨_, TypeMember.method _ _ _ _ _ _⟩, h
  | ⟨_, TypeMember.call _ _ _ _⟩, h
  | ⟨_, TypeMember.construct _ _ _ _⟩, h =>
    refine height_lt_of_mem_functionTypes (Nat.le_of_lt ?_) (Nat.le_of_lt ?_) (fun t ht =>
      Nat.lt_trans (height_lt_of_toOption ht) ?_) h
    all_goals exact lt_height_node (by simp)
  | ⟨_, TypeMember.index _ _ _ key value⟩, h =>
    exact lt_height_node (mem_map_of_mem (f := Tree.height) h)

theorem TypeMember.one_lt_height (m : TypeMember) : 1 < m.height := by
  match m with
  | TypeMember.property _ _ _ key _ | TypeMember.method _ _ key _ _ _
  | TypeMember.call _ key _ _ | TypeMember.construct _ key _ _ | TypeMember.index _ _ _ key _ =>
    exact Nat.lt_of_le_of_lt key.height_pos (lt_height_node mem_cons_self)

/-- The types in the members of an object type are three levels lower. -/
theorem height_of_mem_members {members : Many .typeMember}
    (h : t ∈ (members.toList.map MemberEntry.ofMember).flatMap MemberEntry.types) :
    t.height + 2 ≤ members.height := by
  obtain ⟨_, he, ht⟩ := mem_flatMap.1 h
  obtain ⟨m, hm, rfl⟩ := mem_map.1 he
  have lower := MemberEntry.height_lt_of_mem_types ht
  have part := height_lt_of_mem_toList hm
  change t.height < m.height at lower
  omega

end

namespace Request

/-- **Parts are lower than the whole.** -/
theorem Part.height_lt {q'} (h : Part q q') : q'.type.height < q.type.height := by
  cases h with
  | paren | array => exact lt_height_node (mem_singleton_self _)
  | tuple h | union h | intersection h =>
    exact Nat.lt_trans (height_lt_of_mem_toList h)
      (lt_height_node (mem_singleton_self _))
  | argument _ h =>
    exact Nat.lt_trans (height_lt_of_mem_toLists h)
      (lt_height_node (mem_singleton_self _))
  | @func _ _ _ typeParams params result _ _ h | @construct _ _ _ _ typeParams params result _ _ h =>
    refine height_lt_of_mem_functionTypes (Nat.le_of_lt ?_) (Nat.le_of_lt ?_) ?_
      (mem_functionTypes_of_parts h)
    · exact lt_height_node (by simp)
    · exact lt_height_node (by simp)
    · rintro _ ⟨⟩
      exact lt_height_node (by simp)
  | @object _ _ site members _ t h =>
    have whole : (TypeExpr.object site members).height = max 0 members.height + 1 := rfl
    -- an object type with a part has a member
    obtain ⟨merged, hmerged, -⟩ := mem_flatMap.1 h
    obtain ⟨_, he, -⟩ := mem_map.1 hmerged
    obtain ⟨m, hm, -⟩ := mem_map.1 (mem_of_mem_firstEntries he)
    have member := height_lt_of_mem_toList hm
    have nested := TypeMember.one_lt_height m
    have low := (merged_membersParts h).height_le (n := members.height - 2)
      (fun t ht => Nat.le_sub_of_add_le (height_of_mem_members ht)) (by omega)
    change t.height ≤ _ at low
    change t.height < (TypeExpr.object site members).height
    omega

end Request

/-! ### Reflections -/

namespace Scope

variable {s : Scope} {bound : List String} {t : TypeExpr} {u : Unsupported}

/-- **Failures.**  Where a type has no reflection, the failure names a type on the way that has no
value at run time. -/
theorem exists_of_fails {fuel} (low : t.height ≤ fuel)
    (h : s.reflectWithin fuel bound t = .error u) :
    ∃ q, Request.Asks ⟨s.generics, bound, t⟩ q ∧ TypeExpr.isReflectable q.type = false ∧
      u = ⟨TypeExpr.kindName q.type, TypeExpr.loc q.type⟩ := by
  induction fuel generalizing bound t with
  | zero => exact absurd (Nat.lt_of_lt_of_le t.height_pos low) (Nat.lt_irrefl 0)
  | succ fuel ih =>
    rcases Reflection.step_fails h with ⟨kind, rfl⟩ | ⟨⟨gs, bound', t'⟩, part, rfl, failed⟩
    · exact ⟨_, .refl, kind, rfl⟩
    · have lower : t'.height < t.height := part.height_lt
      obtain ⟨q, asked, kind, same⟩ := ih (Nat.le_of_lt_succ (Nat.lt_of_lt_of_le lower low)) failed
      exact ⟨q, .head part asked, kind, same⟩

end Scope

/-- A type that has no value at run time has no reflection. -/
theorem Request.not_reflects {s e} (h : TypeExpr.isReflectable q.type = false) :
    ¬ q.Reflects s e := by
  intro answer
  obtain ⟨fuel, answer⟩ := answer.step
  rw [Reflection.step_unsupported h] at answer
  cases answer

/-! ### Types without failures -/

/-- Whether a tree is no type of a kind that has no value at run time. -/
def Tree.Reflectable : (c : Category) → Tree c → Prop
  | .type, t => TypeExpr.isReflectable t = true
  | _, _ => True

section

variable {P : (c : Category) → Tree c → Prop} {t : TypeExpr}

theorem everywhere_of_mem_functionTypes {typeParams : Maybe (.many .typeParam)}
    {params : Many .sigParam} (hp : typeParams.Everywhere P) (hs : params.Everywhere P)
    (hr : ∀ t ∈ result, t.Everywhere P)
    (h : t ∈ MemberEntry.functionTypes typeParams.toLists params.toList result) :
    t.Everywhere P := by
  rcases mem_append.1 h with h | h
  · obtain ⟨param, hparam, ht⟩ := mem_filterMap.1 h
    have inside := hp.toLists param hparam
    match param, inside, ht with
    | TypeParam.mk _ _ _ _, inside, ht =>
      exact inside.2.1.toOption t ht
  · rcases mem_append.1 h with h | h
    · obtain ⟨param, hparam, ht⟩ := mem_filterMap.1 h
      have inside := hs.toList param hparam
      match param, inside, ht with
      | SigParam.mk _ _ _, inside, ht =>
        exact inside.2.1.toOption t ht
    · exact hr t (mem_toList.1 h)

theorem everywhere_of_mem_types (h : t ∈ e.types) (he : e.member.Everywhere P) :
    t.Everywhere P := by
  match e, h, he with
  | ⟨_, TypeMember.property _ _ _ _ _⟩, h, he =>
    have parts := he.parts
    simp only [Children.everywhere_cons] at parts
    exact parts.2.1.toOption t (mem_toList.1 h)
  | ⟨_, TypeMember.method _ _ _ _ _ _⟩, h, he =>
    have parts := he.parts
    simp only [Children.everywhere_cons] at parts
    exact everywhere_of_mem_functionTypes parts.2.1 parts.2.2.1 parts.2.2.2.1.toOption h
  | ⟨_, TypeMember.call _ _ _ _⟩, h, he | ⟨_, TypeMember.construct _ _ _ _⟩, h, he =>
    have parts := he.parts
    simp only [Children.everywhere_cons] at parts
    exact everywhere_of_mem_functionTypes parts.1 parts.2.1 parts.2.2.1.toOption h
  | ⟨_, TypeMember.index _ _ _ _ _⟩, h, he =>
    have parts := he.parts
    simp only [Children.everywhere_cons] at parts
    rcases mem_cons.1 h with rfl | h
    · exact parts.1
    · rw [mem_singleton.1 h]
      exact parts.2.1

end

/-- Unions of reflectable types are reflectable. -/
theorem Merged.reflectable {types t} (h : Merged types t)
    (each : ∀ t ∈ types, t.Everywhere Tree.Reflectable) : t.Everywhere Tree.Reflectable := by
  cases h with
  | same h => exact each t h
  | union loc h =>
    refine everywhere_node.2 ⟨rfl, Children.everywhere_cons.2 ⟨?_, Children.everywhere_nil⟩⟩
    refine everywhere_ofList.2 ⟨trivial, fun t ht => ?_⟩
    rcases h t ht with ht | rfl
    · exact each t ht
    · exact everywhere_node.2 ⟨rfl, Children.everywhere_nil⟩

theorem Request.Part.reflectable {q q'} (h : Request.Part q q')
    (hq : q.type.Everywhere Tree.Reflectable) : q'.type.Everywhere Tree.Reflectable := by
  cases h with
  | paren | array => exact hq.2.1
  | tuple h | union h | intersection h => exact hq.2.1.toList _ h
  | argument _ h => exact hq.2.1.toLists _ h
  | func h | construct h =>
    have parts := hq.parts
    simp only [Children.everywhere_cons] at parts
    refine everywhere_of_mem_functionTypes parts.1 parts.2.1 ?_ (mem_functionTypes_of_parts h)
    rintro _ ⟨⟩
    exact parts.2.2.1
  | object h =>
    refine (merged_membersParts h).reflectable fun t ht => ?_
    obtain ⟨_, he, ht⟩ := mem_flatMap.1 ht
    obtain ⟨m, hm, rfl⟩ := mem_map.1 he
    exact everywhere_of_mem_types ht (hq.2.1.toList m hm)

theorem Request.Asks.reflectable {q q'} (h : Request.Asks q q')
    (hq : q.type.Everywhere Tree.Reflectable) : q'.type.Everywhere Tree.Reflectable := by
  induction h with
  | refl => exact hq
  | tail _ part ih => exact part.reflectable ih

/-- A type in which all types have values at run time has a reflection. -/
theorem Scope.exists_reflection (s : Scope) (bound : List String) {t}
    (h : t.Everywhere Tree.Reflectable) : ∃ e, s.reflectUnder bound t = .ok e := by
  cases answer : s.reflectUnder bound t with
  | ok e => exact ⟨e, rfl⟩
  | error u =>
    obtain ⟨⟨gs, bound', t'⟩, asked, kind, -⟩ := exists_of_fails (Nat.le_refl t.height) answer
    have own : TypeExpr.isReflectable t' = true := (asked.reflectable h).root
    cases own.symm.trans kind

/-- **Which types have reflections.**  Reflecting a type fails exactly if it asks for a type of a
kind that has no value at run time, and with the kind and the place of such a type.  A type in which
there is none of them has a reflection. -/
theorem Scope.reflectUnder_fails (s : Scope) (bound : List String) (t : TypeExpr) :
    ((∃ u, s.reflectUnder bound t = .error u) ↔
      ∃ q, Request.Asks ⟨s.generics, bound, t⟩ q ∧ TypeExpr.isReflectable q.type = false) ∧
    (∀ u, s.reflectUnder bound t = .error u →
      ∃ q, Request.Asks ⟨s.generics, bound, t⟩ q ∧ TypeExpr.isReflectable q.type = false ∧
        u = ⟨TypeExpr.kindName q.type, TypeExpr.loc q.type⟩) ∧
    (t.Everywhere Tree.Reflectable → ∃ e, s.reflectUnder bound t = .ok e) := by
  have named (u : Unsupported) (h : s.reflectUnder bound t = .error u) :=
    exists_of_fails (Nat.le_refl t.height) h
  refine ⟨⟨?_, ?_⟩, named, s.exists_reflection bound⟩
  · rintro ⟨u, h⟩
    obtain ⟨q, asked, kind, -⟩ := named u h
    exact ⟨q, asked, kind⟩
  · rintro ⟨q, asked, kind⟩
    cases answer : s.reflectUnder bound t with
    | error u => exact ⟨u, rfl⟩
    | ok e =>
      obtain ⟨e', -, answer'⟩ := asked.occurs (s := s) ⟨t.height, answer⟩
      exact (Request.not_reflects kind answer').elim

end Reify
