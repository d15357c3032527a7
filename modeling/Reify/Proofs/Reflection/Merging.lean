import Reify.Proofs.Reflection.Related

/-!
# Merging related members

Overloads are merged by the texts of their types.  If the members of two lists are related one by
one, belong to the same groups and related types have one text, then the merged members are related
(`Reflection.mergeOverloads_related`).
-/

namespace Reify

open List

variable {β α : Type} {e e' : MemberEntry} {es' es : List MemberEntry}

namespace Reflection

/-- What relations between types before and after merging have to bear: related types have one
text, and unions of related types are related. -/
structure Merges (near : Loc → Loc → Prop) (E T : TypeExpr → TypeExpr → Prop) : Prop where
  same {t t' : TypeExpr} : E t t' → T t t'
  text {t t' : TypeExpr} : E t t' → TypeExpr.text t = TypeExpr.text t'
  union {loc loc' : Loc} {ts ts' : List TypeExpr} : near loc loc' →
    Forall₂ (fun t t' => E t t' ∨ t = Synthetic.any loc ∧ t' = Synthetic.any loc') ts ts' →
    T (.union (.synthetic loc) (.ofList ts)) (.union (.synthetic loc') (.ofList ts'))

theorem Option.Rel.mono {E T} (h : ∀ {a b}, E a b → T a b) {x : Option α} {y : Option β}
    (hxy : Option.Rel E x y) : Option.Rel T x y := by
  cases hxy with
  | none => exact .none
  | some hab => exact .some (h hab)

theorem related_getElem? {P} {xs : List α} {ys : List β} (h : Forall₂ P xs ys) (i : Nat) :
    Option.Rel P xs[i]? ys[i]? := by
  induction h generalizing i with
  | nil => exact .none
  | cons head _ ih =>
    cases i with
    | zero => exact .some head
    | succ i => exact ih i

section

variable {near : Loc → Loc → Prop} {R : (c : Category) → Tree c → Tree c → Prop}
  {E T : TypeExpr → TypeExpr → Prop}

/-! ### Related parts -/

theorem FunctionRelated.mono (h : ∀ {t t'}, E t t' → T t t') {tps tps' : Maybe (.many .typeParam)}
    {ps ps' : Many .sigParam} {r r' : Option TypeExpr} (parts : FunctionRelated near E tps tps' ps ps' r r') :
    FunctionRelated near T tps tps' ps ps' r r' where
  typeParams := parts.typeParams.imp fun _ _ related => by
    cases related with
    | mk place bounds => exact .mk place (Option.Rel.mono h bounds)
  params := parts.params.imp fun _ _ related => by
    cases related with
    | mk place types => exact .mk place (Option.Rel.mono h types)
  result := Option.Rel.mono h parts.result

theorem MemberRelated.mono (h : ∀ {t t'}, E t t' → T t t') {e e'}
    (related : MemberRelated near R E e e') : MemberRelated near R T e e' := by
  cases related with
  | property place keys types => exact .property place keys (Option.Rel.mono h types)
  | method place keys parts => exact .method place keys (parts.mono h)
  | call place parts => exact .call place (parts.mono h)
  | construct place parts => exact .construct place (parts.mono h)
  | index place keys values => exact .index place (h keys) (h values)

/-- Method signatures with related parts. -/
structure SigRelated (near : Loc → Loc → Prop) (E : TypeExpr → TypeExpr → Prop) (a b : MethodSig) :
    Prop where
  params : Forall₂ (SigParam.Related near E) a.params b.params
  result : Option.Rel E a.result b.result

theorem related_sig? (h : MemberRelated near R E e e') :
    Option.Rel (SigRelated near E) e.sig? e'.sig? := by
  cases h with
  | method place keys parts => exact .some ⟨parts.params, parts.result⟩
  | _ => exact .none

theorem related_type? {p p'} (h : SigParam.Related near E p p') :
    Option.Rel E (SigParam.type? p) (SigParam.type? p') := by
  cases h with
  | mk place types => exact types

/-! ### Unions -/

section

variable (M : Merges near E T)

include M

theorem Merges.textOrAny {t t'} (h : Option.Rel E t t') :
    Reify.textOrAny t = Reify.textOrAny t' := by
  cases h with
  | none => rfl
  | some h => exact M.text h

theorem Merges.distinctTypes {ts ts'} (h : Forall₂ (Option.Rel E) ts ts') (seen : List String) :
    Forall₂ (Option.Rel E) (Reify.distinctTypes seen ts) (Reify.distinctTypes seen ts') := by
  induction h generalizing seen with
  | nil => exact .nil
  | cons head _ ih =>
    rw [Reify.distinctTypes, Reify.distinctTypes, M.textOrAny head]
    split
    · exact ih seen
    · exact .cons head (ih _)

theorem Merges.unionOf {ts ts' loc loc'} (place : near loc loc')
    (h : Forall₂ (Option.Rel E) ts ts') :
    Option.Rel T (Reify.unionOf loc ts) (Reify.unionOf loc' ts') := by
  have distinct := M.distinctTypes h []
  rw [Reify.unionOf, Reify.unionOf]
  generalize Reify.distinctTypes [] ts = us, Reify.distinctTypes [] ts' = us' at distinct
  cases distinct with
  | nil => exact .none
  | cons head rest =>
    cases rest with
    | nil => exact Option.Rel.mono M.same head
    | cons next rest =>
      refine .some (M.union place ?_)
      refine rel_map (R := Option.Rel E) ?_ (.cons head (.cons next rest))
      rintro _ _ (h | _)
      · exact .inl h
      · exact .inr ⟨rfl, rfl⟩

theorem Merges.mergeParams {sigs sigs'} (h : Forall₂ (SigRelated near E) sigs sigs') :
    Forall₂ (SigParam.Related near T) (Reify.mergeParams sigs) (Reify.mergeParams sigs') := by
  have lengths : sigs.map (·.params.length) = sigs'.map (·.params.length) := by
    induction h with
    | nil => rfl
    | cons head _ ih => rw [map_cons, map_cons, head.params.length_eq, ih]
  rw [Reify.mergeParams, Reify.mergeParams, lengths]
  refine rel_filterMap (R := Eq) ?_ (forall₂_eq_eq_eq ▸ rfl)
  rintro i _ rfl
  have params : Forall₂ (SigParam.Related near E) (sigs.filterMap (·.params[i]?))
      (sigs'.filterMap (·.params[i]?)) :=
    rel_filterMap (fun _ _ related => related_getElem? related.params i) h
  have types := rel_map (fun _ _ related => related_type? related) params
  dsimp only
  generalize sigs.filterMap (·.params[i]?) = ps, sigs'.filterMap (·.params[i]?) = ps' at params types ⊢
  cases params with
  | nil => exact .none
  | cons head _ =>
    cases head with
    | mk place _ =>
      refine .some (.mk place ?_)
      rw [Tree.toOption_ofOption, Tree.toOption_ofOption]
      exact M.unionOf place types

end

/-! ### Members -/

theorem Merges.mergeGroup (M : Merges near E T) {group group'} (h : MemberRelated near R E e e')
    (hg : Forall₂ (MemberRelated near R E) group group') :
    MemberRelated near R T (Reify.mergeGroup e group) (Reify.mergeGroup e' group') := by
  have unmerged := h.mono M.same
  have sigs := rel_filterMap (fun _ _ related => related_sig? related) hg
  cases hg with
  | nil => cases h <;> exact unmerged
  | cons _ rest =>
    cases rest with
    | nil => cases h <;> exact unmerged
    | cons _ _ =>
      cases h with
      | method place keys parts =>
        refine .method place keys ⟨(parts.mono M.same).typeParams, ?_, ?_⟩
        · rw [Tree.toList_ofList, Tree.toList_ofList]
          exact M.mergeParams sigs
        · rw [Tree.toOption_ofOption, Tree.toOption_ofOption]
          exact M.unionOf place (rel_map (fun _ _ related => related.result) sigs)
      | _ => exact unmerged

/-- Members that are related and belong to the same group. -/
def EntryRelated (near : Loc → Loc → Prop) (R : (c : Category) → Tree c → Tree c → Prop)
    (E : TypeExpr → TypeExpr → Prop) (e e' : MemberEntry) : Prop :=
  MemberRelated near R E e e' ∧ e.group? = e'.group?

theorem firstEntries_related (h : Forall₂ (EntryRelated near R E) es es')
    (seen : List (Bool × String)) :
    Forall₂ (EntryRelated near R E) (firstEntries seen es) (firstEntries seen es') := by
  induction h generalizing seen with
  | nil => exact .nil
  | cons head _ ih =>
    rw [firstEntries, firstEntries, ← head.2]
    split
    · exact .cons head (ih seen)
    · split
      · exact ih seen
      · exact .cons head (ih _)

theorem filter_related (h : Forall₂ (EntryRelated near R E) es es') (g : Bool × String) :
    Forall₂ (EntryRelated near R E) (es.filter (·.group? == some g))
      (es'.filter (·.group? == some g)) := by
  refine rel_filter (fun e e' related => ?_) h
  dsimp only
  rw [related.2]

/-- **Merged members are related** if the members are. -/
theorem mergeOverloads_related (M : Merges near E T)
    (h : Forall₂ (EntryRelated near R E) es es') :
    Forall₂ (MemberRelated near R T) (mergeOverloads es) (mergeOverloads es') := by
  refine rel_map ?_ (firstEntries_related h [])
  rintro e e' ⟨related, group⟩
  dsimp only
  rw [← group]
  split
  · exact related.mono M.same
  · exact M.mergeGroup related ((filter_related h _).imp fun _ _ related => related.1)

end

end Reflection

end Reify
