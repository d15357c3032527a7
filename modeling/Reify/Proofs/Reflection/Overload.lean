import Mathlib.Data.List.Forall2
import Mathlib.Data.List.Nodup
import Reify.Reflection.Overload

/-!
# What merging overloads does

`firsts key xs` are the elements of `xs` whose key has not occurred before them; an element without
a key always counts.  Merging keeps exactly these of the members, where the key of a method is its
group: its static flag and the text of its key.

* `Represents` says which member stands in the place of the first method of a group, and `Joins`
  which type stands for the types that several signatures have at one position.
* `mergeOverloads_merged`: the merged members are those of `MergedMembers`, and merging them again
  changes nothing.
-/

namespace Reify

open List

/-! ### First occurrences -/

section

variable {α κ : Type} [BEq κ]

/-- The elements whose key does not occur before them, and those without a key. -/
def firsts (key : α → Option κ) : List α → List α
  | [] => []
  | x :: xs => x :: (firsts key xs).filter fun y => (key y).isNone || key y != key x

/-- Goes through a list with the keys seen so far and leaves out what has been seen. -/
def unseen (key : α → Option κ) : List κ → List α → List α
  | _, [] => []
  | seen, x :: xs =>
    match key x with
    | none => x :: unseen key seen xs
    | some k => if seen.contains k then unseen key seen xs else x :: unseen key (k :: seen) xs

theorem firsts_sublist (key : α → Option κ) (xs : List α) : (firsts key xs).Sublist xs := by
  induction xs with
  | nil => exact .refl _
  | cons x xs ih => exact (filter_sublist.trans ih).cons_cons x

/-- Elements without a key all count. -/
theorem filter_firsts (key : α → Option κ) (xs : List α) :
    (firsts key xs).filter (key · |>.isNone) = xs.filter (key · |>.isNone) := by
  induction xs with
  | nil => rfl
  | cons x xs ih =>
    have rest : ((firsts key xs).filter fun y => (key y).isNone || key y != key x).filter
        (key · |>.isNone) = xs.filter (key · |>.isNone) := by
      rw [filter_filter, ← ih]
      refine filter_congr fun y _ => ?_
      cases key y <;> rfl
    rw [firsts, filter_cons, filter_cons, rest]

variable [LawfulBEq κ] {key : α → Option κ} {seen : List κ} {x : α} {xs : List α} {k : κ}

/-- What is left are first occurrences. -/
theorem unseen_eq (key : α → Option κ) (seen : List κ) (xs : List α) :
    unseen key seen xs = (firsts key xs).filter fun x => (key x).all (!seen.contains ·) := by
  induction xs generalizing seen with
  | nil => rfl
  | cons x xs ih =>
    rw [unseen, firsts, filter_cons, filter_filter]
    cases hx : key x with
    | none =>
      simp only [ih, Option.all_none, if_true]
      congr 1
      refine filter_congr fun y _ => ?_
      cases key y <;> simp
    | some k =>
      simp only [ih, Option.all_some]
      split
      case isTrue old =>
        rw [if_neg (by simpa using old)]
        refine filter_congr fun y _ => ?_
        cases hy : key y with
        | none => simp
        | some j =>
          simp at old ⊢
          rintro h rfl
          exact h old
      case isFalse new =>
        rw [if_pos (by simpa using new)]
        congr 1
        refine filter_congr fun y _ => ?_
        cases hy : key y with
        | none => simp
        | some j => simp [bne, Bool.and_comm]

theorem unseen_nil (key : α → Option κ) (xs : List α) : unseen key [] xs = firsts key xs := by
  rw [unseen_eq]
  exact filter_eq_self.2 fun x _ => by cases key x <;> rfl

theorem mem_of_mem_unseen (h : x ∈ unseen key seen xs) : x ∈ xs := by
  rw [unseen_eq] at h
  exact (firsts_sublist key xs).subset (mem_of_mem_filter h)

/-- Every key has a first occurrence. -/
theorem exists_first (h : x ∈ xs) (hx : key x = some k) : ∃ y ∈ firsts key xs, key y = some k := by
  induction xs with
  | nil => cases h
  | cons z xs ih =>
    by_cases hz : key z = some k
    · exact ⟨z, mem_cons_self, hz⟩
    · rcases mem_cons.1 h with rfl | h
      · exact (hz hx).elim
      · obtain ⟨y, hy, eq⟩ := ih h
        refine ⟨y, mem_cons_of_mem _ (mem_filter.2 ⟨hy, ?_⟩), eq⟩
        simpa [eq] using Ne.symm hz

/-- No key occurs first twice. -/
theorem nodup_keys_firsts (key : α → Option κ) (xs : List α) :
    ((firsts key xs).filterMap key).Nodup := by
  induction xs with
  | nil => exact .nil
  | cons x xs ih =>
    have rest := ih.sublist
      ((filter_sublist (p := fun y => (key y).isNone || key y != key x)).filterMap key)
    cases hx : key x with
    | none =>
      rw [firsts, filterMap_cons_none hx]
      exact rest
    | _ =>
      rw [firsts, filterMap_cons_some hx, nodup_cons]
      refine ⟨fun again => ?_, rest⟩
      obtain ⟨y, hy, same⟩ := mem_filterMap.1 again
      simpa [same, hx] using (mem_filter.1 hy).2

/-- A first occurrence comes first among all that has its key. -/
theorem filter_of_mem_firsts (h : x ∈ firsts key xs) (hx : key x = some k) :
    ∃ rest, xs.filter (key · == some k) = x :: rest := by
  induction xs with
  | nil => cases h
  | cons y xs ih =>
    rcases mem_cons.1 h with rfl | h
    · exact ⟨_, filter_cons_of_pos (by simp [hx])⟩
    · obtain ⟨mem, other⟩ := mem_filter.1 h
      rw [filter_cons_of_neg]
      · exact ih mem
      · intro same
        simp [hx, eq_of_beq same] at other

/-- Where no key repeats, all elements are first occurrences. -/
theorem firsts_eq_self (nodup : (xs.filterMap key).Nodup) : firsts key xs = xs := by
  induction xs with
  | nil => rfl
  | cons x xs ih =>
    rw [firsts, ih (nodup.sublist ((sublist_cons_self x xs).filterMap key)), filter_eq_self.2]
    intro y hy
    cases same : key y with
    | none => rfl
    | some k =>
      rw [Option.isNone_some, Bool.false_or, bne_iff_ne]
      intro hx
      rw [filterMap_cons_some hx.symm, nodup_cons] at nodup
      exact nodup.1 (mem_filterMap.2 ⟨y, hy, same⟩)

/-- Where no key repeats, an element is the only one with its key. -/
theorem filter_of_nodup (nodup : (xs.filterMap key).Nodup) (h : x ∈ xs) (hx : key x = some k) :
    xs.filter (key · == some k) = [x] := by
  obtain ⟨rest, eq⟩ := filter_of_mem_firsts ((firsts_eq_self nodup).symm ▸ h) hx
  have keys := nodup.sublist ((filter_sublist (p := (key · == some k))).filterMap key)
  rw [eq] at keys ⊢
  cases rest with
  | nil => rfl
  | cons y rest =>
    have hy : y ∈ xs.filter (key · == some k) := eq ▸ mem_cons_of_mem _ mem_cons_self
    have hy : key y = some k := by simpa using (mem_filter.1 hy).2
    simp [hx, hy] at keys

end

/-! ### One type for several -/

/-- What tells types apart. -/
def textKey (t : Option TypeExpr) : Option String := some (textOrAny t)

/-- **The type that stands for the types of several signatures**: the first of them if all have its
text, else the union of those whose texts have not occurred before. -/
inductive Joins (loc : Loc) (types : List (Option TypeExpr)) : Option TypeExpr → Prop where
  | one {t : Option TypeExpr} (first : types.head? = some t)
      (agree : ∀ u ∈ types, textOrAny u = textOrAny t) : Joins loc types t
  | union {t u : Option TypeExpr} (ht : t ∈ types) (hu : u ∈ types)
      (differ : textOrAny t ≠ textOrAny u) :
      Joins loc types (some (.union (.synthetic loc) (.ofList
        ((firsts textKey types).map (·.getD (Synthetic.any loc))))))

/-- A type occurs in another up to its text: it is the whole or a member of a union. -/
def OccursIn (t u : Option TypeExpr) : Prop :=
  textOrAny u = textOrAny t ∨
    ∃ site types, u = some (.union site types) ∧ ∃ v ∈ types.toList, TypeExpr.text v = textOrAny t

theorem distinctTypes_eq (seen : List String) (types : List (Option TypeExpr)) :
    distinctTypes seen types = unseen textKey seen types := by
  induction types generalizing seen with
  | nil => rfl
  | cons t types ih =>
    rw [distinctTypes, ih, ih]
    rfl

section

variable {types : List (Option TypeExpr)}

theorem mem_of_mem_distinctTypes {seen t} (h : t ∈ distinctTypes seen types) : t ∈ types := by
  rw [distinctTypes_eq] at h
  exact mem_of_mem_unseen h

theorem joins_unionOf (loc : Loc) (h : types ≠ []) : Joins loc types (unionOf loc types) := by
  cases types with
  | nil => exact (h rfl).elim
  | cons t types =>
    rw [unionOf, distinctTypes_eq, unseen_nil]
    cases others : (firsts textKey types).filter
        fun u => (textKey u).isNone || textKey u != textKey t with
    | nil =>
      rw [firsts, others]
      refine .one rfl fun u hu => ?_
      rcases mem_cons.1 hu with rfl | hu
      · rfl
      · -- another text would have been kept
        by_contra differ
        obtain ⟨v, hv, same⟩ := exists_first hu (rfl : textKey u = _)
        refine filter_eq_nil_iff.1 others v hv ?_
        simpa [textKey, Option.some.inj same] using differ
    | cons u us =>
      have hu : u ∈ u :: us := mem_cons_self
      rw [← others, mem_filter] at hu
      have all : unionOf loc (t :: types) = some (.union (.synthetic loc) (.ofList
          ((firsts textKey (t :: types)).map (·.getD (Synthetic.any loc))))) := by
        rw [unionOf, distinctTypes_eq, unseen_nil, firsts, others]
      rw [unionOf, distinctTypes_eq, unseen_nil] at all
      rw [all]
      refine .union (mem_cons_of_mem _ ((firsts_sublist _ _).subset hu.1)) mem_cons_self ?_
      simpa [textKey] using hu.2

/-- Every one of the types occurs in the one that stands for them. -/
theorem Joins.occursIn {loc t u} (h : Joins loc types u) (ht : t ∈ types) : OccursIn t u := by
  cases h with
  | one first agree => exact .inl (agree t ht).symm
  | _ =>
    obtain ⟨v, hv, same⟩ := exists_first ht (rfl : textKey t = _)
    refine .inr ⟨_, _, rfl, v.getD (Synthetic.any loc), ?_, ?_⟩
    · rw [Tree.toList_ofList]
      exact mem_map_of_mem hv
    · rw [← Option.some.inj same]
      cases v <;> rfl

end

/-! ### One signature for several -/

/-- The signatures of a list of members. -/
def signatures (group : List MemberEntry) : List MethodSig := group.filterMap MemberEntry.sig?

/-- The types that signatures have at a position. -/
def typesAt (sigs : List MethodSig) (i : Nat) : List (Option TypeExpr) :=
  sigs.filterMap fun sig => sig.params[i]?.map SigParam.type?

/-- The number of parameters of the longest signature. -/
def maxParams (sigs : List MethodSig) : Nat := (sigs.map (·.params.length)).foldl max 0

/-- **The parameters that stand for those of several signatures.**  There are as many as the longest
signature has.  Each is the one that the first signature with that position has there, with the type
that stands for all types at the position. -/
structure JoinsParams (sigs : List MethodSig) (params : List SigParam) : Prop where
  length : params.length = maxParams sigs
  position : ∀ i p, params[i]? = some p → ∃ sig q,
    sigs.find? (i < ·.params.length) = some sig ∧ sig.params[i]? = some q ∧
      p.mark = q.mark ∧ p.form = q.form ∧ Joins q.mark.loc (typesAt sigs i) (SigParam.type? p)

/-- **The method that stands for several signatures**: the first of them with other parameters and
another result. -/
inductive Overloaded (group : List MemberEntry) : MemberEntry → Prop where
  | mk {static site optional key typeParams firstParams firstResult} {params : List SigParam}
      {result : Option TypeExpr} (first : group.head? =
        some ⟨static, .method site optional key typeParams firstParams firstResult⟩)
      (joinsParams : JoinsParams (signatures group) params)
      (joinsResult : Joins site.loc ((signatures group).map MethodSig.result) result) :
      Overloaded group ⟨static, .method (.synthetic site.loc) optional key typeParams
        (.ofList params) (.ofOption result)⟩

theorem lt_maxParams {sigs i} : i < maxParams sigs ↔ ∃ sig ∈ sigs, i < sig.params.length := by
  have larger (xs : List Nat) (n : Nat) : i < xs.foldl max n ↔ i < n ∨ ∃ x ∈ xs, i < x := by
    induction xs generalizing n with
    | nil => simp
    | cons x xs ih =>
      have either : i < max n x ↔ i < n ∨ i < x := by omega
      rw [foldl_cons, ih, exists_mem_cons_iff, ← or_assoc, either]
  simp [maxParams, larger]

/-- Where a function is defined exactly below a bound, its values are listed by position. -/
theorem filterMap_range {β : Type} {f : Nat → Option β} {n} (h : ∀ i, (f i).isSome ↔ i < n) :
    ((List.range n).filterMap f).length = n ∧ ∀ i : Nat, ((List.range n).filterMap f)[i]? = f i := by
  have values : ((List.range n).filterMap f).map some = (List.range n).map f := by
    rw [map_filterMap, ← filterMap_eq_map]
    refine filterMap_congr fun i hi => ?_
    obtain ⟨y, hy⟩ := Option.isSome_iff_exists.1 ((h i).2 (mem_range.1 hi))
    simp [hy]
  refine ⟨by simpa using congrArg List.length values, fun i => ?_⟩
  have here := congrArg (·[i]?) values
  by_cases hi : i < n
  · obtain ⟨y, hy, eq⟩ : ∃ y, ((List.range n).filterMap f)[i]? = some y ∧ some y = f i := by
      simpa [hi] using here
    rw [hy, eq]
  · rw [Option.not_isSome_iff_eq_none.1 (mt (h i).1 hi)]
    simpa [hi] using here

/-- The first parameter at a position is that of the first signature that has the position. -/
theorem head?_paramsAt (sigs : List MethodSig) (i : Nat) :
    (sigs.filterMap (·.params[i]?)).head? =
      (sigs.find? (i < ·.params.length)).bind (·.params[i]?) := by
  induction sigs with
  | nil => rfl
  | cons sig sigs ih =>
    by_cases h : i < sig.params.length
    · simp [h]
    · simpa [h] using ih

theorem SigParam.withUnion_parts (types : List (Option TypeExpr)) (q : SigParam) :
    (SigParam.withUnion types q).mark = q.mark ∧ (SigParam.withUnion types q).form = q.form ∧
      SigParam.type? (SigParam.withUnion types q) = unionOf q.mark.loc types := by
  match q with
  | SigParam.mk mark form type => exact ⟨rfl, rfl, Tree.toOption_ofOption _⟩

theorem joinsParams_mergeParams (sigs : List MethodSig) : JoinsParams sigs (mergeParams sigs) := by
  have types (i : Nat) : (sigs.filterMap (·.params[i]?)).map SigParam.type? = typesAt sigs i :=
    map_filterMap
  have defined (i : Nat) : ((sigs.filterMap (·.params[i]?)).head?.map
      (SigParam.withUnion (typesAt sigs i))).isSome ↔ i < maxParams sigs := by
    rw [Option.isSome_map, isSome_head?, lt_maxParams]
    simp
  obtain ⟨length, at_⟩ := filterMap_range defined
  simp only [mergeParams, types]
  refine ⟨length, fun i p hp => ?_⟩
  rw [← maxParams, at_, head?_paramsAt] at hp
  obtain ⟨q, hq, rfl⟩ := Option.map_eq_some_iff.1 hp
  obtain ⟨sig, found, here⟩ := Option.bind_eq_some_iff.1 hq
  obtain ⟨mark, form, type⟩ := SigParam.withUnion_parts (typesAt sigs i) q
  refine ⟨sig, q, found, here, mark, form, ?_⟩
  rw [type]
  have own : SigParam.type? q ∈ typesAt sigs i :=
    mem_filterMap.2 ⟨sig, mem_of_find?_eq_some found, by rw [here]; rfl⟩
  exact joins_unionOf _ (ne_nil_of_mem own)

/-! ### Groups -/

theorem MemberEntry.method_of_group? {e : MemberEntry} {g} (h : e.group? = some g) :
    ∃ static site optional key typeParams params result,
      e = ⟨static, .method site optional key typeParams params result⟩ ∧
        g = (static, TypeKey.group key) := by
  match e, h with
  | ⟨_, TypeMember.method _ _ _ _ _ _⟩, h =>
    exact ⟨_, _, _, _, _, _, _, rfl, (Option.some.inj h).symm⟩
  | ⟨_, TypeMember.property _ _ _ _ _⟩, h | ⟨_, TypeMember.construct _ _ _ _⟩, h
  | ⟨_, TypeMember.call _ _ _ _⟩, h | ⟨_, TypeMember.index _ _ _ _ _⟩, h => cases h

theorem MemberEntry.group?_of_sig? {e : MemberEntry} {sig} (h : e.sig? = some sig) :
    ∃ g, e.group? = some g := by
  match e, h with
  | ⟨_, TypeMember.method _ _ _ _ _ _⟩, _ => exact ⟨_, rfl⟩
  | ⟨_, TypeMember.property _ _ _ _ _⟩, h | ⟨_, TypeMember.construct _ _ _ _⟩, h
  | ⟨_, TypeMember.call _ _ _ _⟩, h | ⟨_, TypeMember.index _ _ _ _ _⟩, h => cases h

/-- The methods of a group. -/
def groupOf (entries : List MemberEntry) (g : Bool × String) : List MemberEntry :=
  entries.filter (·.group? == some g)

/-- **What stands in the place of a member that comes first**: a member that is no method and the
only method of a group stand for themselves, several methods are merged. -/
inductive Represents (entries : List MemberEntry) (e : MemberEntry) : MemberEntry → Prop where
  | other (h : e.group? = none) : Represents entries e e
  | single {g : Bool × String} (h : e.group? = some g) (alone : groupOf entries g = [e]) :
      Represents entries e e
  | several {g : Bool × String} {m : MemberEntry} (h : e.group? = some g)
      (others : 1 < (groupOf entries g).length) (merged : Overloaded (groupOf entries g) m) :
      Represents entries e m

/-- Every type of a signature occurs at its position in what stands for it. -/
structure Includes (m e : MethodSig) : Prop where
  params : ∀ (i : Nat) (q : SigParam), e.params[i]? = some q →
    ∃ p, m.params[i]? = some p ∧ OccursIn (SigParam.type? q) (SigParam.type? p)
  result : OccursIn e.result m.result

theorem mergeGroup_singleton : (e e' : MemberEntry) → mergeGroup e [e'] = e
  | ⟨_, TypeMember.method _ _ _ _ _ _⟩, _ | ⟨_, TypeMember.property _ _ _ _ _⟩, _
  | ⟨_, TypeMember.construct _ _ _ _⟩, _ | ⟨_, TypeMember.call _ _ _ _⟩, _
  | ⟨_, TypeMember.index _ _ _ _ _⟩, _ => rfl

theorem overloaded_mergeGroup {e e' rest g} (h : e.group? = some g) :
    Overloaded (e :: e' :: rest) (mergeGroup e (e :: e' :: rest)) := by
  obtain ⟨_, _, _, _, _, _, _, rfl, -⟩ := MemberEntry.method_of_group? h
  exact .mk rfl (joinsParams_mergeParams _) (joins_unionOf _ nofun)

/-! ### Member lists -/

theorem firstEntries_eq (seen : List (Bool × String)) (entries : List MemberEntry) :
    firstEntries seen entries = unseen MemberEntry.group? seen entries := by
  induction entries generalizing seen with
  | nil => rfl
  | cons e entries ih =>
    rw [firstEntries, unseen]
    simp only [ih]
    cases e.group? <;> rfl

section

variable {entries : List MemberEntry} {e m : MemberEntry}

theorem mem_of_mem_firstEntries {seen} (h : e ∈ firstEntries seen entries) : e ∈ entries := by
  rw [firstEntries_eq] at h
  exact mem_of_mem_unseen h

theorem mem_groupOf {g} : e ∈ groupOf entries g ↔ e ∈ entries ∧ e.group? = some g := by
  simp [groupOf]

theorem Represents.group?_eq (h : Represents entries e m) : m.group? = e.group? := by
  cases h with
  | several h others merged =>
    cases merged with
    | mk first => exact (mem_groupOf.1 (mem_of_head? first)).2.trans h.symm
  | _ => rfl

theorem Represents.eq_of_other (h : Represents entries e m) (none : e.group? = none) : m = e := by
  cases h with
  | several h =>
    rw [none] at h
    cases h
  | _ => rfl

theorem Overloaded.includes {group sig} (h : Overloaded group m) (he : e ∈ group)
    (hsig : e.sig? = some sig) : ∃ merged, m.sig? = some merged ∧ Includes merged sig := by
  have mem : sig ∈ signatures group := mem_filterMap.2 ⟨e, he, hsig⟩
  cases h with
  | mk first joinsParams joinsResult =>
    refine ⟨_, rfl, fun i q hq => ?_, ?_⟩
    · have short := lt_maxParams.2 ⟨sig, mem, (List.getElem?_eq_some_iff.1 hq).1⟩
      rw [← joinsParams.length] at short
      obtain ⟨_, _, _, _, _, _, joins⟩ := joinsParams.position i _ (getElem?_eq_getElem short)
      rw [Tree.toList_ofList]
      exact ⟨_, getElem?_eq_getElem short,
        joins.occursIn (mem_filterMap.2 ⟨sig, mem, by rw [hq]; rfl⟩)⟩
    · rw [Tree.toOption_ofOption]
      exact joinsResult.occursIn (mem_map_of_mem mem)

theorem represents_merged (h : e ∈ firsts MemberEntry.group? entries) : Represents entries e
    (match e.group? with
    | none => e
    | some g => mergeGroup e (entries.filter (·.group? == some g))) := by
  split
  case h_1 none => exact .other none
  case h_2 g some =>
    obtain ⟨rest, group⟩ := filter_of_mem_firsts h some
    have all : groupOf entries g = e :: rest := group
    rw [group]
    cases rest with
    | nil =>
      rw [mergeGroup_singleton]
      exact .single some all
    | _ =>
      refine .several some ?_ ?_ <;> rw [all]
      · exact Nat.lt_add_of_pos_left (Nat.succ_pos _)
      · exact overloaded_mergeGroup some

variable {es ms : List MemberEntry} (slots : Forall₂ (Represents entries) es ms)

include slots

theorem groups_of_slots : ms.filterMap MemberEntry.group? = es.filterMap MemberEntry.group? := by
  induction slots with
  | nil => rfl
  | cons head _ ih => rw [filterMap_cons, filterMap_cons, head.group?_eq, ih]

theorem others_of_slots : ms.filter (·.group?.isNone) = es.filter (·.group?.isNone) := by
  induction slots with
  | nil => rfl
  | @cons e m _ _ head _ ih =>
    rw [filter_cons, filter_cons, head.group?_eq, ih]
    cases h : e.group? with
    | none => rw [head.eq_of_other h]
    | some g => rfl

theorem exists_of_slots (he : e ∈ es) : ∃ m ∈ ms, Represents entries e m := by
  induction slots with
  | nil => cases he
  | cons head _ ih =>
    rcases mem_cons.1 he with rfl | he
    · exact ⟨_, mem_cons_self, head⟩
    · obtain ⟨m, hm, represents⟩ := ih he
      exact ⟨m, mem_cons_of_mem _ hm, represents⟩

end

/-- **One member for each slot of a member list.** -/
structure MergedMembers (entries merged : List MemberEntry) : Prop where
  /-- A member that is no method has a slot of its own, and so has each group of methods; the slots
  stand in the order in which they first occur. -/
  slots : Forall₂ (Represents entries) (firsts MemberEntry.group? entries) merged
  /-- The other members are the same, in the same order. -/
  others : merged.filter (·.group?.isNone) = entries.filter (·.group?.isNone)
  /-- The groups are the same, and each has one method. -/
  groups : ∀ g, g ∈ merged.filterMap MemberEntry.group? ↔ g ∈ entries.filterMap MemberEntry.group?
  once : (merged.filterMap MemberEntry.group?).Nodup
  /-- The types of every signature occur in the method of its group. -/
  covered : ∀ e ∈ entries, ∀ sig, e.sig? = some sig →
    ∃ m ∈ merged, m.group? = e.group? ∧ ∃ all, m.sig? = some all ∧ Includes all sig

theorem mergedMembers_mergeOverloads (entries : List MemberEntry) :
    MergedMembers entries (mergeOverloads entries) := by
  have slots : Forall₂ (Represents entries) (firsts MemberEntry.group? entries)
      (mergeOverloads entries) := by
    rw [mergeOverloads, forall₂_map_right_iff, firstEntries_eq, unseen_nil, forall₂_same]
    exact fun e he => represents_merged he
  have first {e : MemberEntry} {g : Bool × String} (he : e ∈ entries) (hg : e.group? = some g) :
      ∃ e' ∈ firsts MemberEntry.group? entries, e'.group? = some g := exists_first he hg
  refine ⟨slots, ?_, fun g => ?_, ?_, fun e he sig hsig => ?_⟩
  · rw [others_of_slots slots, filter_firsts]
  · rw [groups_of_slots slots]
    refine ⟨fun h => ((firsts_sublist _ _).filterMap _).subset h, fun h => ?_⟩
    obtain ⟨e, he, hg⟩ := mem_filterMap.1 h
    exact mem_filterMap.2 (first he hg)
  · rw [groups_of_slots slots]
    exact nodup_keys_firsts _ _
  · obtain ⟨g, hg⟩ := MemberEntry.group?_of_sig? hsig
    -- the first method of the group stands for `e` too
    obtain ⟨e', he', hg'⟩ := first he hg
    obtain ⟨m, hm, represents⟩ := exists_of_slots slots he'
    have own : e ∈ groupOf entries g := mem_groupOf.2 ⟨he, hg⟩
    refine ⟨m, hm, represents.group?_eq.trans (hg'.trans hg.symm), ?_⟩
    cases represents with
    | other none =>
      rw [none] at hg'
      cases hg'
    | single h alone =>
      obtain rfl := Option.some.inj (h.symm.trans hg')
      rw [alone, mem_singleton] at own
      subst own
      exact ⟨sig, hsig, fun i q hq => ⟨q, hq, .inl rfl⟩, .inl rfl⟩
    | several h others merged =>
      obtain rfl := Option.some.inj (h.symm.trans hg')
      exact merged.includes own hsig

/-- A list with one method for each group is merged already. -/
theorem mergeOverloads_eq_self {entries} (once : (entries.filterMap MemberEntry.group?).Nodup) :
    mergeOverloads entries = entries := by
  rw [mergeOverloads, firstEntries_eq, unseen_nil, firsts_eq_self once]
  refine (map_congr_left fun e he => ?_).trans (map_id _)
  split
  case h_1 => rfl
  case h_2 g h => rw [filter_of_nodup once he h, mergeGroup_singleton, id]

/-- **Overloads are merged into one method each, once and for all.** -/
theorem mergeOverloads_merged (entries : List MemberEntry) :
    MergedMembers entries (mergeOverloads entries) ∧
      mergeOverloads (mergeOverloads entries) = mergeOverloads entries :=
  have merged := mergedMembers_mergeOverloads entries
  ⟨merged, mergeOverloads_eq_self merged.once⟩

end Reify
