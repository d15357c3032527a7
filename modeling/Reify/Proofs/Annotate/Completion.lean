import Reify.Proofs.Annotate.Filling

/-!
# Completing a tree

The walk that fills in types, over a tree whose numbers are distinct and new to it, deals with
exactly the gaps of the tree, in order (`Tree.run_annotate`).  Each is asked for once, what is
attached for it gets numbers of its own, and what stays without a type is reported.
-/

namespace Reify

open List Tree

/-! ### Runs -/

/-- The state of the walk before it comes to nodes with some marks: their numbers are distinct and
below the numbers it gives out, it has asked for none of them, and of them it has dealt only with
those that are held. -/
structure Annotator.Before (bound : Nat) (held : List Nat) (ms : List Mark) (a : Annotator) :
    Prop where
  next : bound ≤ a.context.nextId
  below : ∀ m ∈ ms, m.id < bound
  distinct : (ms.map Mark.id).Nodup
  visited : ∀ m ∈ ms, a.context.wasVisited m.id = true ↔ m.id ∈ held
  unasked : ∀ m ∈ ms, a.context.inferred.lookup m.id = none

/-- What the walk does over nodes with the marks `ms` and the given gaps.  It asks for each gap
once, reports those that it has to, and leaves nodes with the marks `ms'`, in which every number
is an old one or a new one. -/
structure Annotator.Fills (inference : Nat → Option TypeExpr) (bound : Nat) (touched : List Nat)
    (gaps : List TypeGap) (ms ms' : List Mark) (a a' : Annotator) : Prop where
  misses : a'.misses = a.misses ++ gaps.filterMap (TypeGap.miss? inference)
  inferred : a'.context.inferred =
    (gaps.map fun g => (g.host.id, inference g.host.id)).reverse ++ a.context.inferred
  hosts : ∀ g ∈ gaps, g.host.id ∈ touched
  next : a.context.nextId ≤ a'.context.nextId
  visited : ∀ i < bound, i ∉ touched → a'.context.wasVisited i = a.context.wasVisited i
  distinct : (ms'.map Mark.id).Nodup
  ids : ∀ m ∈ ms', m.id ∈ ms.map Mark.id ∨
    a.context.nextId ≤ m.id ∧ m.id < a'.context.nextId

namespace Annotator

variable {inference : Nat → Option TypeExpr} {bound : Nat} {held held' touched touched' : List Nat}
  {gaps gaps' : List TypeGap} {ms ms' ls ls' : List Mark} {a a₁ a' : Annotator}

theorem Before.left (h : Before bound held (ms ++ ls) a)
    (same : ∀ m ∈ ms, m.id ∈ held ↔ m.id ∈ held') : Before bound held' ms a where
  next := h.next
  below m hm := h.below m (mem_append_left _ hm)
  distinct := (nodup_append.1 (map_append ▸ h.distinct)).1
  visited m hm := (h.visited m (mem_append_left _ hm)).trans (same m hm)
  unasked m hm := h.unasked m (mem_append_left _ hm)

theorem Before.right (h : Before bound held (ms ++ ls) a)
    (same : ∀ m ∈ ls, m.id ∈ held ↔ m.id ∈ held') : Before bound held' ls a where
  next := h.next
  below m hm := h.below m (mem_append_right _ hm)
  distinct := (nodup_append.1 (map_append ▸ h.distinct)).2.1
  visited m hm := (h.visited m (mem_append_right _ hm)).trans (same m hm)
  unasked m hm := h.unasked m (mem_append_right _ hm)

/-- Nodes that the walk is yet to come to stay so while it is elsewhere. -/
theorem Before.elsewhere (h : Before bound held ms a)
    (run : Fills inference bound touched gaps ls ls' a a')
    (apart : ∀ m ∈ ms, m.id ∉ touched) : Before bound held ms a' where
  next := Nat.le_trans h.next run.next
  below := h.below
  distinct := h.distinct
  visited m hm := by
    rw [run.visited m.id (h.below m hm) (apart m hm)]
    exact h.visited m hm
  unasked m hm := by
    rw [run.inferred, lookup_append, h.unasked m hm, Option.or_none]
    refine lookup_eq_none_iff.2 fun p hp => ?_
    obtain ⟨g, hg, rfl⟩ := mem_map.1 (mem_reverse.1 hp)
    have other : m.id ≠ g.host.id := fun same => apart m hm (same ▸ run.hosts g hg)
    simpa using other

theorem Fills.mono (h : Fills inference bound touched gaps ms ms' a a')
    (sub : ∀ i ∈ touched, i ∈ touched') : Fills inference bound touched' gaps ms ms' a a' :=
  { h with
    hosts := fun g hg => sub _ (h.hosts g hg)
    visited := fun i hi apart => h.visited i hi fun mem => apart (sub i mem) }

theorem Fills.perm (h : Fills inference bound touched gaps ms ms' a a') (perm : ls'.Perm ms') :
    Fills inference bound touched gaps ms ls' a a' :=
  { h with
    distinct := (perm.map Mark.id).nodup_iff.2 h.distinct
    ids := fun m hm => h.ids m (perm.mem_iff.1 hm) }

theorem below_of_mem (below : ∀ m ∈ ms, m.id < bound) {i} (h : i ∈ ms.map Mark.id) : i < bound := by
  obtain ⟨m, hm, rfl⟩ := mem_map.1 h
  exact below m hm

/-- One run after another, over different nodes. -/
theorem Fills.append (next : bound ≤ a.context.nextId) (below : ∀ m ∈ ms ++ ls, m.id < bound)
    (apart : ((ms ++ ls).map Mark.id).Nodup)
    (first : Fills inference bound touched gaps ms ms' a a₁)
    (second : Fills inference bound touched' gaps' ls ls' a₁ a') :
    Fills inference bound (touched ++ touched') (gaps ++ gaps') (ms ++ ls) (ms' ++ ls') a a' where
  misses := by rw [second.misses, first.misses, filterMap_append, append_assoc]
  inferred := by
    rw [second.inferred, first.inferred, map_append, reverse_append, append_assoc]
  hosts g hg := (mem_append.1 hg).elim
    (fun h => mem_append_left _ (first.hosts g h))
    (fun h => mem_append_right _ (second.hosts g h))
  next := Nat.le_trans first.next second.next
  visited i hi other := by
    rw [mem_append, not_or] at other
    rw [second.visited i hi other.2, first.visited i hi other.1]
  distinct := by
    rw [map_append] at apart ⊢
    refine nodup_append.2 ⟨first.distinct, second.distinct, fun i hi j hj same => ?_⟩
    obtain ⟨m, hm, rfl⟩ := mem_map.1 hi
    obtain ⟨l, hl, rfl⟩ := mem_map.1 hj
    -- A number is old on both sides, or given out by one run and not by the other.
    rcases first.ids m hm with old | ⟨from₁, to₁⟩ <;> rcases second.ids l hl with old' | ⟨from₂, _⟩
    · exact (nodup_append.1 apart).2.2 _ old _ old' same
    · have := below_of_mem below (map_append ▸ mem_append_left _ old)
      have := first.next
      omega
    · have := below_of_mem below (map_append ▸ mem_append_right _ old')
      omega
    · omega
  ids m hm := by
    rw [map_append, mem_append]
    have next₁ := first.next
    have next₂ := second.next
    rcases mem_append.1 hm with hm | hm
    · rcases first.ids m hm with old | new
      · exact .inl (.inl old)
      · exact .inr ⟨new.1, by omega⟩
    · rcases second.ids m hm with old | new
      · exact .inl (.inr old)
      · exact .inr ⟨by omega, new.2⟩

/-! ### One node -/

theorem wasVisited_markVisited (c : Context) (i j : Nat) :
    (c.markVisited i).wasVisited j = true ↔ c.wasVisited j = true ∨ j = i := by
  unfold Context.markVisited Context.wasVisited
  split
  case isTrue zero => grind
  case isFalse => grind

theorem wasVisited_markAll (ids : List Nat) (c : Context) (j : Nat) :
    (ids.foldl Context.markVisited c).wasVisited j = true ↔ c.wasVisited j = true ∨ j ∈ ids := by
  induction ids generalizing c with
  | nil => simp
  | cons i ids ih => rw [foldl_cons, ih, wasVisited_markVisited, mem_cons, or_assoc]

/-- Counting nodes as dealt with. -/
theorem Fills.visit (distinct : (ms.map Mark.id).Nodup) (ids : List Nat) :
    Fills inference bound ids [] ms ms a (a.visit ids) := by
  obtain ⟨inferred, next⟩ := context_markAll ids a.context
  exact {
    misses := by simp [Annotator.visit]
    inferred := inferred
    hosts := by simp
    next := Nat.le_of_eq next.symm
    visited := fun i _ other => by
      have same := wasVisited_markAll ids a.context i
      simp only [other, or_false] at same
      exact Bool.eq_iff_iff.2 same
    distinct := distinct
    ids := fun m hm => .inl (mem_map_of_mem hm) }

theorem miss?_of_answer {g : TypeGap} {t} (h : g.answer inference = some t) :
    g.miss? inference = none := by
  cases g with
  | binding host name => exact if_neg (by simp [show inference host.id = some t from h])
  | result host => rfl

/-- Asking for the type of one gap. -/
theorem Fills.fill (next : bound ≤ a.context.nextId) (gap : Option TypeGap) :
    Fills inference bound (gap.toList.map (·.host.id)) gap.toList []
      ((a.fill inference gap).1.elim [] Tree.marks) a (a.fill inference gap).2 := by
  match gap with
  | none => exact ⟨by simp [Annotator.fill], rfl, by simp, Nat.le_refl _, fun _ _ _ => rfl,
      nodup_nil, by simp [Annotator.fill]⟩
  | some g =>
    have own : ∀ g' ∈ [g], g'.host.id ∈ [g].map (·.host.id) := fun _ => mem_map_of_mem
    cases answer : g.answer inference with
    | none =>
      simp only [Annotator.fill, answer]
      exact ⟨by cases miss : g.miss? inference <;> simp [miss], rfl, own, Nat.le_refl _,
        fun _ _ _ => rfl, nodup_nil, by simp⟩
    | some t =>
      simp only [Annotator.fill, answer]
      let c := { a.context with inferred := (g.host.id, inference g.host.id) :: a.context.inferred }
      have numbers := t.renumbered_number a.context.nextId
      have new : ∀ m ∈ (c.adopt t).2.marks, a.context.nextId ≤ m.id ∧
          m.id < (t.number a.context.nextId).2 := fun m hm => by
        have mem : m.id ∈ List.range' a.context.nextId t.marks.length :=
          numbers.ids ▸ mem_map_of_mem hm
        rw [numbers.next]
        exact mem_range'_1.1 mem
      obtain ⟨inferred, next'⟩ := context_markAll (c.adopt t).2.ids
        { c with nextId := (t.number a.context.nextId).2 }
      exact {
        misses := by simp [miss?_of_answer answer]
        inferred := inferred
        hosts := own
        next := Nat.le_trans numbers.le_next (Nat.le_of_eq next'.symm)
        visited := fun i hi _ => by
          have same := wasVisited_markAll (c.adopt t).2.ids
            { c with nextId := (t.number a.context.nextId).2 } i
          have other : i ∉ (c.adopt t).2.ids := fun mem => by
            obtain ⟨m, hm, rfl⟩ := mem_map.1 (mem_filter.1 mem).1
            have := (new m hm).1
            omega
          simp only [other, or_false] at same
          exact Bool.eq_iff_iff.2 same
        distinct := numbers.ids ▸ nodup_range'
        ids := fun m hm => .inr (next' ▸ new m hm) }

/-- What is attached for a gap is a numbered copy of the answer. -/
theorem renumber_fill (gap : Option TypeGap) (f : Nat → Nat)
    (hf : ∀ i, a.context.nextId ≤ i → f i = 0) :
    (a.fill inference gap).1.map (Tree.renumber f) =
      (gap.bind (TypeGap.answer inference)).map Tree.detach := by
  match gap with
  | none => rfl
  | some g =>
    rw [Annotator.fill, Option.bind_some]
    cases g.answer inference with
    | none => rfl
    | some t => exact congrArg some (t.renumber_number hf)

theorem gap_of_fill {gap} (h : (a.fill inference gap).1.isSome) : gap.isSome := by
  cases gap with
  | none => cases h
  | some g => rfl

/-- Among the nodes to come, those dealt with now are held. -/
theorem Before.visit {ids : List Nat} (h : Before bound held ms a)
    (same : ∀ m ∈ ms, m.id ∈ held' ↔ m.id ∈ held ∨ m.id ∈ ids) :
    Before bound held' ms (a.visit ids) where
  next := (context_markAll ids a.context).2 ▸ h.next
  below := h.below
  distinct := h.distinct
  visited m hm := by
    rw [same m hm, ← h.visited m hm]
    exact wasVisited_markAll ids a.context m.id
  unasked m hm := (context_markAll ids a.context).1 ▸ h.unasked m hm

end Annotator

/-! ### Whole trees -/

/-- The numbers below a bound; others count as none. -/
def numberBelow (bound i : Nat) : Nat := if i < bound then i else 0

/-- Fills in the missing types of several trees. -/
def Children.annotate (inference : Nat → Option TypeExpr) {cs : List Category} (ts : Children cs) :
    Annotating (Children cs) :=
  Results.sequence (ts.fold (X := fun c => Annotating (Tree c)) fun form marks children acts => do
    let missing ← Annotating.missingType inference (.node form marks children)
    let tree := Tree.node form marks (← Results.sequence acts)
    return (missing.map fun t => Tree.fillType t tree).getD tree)

variable {c : Category} {exempt : Bool} {form : Form c} {marks : Marks form.width}
  {ts ts' : Children form.arity} {missing : Option TypeExpr}

theorem Tree.annotate_node (inference : Nat → Option TypeExpr) (form : Form c)
    (marks : Marks form.width) (ts : Children form.arity) (a : Annotator) :
    ((Tree.node form marks ts).annotate inference).run a =
      let (missing, a₁) := (Annotating.missingType inference (.node form marks ts)).run a
      let (ts', a') := (ts.annotate inference).run a₁
      ((missing.map fun t => Tree.fillType t (.node form marks ts')).getD (.node form marks ts'), a')
      := by
  rw [Tree.annotate, Tree.fold]
  rfl

theorem Children.annotate_cons {cs : List Category} (inference : Nat → Option TypeExpr) (t : Tree c)
    (ts : Children cs) (a : Annotator) :
    ((Children.cons t ts).annotate inference).run a =
      let (t', a₁) := (t.annotate inference).run a
      let (ts', a') := (ts.annotate inference).run a₁
      (.cons t' ts', a') := by
  rw [Children.annotate, Children.fold]
  rfl

theorem Marks.renumber_below {n bound} {marks : Marks n}
    (below : ∀ m ∈ marks.toList, m.id < bound) : marks.renumber (numberBelow bound) = marks :=
  (Marks.renumber_congr fun m hm => if_pos (below m hm)).trans marks.renumber_same

theorem Tree.mem_hosts {t : Tree c} {i} (h : i ∈ t.hosts) : i ∈ t.marks.map Mark.id := by
  match t with
  | .node form marks ts =>
    rw [marks_node, map_append, mem_append]
    by_cases own : i ∈ marks.toList.map Mark.id
    · exact .inl own
    · have held : i ∈ ts.held ((Tree.node form marks ts).exempts false) :=
        (held_parts own).2 (.inr h)
      exact .inr (Children.mem_held held)

theorem Tree.mem_gap {i} (h : i ∈ ((Tree.node form marks ts).gap? exempt).toList.map (·.host.id)) :
    i ∈ marks.toList.map Mark.id := by
  obtain ⟨g, hg, rfl⟩ := mem_map.1 h
  exact mem_map_of_mem ((slot_of_gap (Option.mem_toList.1 hg)).1)

/-- The tree that a run leaves, its parts annotated and its own gap filled if there is an answer. -/
theorem Tree.renumber_filled {inference bound} (below : ∀ m ∈ marks.toList, m.id < bound)
    (own : missing.map (Tree.renumber (numberBelow bound)) =
      (((Tree.node form marks ts).gap? exempt).bind (TypeGap.answer inference)).map Tree.detach)
    (parts : ts'.renumber (numberBelow bound) =
      ts.complete inference ((Tree.node form marks ts).exempts exempt)) :
    ((missing.map fun x => Tree.fillType x (.node form marks ts')).getD
      (.node form marks ts')).renumber (numberBelow bound) =
        (Tree.node form marks ts).complete inference exempt := by
  rw [Tree.complete]
  cases missing with
  | none =>
    rw [Option.map_none] at own
    rw [Option.map_eq_none_iff.1 own.symm]
    simp only [Option.map_none, Option.getD_none, renumber_node, Marks.renumber_below below,
      parts]
  | some x =>
    obtain ⟨answer, found, same⟩ := Option.map_eq_some_iff.1 own.symm
    rw [found]
    simp only [Option.map_some, Option.getD_some, renumber_fillType, renumber_node,
      Marks.renumber_below below, parts, same]

theorem Tree.marks_filled (gap : missing.isSome → ((Tree.node form marks ts).gap? exempt).isSome)
    (same : ts.SameForms ts') :
    ((missing.map fun x => Tree.fillType x (.node form marks ts')).getD
      (.node form marks ts')).marks.Perm
        (marks.toList ++ missing.elim [] Tree.marks ++ ts'.marks) := by
  cases missing with
  | none => simp
  | some x =>
    obtain ⟨g, found⟩ := Option.isSome_iff_exists.1 (gap rfl)
    exact (marks_fillType x found same).trans (perm_append_comm.append_right _)

mutual

/-- **A walk over a tree.**  From a state in which the walk is yet to come to the nodes of a tree,
it fills in exactly the tree's gaps. -/
theorem Tree.run_annotate (inference : Nat → Option TypeExpr) {bound : Nat} : {c : Category} →
    (t : Tree c) → {exempt : Bool} → {a : Annotator} →
    a.Before bound (t.held exempt) t.marks →
    ∃ t' a', (t.annotate inference).run a = (t', a') ∧ t'.form = t.form ∧
      t'.renumber (numberBelow bound) = t.complete inference exempt ∧
      Annotator.Fills inference bound (t.marks.map Mark.id) (t.gaps exempt) t.marks t'.marks a a'
  | _, .node form marks ts, exempt, a, h => by
    rw [marks_node] at h
    have distinct : (marks.toList.map Mark.id ++ ts.marks.map Mark.id).Nodup :=
      map_append ▸ h.distinct
    obtain ⟨ownDistinct, -, apart⟩ := nodup_append.1 distinct
    have other : ∀ m ∈ ts.marks, m.id ∉ marks.toList.map Mark.id := fun m hm own =>
      apart _ own _ (mem_map_of_mem hm) rfl
    let t := Tree.node form marks ts
    let r := (a.visit t.hosts).fill inference (t.gap? exempt)
    have asks : (Annotating.missingType inference t).run a = r :=
      Annotating.run_missingType (fun m hm => h.visited m (mem_append_left _ hm))
        (fun m hm => h.unasked m (mem_append_left _ hm))
    have visits : Annotator.Fills inference bound t.hosts [] marks.toList marks.toList a
        (a.visit t.hosts) := .visit ownDistinct t.hosts
    have next := Nat.le_trans h.next visits.next
    have fills : Annotator.Fills inference bound _ _ [] (r.1.elim [] Tree.marks) _ r.2 :=
      .fill next (t.gap? exempt)
    have before : r.2.Before bound (ts.held (t.exempts exempt)) ts.marks :=
      ((h.right fun _ _ => Iff.rfl).visit fun m hm => held_parts (other m hm)).elsewhere fills
        fun m hm mem => other m hm (mem_gap mem)
    obtain ⟨ts', a', run, same, complete, parts⟩ := ts.run_annotate inference before
    have below : ∀ m ∈ marks.toList, m.id < bound := fun m hm =>
      h.below m (mem_append_left _ hm)
    refine ⟨(r.1.map fun x => Tree.fillType x (.node form marks ts')).getD (.node form marks ts'),
      a', ?_, ?_, ?_, ?_⟩
    · rw [annotate_node, asks]
      exact congrArg (fun p => ((r.1.map fun x => Tree.fillType x (.node form marks p.1)).getD
        (.node form marks p.1), p.2)) run
    · cases r.1 with
      | none => rfl
      | some x => exact form_fillType x (.node form marks ts')
    · exact renumber_filled below (Annotator.renumber_fill _ _ fun i hi =>
        if_neg (Nat.not_lt.2 (Nat.le_trans next hi))) complete
    · have own := visits.append h.next (append_nil _ ▸ below) (append_nil _ ▸ ownDistinct)
        fills
      rw [append_nil] at own
      have all := (own.append h.next h.below h.distinct parts).perm
        (marks_filled Annotator.gap_of_fill same)
      rw [marks_node, Tree.gaps]
      refine all.mono fun i hi => ?_
      rw [map_append]
      rcases mem_append.1 hi with hi | hi
      · rcases mem_append.1 hi with hi | hi
        · exact map_append ▸ marks_node form marks ts ▸ mem_hosts hi
        · exact mem_append_left _ (mem_gap hi)
      · exact mem_append_right _ hi

theorem Children.run_annotate (inference : Nat → Option TypeExpr) {bound : Nat} :
    {cs : List Category} → (ts : Children cs) → {exempt : Category → Bool} → {a : Annotator} →
    a.Before bound (ts.held exempt) ts.marks →
    ∃ ts' a', (ts.annotate inference).run a = (ts', a') ∧ ts.SameForms ts' ∧
      ts'.renumber (numberBelow bound) = ts.complete inference exempt ∧
      Annotator.Fills inference bound (ts.marks.map Mark.id) (ts.gaps exempt) ts.marks ts'.marks a a'
  | _, .nil, _, a, _ => by
    rw [Children.marks_nil, Children.complete, Children.gaps]
    have idle : Annotator.Fills inference bound [] [] [] [] a (a.visit []) := .visit (by simp) []
    exact ⟨.nil, a, by rw [Children.annotate, Children.fold]; rfl, .nil, Children.renumber_nil,
      Children.marks_nil.symm ▸ idle⟩
  | _, .cons t ts, exempt, a, h => by
    rw [Children.marks_cons] at h
    have distinct : (t.marks.map Mark.id ++ ts.marks.map Mark.id).Nodup :=
      map_append ▸ h.distinct
    obtain ⟨-, -, apart⟩ := nodup_append.1 distinct
    have other : ∀ m ∈ ts.marks, m.id ∉ t.marks.map Mark.id := fun m hm own =>
      apart _ own _ (mem_map_of_mem hm) rfl
    have other' : ∀ m ∈ t.marks, m.id ∉ ts.marks.map Mark.id := fun m hm own =>
      apart _ (mem_map_of_mem hm) _ own rfl
    obtain ⟨t', a₁, run, form, complete, head⟩ := t.run_annotate inference (h.left fun m hm =>
      ⟨fun mem => (mem_append.1 mem).resolve_right fun own => other' m hm (Children.mem_held own),
        mem_append_left _⟩)
    obtain ⟨ts', a', runs, forms, completes, rest⟩ := ts.run_annotate inference ((h.right fun m hm =>
      ⟨fun mem => (mem_append.1 mem).resolve_left fun own => other m hm (mem_held own),
        mem_append_right _⟩).elsewhere head other)
    refine ⟨.cons t' ts', a', ?_, .cons form forms, ?_, ?_⟩
    · rw [Children.annotate_cons, run]
      exact congrArg (fun r => (Children.cons t' r.1, r.2)) runs
    · rw [Children.renumber_cons, complete, completes, Children.complete]
    · rw [Children.marks_cons, Children.marks_cons, Children.gaps, map_append]
      exact head.append h.next h.below h.distinct rest

end

end Reify
