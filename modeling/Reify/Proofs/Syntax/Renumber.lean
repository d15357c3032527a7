import Reify.Proofs.Syntax.Tree

/-!
# Renumbering trees

`Tree.renumber f` gives the node numbered `i` the number `f i` and changes nothing else.  A tree is
detached by giving every node the number 0, and numbering a tree is undone by any renumbering that
takes the new numbers back to 0 (`Tree.renumber_number`).
-/

namespace Reify

open List Tree

variable {f g : Nat → Nat}

/-! ### Renumbering -/

/-- Gives a mark another number. -/
def Mark.renumber (f : Nat → Nat) (m : Mark) : Mark := { m with id := f m.id }

@[simp] theorem Mark.renumber_loc (f : Nat → Nat) (m : Mark) : (m.renumber f).loc = m.loc := rfl

/-- Renumbers the marks of one form. -/
def Marks.renumber (f : Nat → Nat) : {n : Nat} → Marks n → Marks n
  | _, .none => .none
  | _, .one m => .one (m.renumber f)
  | _, .two s => .two ⟨s.slot.renumber f, s.form.renumber f⟩

mutual

/-- Renumbers the nodes of a tree. -/
def Tree.renumber (f : Nat → Nat) : {c : Category} → Tree c → Tree c
  | _, .node form marks ts => .node form (marks.renumber f) (ts.renumber f)

/-- Renumbers the nodes of several trees. -/
def Children.renumber (f : Nat → Nat) : {cs : List Category} → Children cs → Children cs
  | _, .nil => .nil
  | _, .cons t ts => .cons (t.renumber f) (ts.renumber f)

end

@[simp] theorem Tree.renumber_node {c} (form : Form c) (marks : Marks form.width)
    (ts : Children form.arity) :
    (Tree.node form marks ts).renumber f = .node form (marks.renumber f) (ts.renumber f) := by
  rw [Tree.renumber]

@[simp] theorem Children.renumber_nil : Children.nil.renumber f = .nil := by rw [Children.renumber]

@[simp] theorem Children.renumber_cons {c cs} (t : Tree c) (ts : Children cs) :
    (Children.cons t ts).renumber f = .cons (t.renumber f) (ts.renumber f) := by
  rw [Children.renumber]

namespace Marks

variable {n : Nat}

theorem toList_renumber (f : Nat → Nat) (marks : Marks n) :
    (marks.renumber f).toList = marks.toList.map (Mark.renumber f) := by
  cases marks <;> rfl

theorem renumber_renumber (marks : Marks n) :
    (marks.renumber g).renumber f = marks.renumber (f ∘ g) := by
  cases marks <;> rfl

theorem renumber_same (marks : Marks n) : marks.renumber id = marks := by
  cases marks <;> rfl

theorem first_renumber (hf : f 0 = 0) (marks : Marks n) :
    (marks.renumber f).first = marks.first.renumber f := by
  cases marks with
  | none =>
    change Mark.mk 0 {} = Mark.mk (f 0) {}
    rw [hf]
  | _ => rfl

theorem renumber_congr {marks : Marks n} (h : ∀ m ∈ marks.toList, f m.id = g m.id) :
    marks.renumber f = marks.renumber g := by
  cases marks <;> simp_all [Marks.renumber, Marks.toList, Mark.renumber]

end Marks

mutual

theorem Tree.marks_renumber (f : Nat → Nat) : {c : Category} → (t : Tree c) →
    (t.renumber f).marks = t.marks.map (Mark.renumber f)
  | _, .node form marks ts => by
    rw [renumber_node, marks_node, marks_node, marks.toList_renumber,
      ts.marks_renumber f, map_append]

theorem Children.marks_renumber (f : Nat → Nat) : {cs : List Category} → (ts : Children cs) →
    (ts.renumber f).marks = ts.marks.map (Mark.renumber f)
  | _, .nil => by simp
  | _, .cons t ts => by
    rw [Children.renumber_cons, Children.marks_cons, Children.marks_cons, t.marks_renumber f,
      ts.marks_renumber f, map_append]

end

mutual

/-- Only the numbers that occur in a tree matter. -/
theorem Tree.renumber_congr : {c : Category} → {t : Tree c} →
    (∀ m ∈ t.marks, f m.id = g m.id) → t.renumber f = t.renumber g
  | _, .node form marks ts, h => by
    rw [marks_node, forall_mem_append] at h
    rw [renumber_node, renumber_node, Marks.renumber_congr h.1,
      Children.renumber_congr h.2]

theorem Children.renumber_congr : {cs : List Category} → {ts : Children cs} →
    (∀ m ∈ ts.marks, f m.id = g m.id) → ts.renumber f = ts.renumber g
  | _, .nil, _ => by simp
  | _, .cons t ts, h => by
    rw [Children.marks_cons, forall_mem_append] at h
    rw [Children.renumber_cons, Children.renumber_cons, Tree.renumber_congr h.1,
      Children.renumber_congr h.2]

end

mutual

theorem Tree.renumber_renumber : {c : Category} → (t : Tree c) →
    (t.renumber g).renumber f = t.renumber (f ∘ g)
  | _, .node form marks ts => by
    rw [renumber_node, renumber_node, renumber_node, ts.renumber_renumber,
      marks.renumber_renumber]

theorem Children.renumber_renumber : {cs : List Category} → (ts : Children cs) →
    (ts.renumber g).renumber f = ts.renumber (f ∘ g)
  | _, .nil => by simp
  | _, .cons t ts => by
    rw [Children.renumber_cons, Children.renumber_cons, Children.renumber_cons, t.renumber_renumber,
      ts.renumber_renumber]

end

mutual

theorem Tree.renumber_same : {c : Category} → (t : Tree c) → t.renumber id = t
  | _, .node form marks ts => by
    rw [renumber_node, ts.renumber_same, marks.renumber_same]

theorem Children.renumber_same : {cs : List Category} → (ts : Children cs) → ts.renumber id = ts
  | _, .nil => by simp
  | _, .cons t ts => by rw [Children.renumber_cons, t.renumber_same, ts.renumber_same]

end

/-- A renumbering that keeps the numbers of a tree keeps the tree. -/
theorem Tree.renumber_eq_self {c} {t : Tree c} (h : ∀ m ∈ t.marks, f m.id = m.id) :
    t.renumber f = t :=
  (renumber_congr h).trans t.renumber_same

/-! ### Parts -/

namespace Tree

variable {c : Category}

@[simp] theorem form_renumber (t : Tree c) : (t.renumber f).form = t.form := by
  match t with
  | .node _ _ _ => rw [renumber_node]; rfl

@[simp] theorem mark_renumber (hf : f 0 = 0) (t : Tree c) :
    (t.renumber f).mark = t.mark.renumber f := by
  match t with
  | .node _ marks _ =>
    rw [renumber_node]
    exact marks.first_renumber hf

end Tree

theorem Children.toList_renumber {c n} (ts : Children (List.replicate n c)) :
    (ts.renumber f).toList = ts.toList.map (Tree.renumber f) := by
  induction n with
  | zero =>
    cases ts
    rfl
  | succ n ih =>
    match ts with
    | .cons t ts =>
      rw [Children.toList, map_cons, ← ih]
      exact congrArg (Children.toList (n := n + 1)) (Children.renumber_cons t ts)

namespace Tree

variable {c : Category}

@[simp] theorem toList_renumber (t : Many c) : (t.renumber f).toList = t.toList.map (renumber f) := by
  match t with
  | .node (c := .many _) n .none ts =>
    rw [renumber_node]
    exact ts.toList_renumber

@[simp] theorem renumber_ofList (ts : List (Tree c)) :
    (ofList ts).renumber f = ofList (ts.map (renumber f)) := by
  rw [← ofList_toList ((ofList ts).renumber f), toList_renumber, toList_ofList]

@[simp] theorem toOption_renumber (t : Maybe c) :
    (t.renumber f).toOption = t.toOption.map (renumber f) := by
  match t with
  | .node (c := .maybe _) false .none .nil => rw [renumber_node, Children.renumber_nil]; rfl
  | .node (c := .maybe _) true .none (.cons t .nil) =>
    rw [renumber_node, Children.renumber_cons, Children.renumber_nil]
    rfl

@[simp] theorem renumber_ofOption (t : Option (Tree c)) :
    (ofOption t).renumber f = ofOption (t.map (renumber f)) := by
  rw [← ofOption_toOption ((ofOption t).renumber f), toOption_renumber, toOption_ofOption]

@[simp] theorem toLists_renumber (t : Maybe (.many c)) :
    (t.renumber f).toLists = t.toLists.map (renumber f) := by
  rw [toLists, toLists, toOption_renumber]
  cases t.toOption with
  | none => rfl
  | some ts => exact toList_renumber ts

end Tree

@[simp] theorem TypeParam.name_renumber :
    (p : TypeParam) → TypeParam.name (p.renumber f) = TypeParam.name p
  | TypeParam.mk _ _ _ _ => rfl

/-! ### Trees without marks -/

/-- The marks of nodes that are read from a text. -/
def Marks.cleared : {n : Nat} → Marks n → Marks n
  | _, .none => .none
  | _, .one _ => .one {}
  | _, .two _ => .two {}

/-- Trees as the parts of another. -/
def Results.toChildren : {cs : List Category} → Results Tree cs → Children cs
  | [], () => .nil
  | _ :: _, (t, ts) => .cons t (toChildren ts)

/-- The tree with blank marks. -/
def Tree.bare {c : Category} (t : Tree c) : Tree c :=
  t.fold fun form marks _ parts => .node form marks.cleared parts.toChildren

theorem Marks.cleared_eq {n} (m m' : Marks n) : m.cleared = m'.cleared := by
  cases m with
  | _ =>
    cases m'
    rfl

mutual

theorem Tree.bare_renumber (f : Nat → Nat) : {c : Category} → (t : Tree c) →
    (t.renumber f).bare = t.bare
  | _, .node form marks ts => by
    have parts := ts.bare_renumber f
    rw [renumber_node, bare, fold, parts, Marks.cleared_eq _ marks]
    rfl

theorem Children.bare_renumber (f : Nat → Nat) : {cs : List Category} → (ts : Children cs) →
    ((ts.renumber f).fold fun form marks _ parts =>
        Tree.node form marks.cleared parts.toChildren).toChildren =
      (ts.fold fun form marks _ parts => Tree.node form marks.cleared parts.toChildren).toChildren
  | _, .nil => by rw [Children.renumber_nil]
  | _, .cons t ts => by
    have head := t.bare_renumber f
    have tail := ts.bare_renumber f
    rw [Children.renumber_cons]
    change Children.cons (t.renumber f).bare _ = Children.cons t.bare _
    rw [head, tail]

end

/-! ### Detached copies and numbered ones -/

theorem Marks.detach_eq {n} (marks : Marks n) :
    Id.run (marks.visit fun mark => pure { mark with id := 0 }) = marks.renumber fun _ => 0 := by
  cases marks <;> rfl

mutual

theorem Tree.detach_eq : {c : Category} → (t : Tree c) → t.detach = t.renumber fun _ => 0
  | _, .node form marks ts => by
    rw [renumber_node, ← ts.detach_eq, ← marks.detach_eq, Tree.detach, Tree.visit]
    rfl

theorem Children.detach_eq : {cs : List Category} → (ts : Children cs) →
    Id.run (ts.visit fun mark => pure { mark with id := 0 }) = ts.renumber fun _ => 0
  | _, .nil => by simp [Children.visit]
  | _, .cons t ts => by
    rw [Children.renumber_cons, ← t.detach_eq, ← ts.detach_eq, Children.visit]
    rfl

end

/-- Detaching forgets every renumbering. -/
@[simp] theorem Tree.detach_renumber {c} (t : Tree c) : (t.renumber f).detach = t.detach := by
  rw [detach_eq, detach_eq, renumber_renumber]
  rfl

/-- A tree made by the program is its own detached copy. -/
theorem Tree.Synthetic.detach {c} {t : Tree c} (h : t.Synthetic) : t.detach = t := by
  rw [detach_eq]
  exact renumber_eq_self fun m hm => (h m hm).symm

/-- A renumbering that keeps 0 keeps trees made by the program. -/
theorem Tree.Synthetic.renumber {c} {t : Tree c} (hf : f 0 = 0) (h : t.Synthetic) :
    t.renumber f = t :=
  renumber_eq_self fun m hm => by rw [h m hm, hf]

/-! ### Copies -/

theorem Mark.renumber_eq {m m' : Mark}
    (same : m.renumber (fun _ => 0) = m'.renumber fun _ => 0) (id : f m.id = m'.id) :
    m.renumber f = m' := by
  have loc : (m.renumber fun _ => 0).loc = (m'.renumber fun _ => 0).loc := congrArg Mark.loc same
  obtain ⟨i, l⟩ := m
  obtain ⟨i', l'⟩ := m'
  cases loc
  cases id
  rfl

theorem Marks.renumber_eq {n} {marks marks' : Marks n}
    (same : marks.renumber (fun _ => 0) = marks'.renumber fun _ => 0)
    (ids : (marks.toList.map Mark.id).map f = marks'.toList.map Mark.id) :
    marks.renumber f = marks' := by
  cases marks with
  | none =>
    cases marks'
    rfl
  | one m =>
    cases marks' with
    | one m' =>
      have id : f m.id = m'.id := (List.cons.inj ids).1
      exact congrArg Marks.one (Mark.renumber_eq (Marks.one.inj same) id)
  | two s =>
    cases marks' with
    | _ =>
      obtain ⟨slot, rest⟩ := List.cons.inj ids
      obtain ⟨form, -⟩ := List.cons.inj rest
      have sites := Marks.two.inj same
      rw [Marks.renumber, Mark.renumber_eq (congrArg Site.slot sites) slot,
        Mark.renumber_eq (congrArg Site.form sites) form]

theorem Marks.length_toList {n} (marks : Marks n) : marks.toList.length = n := by
  cases marks <;> rfl

mutual

/-- A copy of a tree is the tree, renumbered. -/
theorem Tree.renumber_eq : {c : Category} → {t t' : Tree c} →
    (t.renumber fun _ => 0) = (t'.renumber fun _ => 0) →
    (t.marks.map Mark.id).map f = t'.marks.map Mark.id → t.renumber f = t'
  | _, .node form marks ts, .node form' marks' ts', same, ids => by
    rw [renumber_node, renumber_node] at same
    injection same with _ forms sameMarks sameParts
    cases forms
    rw [marks_node, marks_node, map_append, map_append, map_append] at ids
    have width : ((marks.toList.map Mark.id).map f).length = (marks'.toList.map Mark.id).length := by
      simp only [length_map, Marks.length_toList]
    obtain ⟨own, parts⟩ := append_inj ids width
    rw [renumber_node, Marks.renumber_eq (eq_of_heq sameMarks) own,
      Children.renumber_eq (eq_of_heq sameParts) parts]

theorem Children.renumber_eq : {cs : List Category} → {ts ts' : Children cs} →
    (ts.renumber fun _ => 0) = (ts'.renumber fun _ => 0) →
    (ts.marks.map Mark.id).map f = ts'.marks.map Mark.id → ts.renumber f = ts'
  | _, .nil, .nil, _, _ => Children.renumber_nil
  | _, .cons t ts, .cons t' ts', same, ids => by
    rw [Children.renumber_cons, Children.renumber_cons] at same
    injection same with _ _ head tail
    have size := congrArg (fun t => t.marks.length) head
    simp only [Tree.marks_renumber, length_map] at size
    rw [Children.marks_cons, Children.marks_cons, map_append, map_append,
      map_append] at ids
    obtain ⟨first, rest⟩ := append_inj ids (by simpa using size)
    rw [Children.renumber_cons, Tree.renumber_eq head first, Children.renumber_eq tail rest]

end

/-! ### Numbering -/

/-- What numbering the marks of trees from `n` on gives: consecutive numbers up to `n'`. -/
structure Renumbered (ms ms' : List Mark) (n n' : Nat) : Prop where
  next : n' = n + ms.length
  ids : ms'.map Mark.id = List.range' n ms.length

theorem Renumbered.le_next {ms ms' n n'} (h : Renumbered ms ms' n n') : n ≤ n' :=
  h.next ▸ Nat.le_add_right n _

theorem Renumbered.append {ms ms' ls ls' : List Mark} {n n₁ n' : Nat} (h : Renumbered ms ms' n n₁)
    (h' : Renumbered ls ls' n₁ n') : Renumbered (ms ++ ls) (ms' ++ ls') n n' where
  next := by rw [h'.next, h.next, length_append, Nat.add_assoc]
  ids := by
    rw [map_append, h.ids, h'.ids, h.next, length_append, List.range'_append_1]

theorem Marks.run_number {w} (marks : Marks w) (n : Nat) :
    Renumbered marks.toList ((marks.visit Tree.numberMark).run n).1.toList n
        ((marks.visit Tree.numberMark).run n).2 ∧
      ∀ f : Nat → Nat, (∀ i, n ≤ i → f i = 0) →
        ((marks.visit Tree.numberMark).run n).1.renumber f = marks.renumber fun _ => 0 := by
  cases marks with
  | none => exact ⟨⟨rfl, rfl⟩, fun _ _ => rfl⟩
  | one m =>
    refine ⟨⟨rfl, rfl⟩, fun f hf => ?_⟩
    change Marks.one ⟨f n, _⟩ = Marks.one ⟨0, _⟩
    rw [hf n (Nat.le_refl n)]
  | _ =>
    refine ⟨⟨rfl, rfl⟩, fun f hf => ?_⟩
    change Marks.two ⟨⟨f n, _⟩, ⟨f (n + 1), _⟩⟩ = Marks.two ⟨⟨0, _⟩, ⟨0, _⟩⟩
    rw [hf n (Nat.le_refl n), hf (n + 1) (Nat.le_succ n)]

mutual

theorem Tree.run_number : {c : Category} → (t : Tree c) → (n : Nat) →
    Renumbered t.marks ((t.visit Tree.numberMark).run n).1.marks n
        ((t.visit Tree.numberMark).run n).2 ∧
      ∀ f : Nat → Nat, (∀ i, n ≤ i → f i = 0) →
        ((t.visit Tree.numberMark).run n).1.renumber f = t.renumber fun _ => 0
  | _, .node form marks ts, n => by
    obtain ⟨own, sameMarks⟩ := marks.run_number n
    obtain ⟨parts, sameParts⟩ := ts.run_number ((marks.visit Tree.numberMark).run n).2
    rw [Tree.visit]
    refine ⟨?_, fun f hf => ?_⟩
    · rw [marks_node]
      exact (marks_node form _ _).symm ▸ own.append parts
    · have later : ∀ i, ((marks.visit Tree.numberMark).run n).2 ≤ i → f i = 0 := fun i hi =>
        hf i (Nat.le_trans own.le_next hi)
      rw [renumber_node, ← sameMarks f hf, ← sameParts f later]
      exact renumber_node form _ _

theorem Children.run_number : {cs : List Category} → (ts : Children cs) → (n : Nat) →
    Renumbered ts.marks ((ts.visit Tree.numberMark).run n).1.marks n
        ((ts.visit Tree.numberMark).run n).2 ∧
      ∀ f : Nat → Nat, (∀ i, n ≤ i → f i = 0) →
        ((ts.visit Tree.numberMark).run n).1.renumber f = ts.renumber fun _ => 0
  | _, .nil, n => by
    rw [Children.visit, Children.marks_nil, Children.renumber_nil]
    exact ⟨⟨rfl, congrArg (List.map Mark.id) Children.marks_nil⟩, fun f _ => Children.renumber_nil⟩
  | _, .cons t ts, n => by
    obtain ⟨head, sameHead⟩ := t.run_number n
    obtain ⟨tail, sameTail⟩ := ts.run_number ((t.visit Tree.numberMark).run n).2
    rw [Children.visit]
    refine ⟨?_, fun f hf => ?_⟩
    · rw [Children.marks_cons]
      exact (Children.marks_cons _ _).symm ▸ head.append tail
    · have later : ∀ i, ((t.visit Tree.numberMark).run n).2 ≤ i → f i = 0 := fun i hi =>
        hf i (Nat.le_trans head.le_next hi)
      rw [Children.renumber_cons, ← sameHead f hf, ← sameTail f later]
      exact Children.renumber_cons _ _

end

/-- The numbers of a numbered tree. -/
theorem Tree.renumbered_number {c} (t : Tree c) (n : Nat) :
    Renumbered t.marks (t.number n).1.marks n (t.number n).2 :=
  (t.run_number n).1

/-- Numbering is undone by taking the new numbers back to 0. -/
theorem Tree.renumber_number {c} (t : Tree c) {n} (hf : ∀ i, n ≤ i → f i = 0) :
    (t.number n).1.renumber f = t.detach :=
  ((t.run_number n).2 f hf).trans t.detach_eq.symm

/-! ### The largest number -/

theorem le_foldl_max (ids : List Nat) (n : Nat) :
    n ≤ ids.foldl max n ∧ ∀ i ∈ ids, i ≤ ids.foldl max n := by
  induction ids generalizing n with
  | nil => exact ⟨Nat.le_refl n, by simp⟩
  | cons j ids ih =>
    obtain ⟨start, rest⟩ := ih (max n j)
    rw [foldl_cons]
    refine ⟨by omega, fun i hi => ?_⟩
    rcases mem_cons.1 hi with rfl | hi
    · omega
    · exact rest i hi

end Reify
