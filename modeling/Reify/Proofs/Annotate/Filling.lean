import Reify.Proofs.Annotate.Gaps

/-!
# Filling gaps

What the walk that fills in types does at one node.  It deals with every node once, by its number.
When it comes to a node that it has not dealt with, or only as the function of an exempt member, it
asks for exactly the node's own gap (`Annotating.run_missingType`).  What it then has dealt with
among the parts are the functions of exempt members again (`Tree.held_parts`).
-/

namespace Reify

open List

/-! ### One node -/

namespace Annotator

/-- Counts nodes as dealt with. -/
def visit (a : Annotator) (ids : List Nat) : Annotator :=
  { a with context := ids.foldl Context.markVisited a.context }

theorem context_markVisited (c : Context) (i : Nat) :
    (c.markVisited i).inferred = c.inferred ∧ (c.markVisited i).nextId = c.nextId := by
  unfold Context.markVisited
  split <;> exact ⟨rfl, rfl⟩

theorem context_markAll (ids : List Nat) (c : Context) :
    (ids.foldl Context.markVisited c).inferred = c.inferred ∧
      (ids.foldl Context.markVisited c).nextId = c.nextId := by
  induction ids generalizing c with
  | nil => exact ⟨rfl, rfl⟩
  | cons i ids ih =>
    obtain ⟨inferred, next⟩ := ih (c.markVisited i)
    obtain ⟨inferred', next'⟩ := context_markVisited c i
    exact ⟨inferred.trans inferred', next.trans next'⟩

/-- Asks for the type of a gap and attaches the answer, or reports that there is none. -/
def fill (inference : Nat → Option TypeExpr) (a : Annotator) :
    Option TypeGap → Option TypeExpr × Annotator
  | none => (none, a)
  | some g =>
    let c := { a.context with
      inferred := (g.host.id, inference g.host.id) :: a.context.inferred }
    match g.answer inference with
    | some t => (some (c.adopt t).2, { a with context := (c.adopt t).1 })
    | none => (none, { context := c, misses := a.misses ++ (g.miss? inference).toList })

end Annotator

variable {mark : Mark} {slot : Maybe .type} {exempt : Bool} {c : Category} {form : Form c}
  {marks : Marks form.width} {ts : Children form.arity} {i : Nat}

namespace Annotating

variable {inference : Nat → Option TypeExpr} {a : Annotator}

theorem run_infer {id} (asked : a.context.inferred.lookup id = none) :
    (infer inference id).run a =
      (inference id, { a with context := { a.context with
        inferred := (id, inference id) :: a.context.inferred } }) := by
  have first : a.context.inferType inference id =
      ({ a.context with inferred := (id, inference id) :: a.context.inferred }, inference id) := by
    rw [Context.inferType, asked]
  change ((a.context.inferType inference id).2,
    { a with context := (a.context.inferType inference id).1 }) = _
  rw [first]

theorem run_bindingType {name} (asked : a.context.inferred.lookup mark.id = none) :
    (bindingType inference mark name slot).run a =
      a.fill inference (Tree.gapIn slot (.binding mark name)) := by
  match slot with
  | .present t => rfl
  | .absent =>
    change StateT.run (infer inference mark.id >>= _) a = a.fill inference (some (.binding mark name))
    rw [StateT.run_bind, run_infer asked]
    cases answer : inference mark.id with
    | none => simp [Annotator.fill, TypeGap.answer, TypeGap.miss?, TypeGap.host, answer]; rfl
    | some t => simp [Annotator.fill, TypeGap.answer, TypeGap.host, answer]; rfl

theorem run_resultType (asked : a.context.inferred.lookup mark.id = none) :
    (resultType inference mark.id slot).run a =
      a.fill inference (Tree.gapIn slot (.result mark)) := by
  match slot with
  | .present t => rfl
  | .absent =>
    change StateT.run (infer inference mark.id >>= _) a = a.fill inference (some (.result mark))
    rw [StateT.run_bind, run_infer asked]
    cases answer : inference mark.id with
    | none => simp [Annotator.fill, TypeGap.answer, TypeGap.miss?, TypeGap.host, answer]; rfl
    | some t => simp [Annotator.fill, TypeGap.answer, TypeGap.host, answer]; rfl

theorem run_firstVisit {α : Type} (id : Nat) (k : Bool → Annotating α) :
    (firstVisit id >>= k).run a = (k (!a.context.wasVisited id)).run (a.visit [id]) := rfl

/-- What is filled in at a node that the walk comes to for the first time. -/
theorem run_missingType (fresh : ∀ m ∈ marks.toList, a.context.wasVisited m.id = true ↔
      m.id ∈ (Tree.node form marks ts).held exempt)
    (asked : ∀ m ∈ marks.toList, a.context.inferred.lookup m.id = none) :
    (missingType inference (.node form marks ts)).run a =
      (a.visit (Tree.node form marks ts).hosts).fill inference
        ((Tree.node form marks ts).gap? exempt) := by
  have unasked (ids : List Nat) : ∀ m ∈ marks.toList,
      (a.visit ids).context.inferred.lookup m.id = none := fun m hm =>
    (Annotator.context_markAll ids a.context).1 ▸ asked m hm
  cases c with
  | param =>
    obtain _ | mark := marks
    obtain _ | ⟨decorators, _ | ⟨binding, _ | ⟨type, _ | ⟨default, _ | _⟩⟩⟩⟩ := ts
    have first : a.context.wasVisited mark.id = false := by
      simpa [Marks.toList, Tree.held] using fresh
    change StateT.run (firstVisit mark.id >>= _) a = _
    rw [run_firstVisit, first]
    let p := Param.mk mark form decorators binding type default
    change StateT.run (if Param.isReceiver p then pure none else bindingType _ _ _ _) _ =
      Annotator.fill _ (a.visit [mark.id]) (if Param.isReceiver p then none else _)
    split
    · rfl
    · exact run_bindingType (unasked _ mark (mem_singleton.2 rfl))
  | declarator =>
    obtain _ | mark := marks
    obtain _ | ⟨binding, _ | ⟨type, _ | ⟨init, _ | _⟩⟩⟩ := ts
    have first : a.context.wasVisited mark.id = false := by
      simpa [Marks.toList, Tree.held] using fresh
    change StateT.run (firstVisit mark.id >>= _) a = _
    rw [run_firstVisit, first]
    exact run_bindingType (unasked _ mark (mem_singleton.2 rfl))
  | classMember =>
    obtain _ | mark := marks
    obtain _ | ⟨decorators, _ | ⟨key, _ | ⟨type, _ | ⟨val, _ | _⟩⟩⟩⟩ := ts
    have first : a.context.wasVisited mark.id = false := by
      simpa [Marks.toList, Tree.held] using fresh
    change StateT.run (firstVisit mark.id >>= _) a = _
    rw [run_firstVisit, first]
    obtain ⟨kind, marks, ts⟩ := val
    cases kind with
    | function kind =>
      obtain _ | m := marks
      obtain _ | ⟨f, _ | _⟩ := ts
      let member := ClassMember.mk mark form decorators key type (MemberVal.function m kind f)
      have same : (ClassMember.isConstructor member ||
          MemberVal.isSetter (MemberVal.function m kind f)) =
          (decide (kind = .setter) || ClassMember.isConstructor member) := by
        rw [Bool.or_comm]
        cases kind <;> rfl
      change StateT.run (if decide (kind = .setter) || ClassMember.isConstructor member then _
        else _ : Annotating (Option TypeExpr)) _ = Annotator.fill _ (a.visit (mark.id ::
          Tree.held (ClassMember.isConstructor member || _) (MemberVal.function m kind f))) none
      rw [same]
      cases decide (kind = .setter) || ClassMember.isConstructor member <;> rfl
    | index =>
      obtain _ | m := marks
      obtain _ | ⟨_, _ | ⟨_, _ | _⟩⟩ := ts
      rfl
    | _ =>
      obtain ⟨⟩ := marks
      obtain _ | ⟨value, _ | _⟩ := ts
      exact run_bindingType (unasked _ mark (mem_singleton.2 rfl))
  | objMember =>
    cases form with
    | valued =>
      obtain _ | mark := marks
      obtain _ | ⟨key, _ | ⟨⟨kind, marks, ts⟩, _ | _⟩⟩ := ts
      cases kind with
      | function kind =>
        obtain _ | m := marks
        obtain _ | ⟨f, _ | _⟩ := ts
        cases kind <;> rfl
      | index =>
        obtain _ | m := marks
        obtain _ | ⟨_, _ | ⟨_, _ | _⟩⟩ := ts
        rfl
      | _ =>
        obtain ⟨⟩ := marks
        obtain _ | ⟨value, _ | _⟩ := ts
        rfl
    | shorthand | spread => rfl
  | typeMember =>
    obtain _ | _ | site := marks
    have own : site.form ∈ (Marks.two site).toList := mem_cons_of_mem _ mem_cons_self
    have first : a.context.wasVisited site.form.id = false := by
      simpa [Tree.held] using fresh _ own
    cases form with
    | property =>
      obtain _ | ⟨key, _ | ⟨type, _ | _⟩⟩ := ts
      change StateT.run (firstVisit site.form.id >>= _) a = _
      rw [run_firstVisit, first]
      exact run_bindingType (unasked _ _ own)
    | method =>
      obtain _ | ⟨key, _ | ⟨typeParams, _ | ⟨params, _ | ⟨result, _ | _⟩⟩⟩⟩ := ts
      change StateT.run (firstVisit site.form.id >>= _) a = _
      rw [run_firstVisit, first]
      exact run_resultType (unasked _ _ own)
    | index => rfl
    | _ =>
      obtain _ | ⟨typeParams, _ | ⟨params, _ | ⟨result, _ | _⟩⟩⟩ := ts
      change StateT.run (firstVisit site.form.id >>= _) a = _
      rw [run_firstVisit, first]
      exact run_resultType (unasked _ _ own)
  | func =>
    obtain _ | mark := marks
    obtain _ | ⟨typeParams, _ | ⟨params, _ | ⟨result, _ | ⟨body, _ | _⟩⟩⟩⟩ := ts
    have own : mark ∈ (Marks.one mark).toList := mem_singleton.2 rfl
    have first : a.context.wasVisited mark.id = exempt := by
      have visited : a.context.wasVisited mark.id = true ↔
        mark.id ∈ if exempt then [mark.id] else [] := fresh mark own
      cases exempt <;> simpa using visited
    change StateT.run (firstVisit mark.id >>= _) a = _
    rw [run_firstVisit, first]
    cases exempt with
    | true => rfl
    | false =>
      change StateT.run (if body.toOption.isNone then pure none else resultType _ _ _) _ =
        Annotator.fill _ (a.visit [mark.id]) (if body.toOption.isNone then none else _)
      split
      · rfl
      · exact run_resultType (unasked _ mark own)
  | _ => rfl

end Annotating

/-! ### Functions of exempt members -/

/-- Without exemptions nothing is held. -/
theorem Children.held_false : {cs : List Category} → (ts : Children cs) →
    ts.held (fun _ => false) = []
  | _, .nil => rfl
  | c :: _, .cons t ts => by
    have none : t.held false = [] := by
      cases c with
      | memberVal =>
        match t with
        | MemberVal.property _ | MemberVal.function _ _ _ | MemberVal.index _ _ _ _ => rfl
      | _ => rfl
    rw [Children.held, none, ts.held_false, append_nil]

theorem Tree.mem_held {t : Tree c} (h : i ∈ t.held exempt) : i ∈ t.marks.map Mark.id := by
  cases exempt with
  | false =>
    have none := Children.held_false (.cons t .nil)
    rw [Children.held, Children.held, append_nil] at none
    rw [none] at h
    cases h
  | true =>
    cases c with
    | func =>
      match t with
      | Func.mk mark _ _ _ _ _ =>
        obtain rfl : i = mark.id := mem_singleton.1 h
        rw [marks_node]
        exact mem_cons_self
    | memberVal =>
      match t with
      | MemberVal.function own kind (Func.mk mark _ _ _ _ _) =>
        obtain rfl : i = mark.id := mem_singleton.1 h
        rw [marks_node, Children.marks_cons, marks_node]
        exact mem_cons_of_mem _ mem_cons_self
    | _ => cases h

theorem Children.mem_held {exempt : Category → Bool} {i : Nat} : {cs : List Category} →
    {ts : Children cs} → i ∈ ts.held exempt → i ∈ ts.marks.map Mark.id
  | _, .nil, h => nomatch h
  | _, .cons t ts, h => by
    rw [Children.marks_cons, map_append]
    exact mem_append.2 ((mem_append.1 h).imp Tree.mem_held mem_held)

/-- What is held among the parts of a tree is what was held in the tree, or the tree deals with. -/
theorem Tree.held_parts (other : i ∉ marks.toList.map Mark.id) :
    i ∈ ts.held ((Tree.node form marks ts).exempts exempt) ↔
      i ∈ (Tree.node form marks ts).held exempt ∨ i ∈ (Tree.node form marks ts).hosts := by
  have none : i ∉ ts.held (fun _ => false) := ts.held_false ▸ not_mem_nil
  cases c with
  | classMember =>
    obtain _ | mark := marks
    obtain _ | ⟨decorators, _ | ⟨key, _ | ⟨type, _ | ⟨val, _ | _⟩⟩⟩⟩ := ts
    let m := ClassMember.mk mark form decorators key type val
    change i ∈ val.held (ClassMember.isConstructor m || MemberVal.isSetter val) ++ [] ↔
      i ∈ [] ∨ i ∈ mark.id :: val.held (ClassMember.isConstructor m || MemberVal.isSetter val)
    have apart : i ≠ mark.id := by simpa [Marks.toList] using other
    simp [apart]
  | objMember =>
    cases form with
    | shorthand | spread =>
      exact iff_of_false none (not_or.2 ⟨not_mem_nil, not_mem_nil⟩)
    | _ =>
      obtain _ | mark := marks
      obtain _ | ⟨key, _ | ⟨val, _ | _⟩⟩ := ts
      change i ∈ val.held (MemberVal.isSetter val) ++ [] ↔
        i ∈ [] ∨ i ∈ val.held (MemberVal.isSetter val)
      simp
  | memberVal =>
    cases form with
    | property =>
      obtain _ | ⟨_, _ | _⟩ := ts
      simp [Children.held, held, hosts]
    | index =>
      obtain _ | ⟨_, _ | ⟨_, _ | _⟩⟩ := ts
      simp [Children.held, held, hosts]
    | _ =>
      obtain _ | mark := marks
      obtain _ | ⟨f, _ | _⟩ := ts
      change i ∈ (if exempt then [f.mark.id] else []) ++ [] ↔
        i ∈ (if exempt then [f.mark.id] else []) ∨ i ∈ []
      simp
  | param | declarator =>
    obtain _ | mark := marks
    have apart : i ∉ [mark.id] := other
    exact iff_of_false none (not_or.2 ⟨not_mem_nil, apart⟩)
  | func =>
    obtain _ | mark := marks
    have apart : i ∉ [mark.id] := other
    refine iff_of_false none (not_or.2 ⟨?_, apart⟩)
    cases exempt with
    | true => exact apart
    | false => exact not_mem_nil
  | typeMember =>
    obtain _ | _ | site := marks
    have apart : i ∉ [site.form.id] := fun h => other (mem_cons_of_mem _ h)
    refine iff_of_false none (not_or.2 ⟨not_mem_nil, ?_⟩)
    cases form with
    | index => exact not_mem_nil
    | property =>
      obtain _ | ⟨_, _ | ⟨_, _ | _⟩⟩ := ts
      exact apart
    | method =>
      obtain _ | ⟨_, _ | ⟨_, _ | ⟨_, _ | ⟨_, _ | _⟩⟩⟩⟩ := ts
      exact apart
    | _ =>
      obtain _ | ⟨_, _ | ⟨_, _ | ⟨_, _ | _⟩⟩⟩ := ts
      exact apart
  | _ =>
    exact iff_of_false none (not_or.2 ⟨not_mem_nil, not_mem_nil⟩)

end Reify
