import Reify.Proofs.Syntax.Growth
import Reify.Proofs.Syntax.Subtrees

/-!
# Reworking walked trees

A plan is applied to a tree whose parts have been walked.  `Reworked` has a rule for each thing that
this can do to the tree, and says what may be added, given the classes and members around the place.
The `reworked_apply` lemmas show that plans do nothing else.  What holds of the code that comes out
is then shown by induction on the rules: statement lists and functions inside the tree stay, up to
reworking of their own (`Reworked.subtrees`), and statements that stand together in a list still do
(`Reworked.infix_stmts`).
-/

namespace Reify

open List Tree Synthetic

/-! ### Surroundings -/

/-- A class around a tree, a member of one, or an entry of an object or of a pattern. -/
inductive Around where
  | ofClass (name : Option String) (params : List String)
  | ofMember (static constructor : Bool)
  | ofEntry
deriving DecidableEq

/-- What surrounds the parts of a tree, from the inside out, given what surrounds the tree.  A class
expression has no type parameters, and a key stands outside the member or entry that it is the key
of. -/
def Tree.around : {c : Category} → Tree c → List Around → List Around
  | .classDecl, decl@(ClassDecl.mk _ _ _ _ typeParams _ _ _ _), around =>
    .ofClass (ClassDecl.name? decl) (typeParams.toLists.map TypeParam.name) :: around
  | .classMember, m, around =>
    .ofMember (ClassMember.isStatic m) (ClassMember.isConstructor m) :: around
  | .expr, Expr.classExpr _ _ _ _ _, around => .ofClass none [] :: around
  | .objMember, _, around | .objPatProp, _, around => .ofEntry :: around
  | .memberKey, _, around => around.tail
  | _, _, around => around

/-! ### The rules -/

/-- Places in a statement list where statements may be put in: its ends, and next to a call of
`super`. -/
inductive Gap : List Stmt → List Stmt → Prop where
  | start {ts} : Gap [] ts
  | stop {ss} : Gap ss []
  | afterSuper {s ss ts} (h : s ∈ ss.getLast?) (super' : Stmt.isSuperCall s = true) : Gap ss ts
  | beforeSuper {s ss ts} (h : s ∈ ts.head?) (super' : Stmt.isSuperCall s = true) : Gap ss ts

/-- A returned value that is checked against the constant `name`. -/
def checkedBy (name : String) (loc : Loc) (e : Expr) : Expr :=
  assertion loc (Synthetic.ident loc name) [e]

/-- What may be added inside the given classes and members. -/
abbrev Addition := List Around → (c : Category) → Tree c → Prop

/-- Categories of trees that are reworked part by part.  A list is reworked as a list, and an
expression as a whole. -/
def Category.isAssembled : Category → Bool
  | .many _ | .expr => false
  | _ => true

/-- Categories of what is put in front of a sequence. -/
def Category.isFronted : Category → Bool
  | .decorator | .classMember => true
  | _ => false

theorem Category.isMany_of_assembled {c : Category} (h : c.isAssembled = true) :
    c.isMany = false := by
  cases c with
  | many => cases h
  | _ => rfl

/-- **Reworking**: the second thing is the first after a plan that adds nothing but `A`. -/
inductive Reworked (A : Addition) : List Around → (k : Shape) → k.Of → k.Of → Prop where
  | refl {around k x} : Reworked A around k x x
  | trans {around k x y z} (h : Reworked A around k x y) (h' : Reworked A around k y z) :
      Reworked A around k x z
  | node {around c} {form : Form c} {marks : Marks form.width} {ts ts' : Children form.arity}
      (hc : c.isAssembled = true)
      (same : (Tree.node form marks ts').around = (Tree.node form marks ts).around)
      (parts : Reworked A ((Tree.node form marks ts).around around) (.parts form.arity) ts ts') :
      Reworked A around (.tree c) (.node form marks ts) (.node form marks ts')
  | many {around c} {ts ts' : List (Tree c)} (hc : c ≠ .stmt)
      (each : Reworked A around (.list c) ts ts') :
      Reworked A around (.tree (.many c)) (.ofList ts) (.ofList ts')
  /-- What a function returns is checked. -/
  | returns {around name} {ss : List Stmt}
      (added : ∀ loc, A around .expr (Synthetic.ident loc name)) :
      Reworked A around (.tree (.many .stmt)) (.ofList ss)
        (.ofList (ss.map (Stmt.mapReturns (checkedBy name))))
  /-- Statements are put in. -/
  | inserted {around} {ss ts zs : List Stmt} (gap : Gap ss ts) (added : ∀ z ∈ zs, A around .stmt z) :
      Reworked A around (.tree (.many .stmt)) (.ofList (ss ++ ts)) (.ofList (ss ++ zs ++ ts))
  /-- A decorator or a member of a class is put in front. -/
  | front {around c} {t : Tree c} {ts : List (Tree c)} (hc : c.isFronted = true)
      (added : A around c t) :
      Reworked A around (.tree (.many c)) (.ofList ts) (.ofList (t :: ts))
  | checked {around loc r} {e : Expr} (added : A around .expr r) :
      Reworked A around (.tree .expr) e (assertion loc r [e])
  /-- The expression that a function returns becomes a statement. -/
  | returned {around loc} {e : Expr} :
      Reworked A around (.tree .funcBody) (FuncBody.expr e)
        (FuncBody.block (.ofList [Synthetic.returnStmt loc e]))
  | partsCons {around c cs} {t t' : Tree c} {ts ts' : Children cs}
      (head : Reworked A around (.tree c) t t') (tail : Reworked A around (.parts cs) ts ts') :
      Reworked A around (.parts (c :: cs)) (.cons t ts) (.cons t' ts')
  | listCons {around c} {t t' : Tree c} {ts ts' : List (Tree c)}
      (head : Reworked A around (.tree c) t t') (tail : Reworked A around (.list c) ts ts') :
      Reworked A around (.list c) (t :: ts) (t' :: ts')

theorem Reworked.addFront {A around c t} (hc : c.isFronted = true) (added : A around c t)
    (ts : Many c) : Reworked A around (.tree (.many c)) ts (.ofList (t :: ts.toList)) := by
  have front : Reworked A around (.tree (.many c)) (.ofList ts.toList) (.ofList (t :: ts.toList)) :=
    .front hc added
  rwa [ofList_toList] at front

/-- What may be added does not depend on the place. -/
def Addition.IsSteady (A : Addition) : Prop := ∀ a b c t, A a c t → A b c t

theorem Reworked.anywhere {A} (steady : A.IsSteady) {around k x x'} (h : Reworked A around k x x')
    (around' : List Around) : Reworked A around' k x x' := by
  induction h generalizing around' with
  | refl => exact .refl
  | trans _ _ ih ih' => exact .trans (ih _) (ih' _)
  | node hc same _ ih => exact .node hc same (ih _)
  | many hc _ ih => exact .many hc (ih _)
  | returns added => exact .returns fun loc => steady _ _ _ _ (added loc)
  | inserted gap added => exact .inserted gap fun z hz => steady _ _ _ _ (added z hz)
  | front hc added => exact .front hc (steady _ _ _ _ added)
  | checked added => exact .checked (steady _ _ _ _ added)
  | returned => exact .returned
  | partsCons _ _ ihHead ihTail => exact .partsCons (ihHead _) (ihTail _)
  | listCons _ _ ihHead ihTail => exact .listCons (ihHead _) (ihTail _)

theorem Reworked.mono {A A'} (more : ∀ around c t, A around c t → A' around c t) {around k x x'}
    (h : Reworked A around k x x') : Reworked A' around k x x' := by
  induction h with
  | refl => exact .refl
  | trans _ _ ih ih' => exact .trans ih ih'
  | node hc same _ ih => exact .node hc same ih
  | many hc _ ih => exact .many hc ih
  | returns added => exact .returns fun loc => more _ _ _ (added loc)
  | inserted gap added => exact .inserted gap fun z hz => more _ _ _ (added z hz)
  | front hc added => exact .front hc (more _ _ _ added)
  | checked added => exact .checked (more _ _ _ added)
  | returned => exact .returned
  | partsCons _ _ ihHead ihTail => exact .partsCons ihHead ihTail
  | listCons _ _ ihHead ihTail => exact .listCons ihHead ihTail

/-! ### What is inside stays inside -/

/-- The trees of a category inside a thing of a shape. -/
def Shape.subtrees (d : Category) : (k : Shape) → k.Of → List (Tree d)
  | .tree _, t => t.subtrees Category.none d
  | .parts _, ts => ts.subtrees Category.none d
  | .list _, ts => ts.flatMap (Tree.subtrees Category.none d)

/-- Each tree of the first list has been reworked into one of the second. -/
def Carried (A : Addition) {d : Category} (us us' : List (Tree d)) : Prop :=
  ∀ u ∈ us, ∃ u' ∈ us', Reworked A [] (.tree d) u u'

section

variable {A : Addition} {around : List Around} {c d : Category}

namespace Carried

variable {us us' vs vs' : List (Tree d)}

theorem of_subset (h : us ⊆ us') : Carried A us us' := fun u hu => ⟨u, h hu, .refl⟩

theorem mono (h : Carried A us us') (more : us' ⊆ vs) : Carried A us vs := by
  intro u hu
  obtain ⟨u', hu', reworked⟩ := h u hu
  exact ⟨u', more hu', reworked⟩

theorem trans (h : Carried A us us') (h' : Carried A us' vs) : Carried A us vs := by
  intro u hu
  obtain ⟨u', hu', first⟩ := h u hu
  obtain ⟨v, hv, second⟩ := h' u' hu'
  exact ⟨v, hv, first.trans second⟩

theorem append (h : Carried A us us') (h' : Carried A vs vs') :
    Carried A (us ++ vs) (us' ++ vs') := by
  intro u hu
  rcases mem_append.1 hu with hu | hu
  · exact h.mono (subset_append_left _ _) u hu
  · exact h'.mono (subset_append_right _ _) u hu

/-- The trees inside a reworked tree, given those inside its parts. -/
theorem node {form form' marks marks' ts ts'}
    (own : c = d → Reworked A [] (.tree c) (.node form marks ts) (.node form' marks' ts'))
    (parts : Carried A (ts.subtrees Category.none d) (ts'.subtrees Category.none d)) :
    Carried A ((Tree.node form marks ts).subtrees Category.none d)
      ((Tree.node form' marks' ts').subtrees Category.none d) := by
  rw [subtrees_node, subtrees_node]
  refine append ?_ parts
  by_cases h : c = d
  · subst h
    rw [ofCategory_self, ofCategory_self]
    intro u hu
    rw [mem_singleton.1 hu]
    exact ⟨_, mem_singleton.2 rfl, own rfl⟩
  · rw [ofCategory_of_ne h]
    exact of_subset (nil_subset _)

theorem list {ts ts'} (own : Reworked A [] (.tree (.many c)) (.ofList ts) (.ofList ts'))
    (parts : Carried A (ts.flatMap (Tree.subtrees Category.none d))
      (ts'.flatMap (Tree.subtrees Category.none d))) :
    Carried A ((Tree.ofList ts).subtrees Category.none d)
      ((Tree.ofList ts').subtrees Category.none d) := by
  rw [← Children.subtrees_ofList, ← Children.subtrees_ofList] at parts
  exact node (fun _ => own) parts

end Carried

/-- An expression is inside its check. -/
theorem Tree.subtrees_assertion (loc : Loc) (r e : Expr) :
    e.subtrees Category.none d ⊆ (assertion loc r [e]).subtrees Category.none d := by
  intro u hu
  refine mem_subtrees_of_parts rfl (mem_append_right _ (mem_append_left _ ?_))
  refine mem_subtrees_ofList rfl (mem_singleton.2 rfl) ?_
  exact mem_subtrees_of_parts rfl (mem_append_left _ hu)

theorem Tree.subtrees_returnStmt (loc : Loc) (e : Expr) :
    e.subtrees Category.none d ⊆ (returnStmt loc e).subtrees Category.none d := by
  intro u hu
  exact mem_subtrees_of_parts rfl (mem_append_left _
    (mem_subtrees_of_parts rfl (mem_append_left _ hu)))

theorem replaceStmts_ofList (f : Loc → Expr → Expr) {c} (hc : c.holdsStmts = true)
    (ts : List (Tree c)) :
    Tree.node (c := .many c) ts.length .none ((Children.ofList ts).replaceStmts
      ((Children.ofList ts).fold (X := Tree) (Form.mapReturns f))) =
      .ofList (ts.map (Tree.fold (X := Tree) (Form.mapReturns f))) := by
  induction ts with
  | nil => rfl
  | cons t ts ih =>
    rw [map_cons, ofList_cons, ← ih, Tree.consMany]
    change Tree.node (c := .many c) (ts.length + 1) .none
      (.cons (if c.holdsStmts then t.fold (Form.mapReturns f) else t) _) = _
    rw [if_pos hc]

theorem mapReturns_ofList (f : Loc → Expr → Expr) (ss : List Stmt) :
    (Tree.ofList ss).fold (X := Tree) (Form.mapReturns f) = .ofList (ss.map (Stmt.mapReturns f)) :=
  replaceStmts_ofList f rfl ss

/-- What relates trees to those with changed returned values: each tree is related to itself, a
statement that returns to the one that returns the changed value, and trees that hold statements to
those with related parts. -/
structure RelatesReturns (f : Loc → Expr → Expr) (R : (c : Category) → Tree c → Tree c → Prop) :
    Prop where
  same {c : Category} (t : Tree c) : R c t t
  value (site : Site) (e : Expr) : R .stmt (Stmt.returning site (.present e))
    (Stmt.returning site (.present (f site.form.loc e)))
  node {c : Category} {form : Form c} {marks : Marks form.width} {ts ts' : Children form.arity}
    (hc : c.holdsStmts = true) (parts : ts.Related R ts') :
    R c (.node form marks ts) (.node form marks ts')

section

variable {f : Loc → Expr → Expr} {R : (c : Category) → Tree c → Tree c → Prop}

mutual

theorem RelatesReturns.tree (h : RelatesReturns f R) : {c : Category} → (t : Tree c) →
    c.holdsStmts = true → R c t (t.fold (X := Tree) (Form.mapReturns f))
  | c, .node form marks ts, hc => by
    have rebuilt : R c (.node form marks ts) (.node form marks _) := h.node hc (h.parts ts)
    cases c with
    | stmt =>
      cases form with
      | returning =>
        match marks, ts with
        | .two _, .cons .absent .nil => exact h.same _
        | .two site, .cons (.present e) .nil => exact h.value site e
      | _ => exact rebuilt
    | block | handler | branch | many _ | maybe _ => exact rebuilt
    | _ => cases hc

theorem RelatesReturns.parts (h : RelatesReturns f R) : {cs : List Category} → (ts : Children cs) →
    ts.Related R (ts.replaceStmts (ts.fold (X := Tree) (Form.mapReturns f)))
  | _, .nil => .nil
  | c :: _, .cons t ts => by
    refine .cons ?_ (h.parts ts)
    cases hc : c.holdsStmts with
    | true =>
      rw [if_pos rfl]
      exact h.tree t hc
    | false => exact h.same t

end

end

mutual

/-- Where only returned values are checked, what is inside a statement stays there. -/
theorem Tree.carried_mapReturns {name : String}
    (added : ∀ loc, A [] .expr (ident loc name))
    (hd : d.holdsStmts = true → d = .many .stmt) :
    {c : Category} → (t : Tree c) → c.holdsStmts = true →
      Carried A (t.subtrees Category.none d)
        ((t.fold (X := Tree) (Form.mapReturns (checkedBy name))).subtrees Category.none d)
  | c, .node form marks ts, hc => by
    have parts := Children.carried_replaceStmts added hd ts
    -- Of the trees that hold statements only the lists are asked for.
    have own : c = d → Reworked A [] (.tree c) (.node form marks ts)
        ((Tree.node form marks ts).fold (X := Tree) (Form.mapReturns (checkedBy name))) := by
      rintro rfl
      obtain rfl := hd hc
      rw [← ofList_toList (.node form marks ts), mapReturns_ofList]
      exact .returns added
    cases c with
    | stmt =>
      cases form with
      | returning =>
        match marks, ts with
        | .two site, .cons value .nil =>
          refine .node own (.append ?_ (.of_subset (List.Subset.refl _)))
          match value with
          | .absent => exact .of_subset (List.Subset.refl _)
          | .present e =>
            have value : Reworked A [] (.tree (.maybe .expr)) (.present e)
                (.present (checkedBy name site.form.loc e)) :=
              .node rfl rfl (.partsCons (.checked (added _)) .refl)
            exact .node (fun _ => value) (.append (.of_subset (subtrees_assertion _ _ _))
              (.of_subset (List.Subset.refl _)))
      | _ => exact .node own parts
    | block | handler | branch | many _ | maybe _ => exact .node own parts
    | _ => cases hc

theorem Children.carried_replaceStmts {name : String}
    (added : ∀ loc, A [] .expr (ident loc name))
    (hd : d.holdsStmts = true → d = .many .stmt) :
    {cs : List Category} → (ts : Children cs) →
      Carried A (ts.subtrees Category.none d)
        ((ts.replaceStmts (ts.fold (X := Tree) (Form.mapReturns (checkedBy name)))).subtrees
          Category.none d)
  | _, .nil => .of_subset (List.Subset.refl _)
  | c :: _, .cons t ts => by
    refine .append ?_ (Children.carried_replaceStmts added hd ts)
    cases hc : c.holdsStmts with
    | true =>
      rw [if_pos rfl]
      exact Tree.carried_mapReturns added hd t hc
    | false => exact .of_subset (List.Subset.refl _)

end

/-- **What is inside a tree stays inside**, up to reworking of its own. -/
theorem Reworked.subtrees (steady : A.IsSteady) (hd : d.holdsStmts = true → d = .many .stmt)
    {k x x'} (h : Reworked A around k x x') : Carried A (k.subtrees d x) (k.subtrees d x') := by
  induction h with
  | refl => exact .of_subset (List.Subset.refl _)
  | trans _ _ ih ih' => exact ih.trans ih'
  | node hc same parts ih => exact .node (fun _ => .node hc same (parts.anywhere steady _)) ih
  | many hc each ih => exact .list (.many hc (each.anywhere steady _)) ih
  | @returns _ name ss added =>
    have added : ∀ loc, A [] .expr (ident loc name) :=
      fun loc => steady _ _ _ _ (added loc)
    refine .list (.returns added) ?_
    intro u hu
    obtain ⟨s, hs, hu⟩ := mem_flatMap.1 hu
    obtain ⟨u', hu', reworked⟩ := s.carried_mapReturns added hd rfl u hu
    exact ⟨u', mem_flatMap.2 ⟨_, mem_map_of_mem hs, hu'⟩, reworked⟩
  | @inserted _ ss ts zs gap added =>
    refine .list (.inserted gap fun z hz => steady _ _ _ _ (added z hz)) (.of_subset ?_)
    simp only [flatMap_append]
    exact append_subset.2 ⟨by simp, by simp⟩
  | front hc added =>
    exact .list (.front hc (steady _ _ _ _ added)) (.of_subset (subset_append_right _ _))
  | @checked _ loc r e added => exact .of_subset (subtrees_assertion loc r e)
  | @returned _ loc e =>
    refine .node (fun _ => .returned) (.append ?_ (.of_subset (List.Subset.refl _)))
    refine .of_subset fun u hu => mem_subtrees_ofList rfl (mem_singleton.2 rfl) ?_
    exact subtrees_returnStmt loc e hu
  | partsCons _ _ ihHead ihTail | listCons _ _ ihHead ihTail => exact ihHead.append ihTail

end

/-! ### Statement lists -/

theorem Stmt.mark_mapReturns (f : Loc → Expr → Expr) (s : Stmt) :
    (Stmt.mapReturns f s).mark = s.mark := by
  match s with
  | .node (c := .stmt) form marks ts =>
    cases form with
    | returning =>
      match marks, ts with
      | .two site, .cons value .nil => rfl
    | _ => rfl

theorem Stmt.isSuperCall_mapReturns (f : Loc → Expr → Expr) (s : Stmt) :
    (Stmt.mapReturns f s).isSuperCall = s.isSuperCall := by
  match s with
  | .node (c := .stmt) form marks ts =>
    cases form with
    | expr =>
      match marks, ts with
      | .two site, .cons e .nil => rfl
    | returning =>
      match marks, ts with
      | .two site, .cons value .nil => rfl
    | _ => rfl

/-- Statements that stay as they are, and next to which nothing is put. -/
structure Stmt.Firm (s : Stmt) : Prop where
  fixed : ∀ f, Stmt.mapReturns f s = s
  plain : Stmt.isSuperCall s = false

/-- Nothing is put into a run of statements that has no call of `super`. -/
theorem Gap.infix_or {ss ts run} (gap : Gap ss ts) (h : run <:+: ss ++ ts)
    (plain : ∀ s ∈ run, Stmt.isSuperCall s = false) : run <:+: ss ∨ run <:+: ts := by
  obtain ⟨before, after, h⟩ := h
  rcases append_eq_append_iff.1 h with ⟨rest, rfl, -⟩ | ⟨right, left, rfl⟩
  · exact .inl ⟨before, rest, rfl⟩
  rcases append_eq_append_iff.1 left with ⟨early, rfl, rfl⟩ | ⟨rest, -, rfl⟩
  · -- The place is inside the run, so it is at one of its ends.
    cases early with
    | nil => exact .inr ⟨[], after, rfl⟩
    | cons s early =>
      cases right with
      | nil => exact .inl ⟨before, [], by simp⟩
      | cons t right =>
        generalize hs : before ++ s :: early = ss at gap
        generalize ht : t :: right ++ after = ts at gap
        cases gap with
        | start => simp at hs
        | stop => simp at ht
        | @afterSuper u _ _ last super' =>
          rw [← hs, getLast?_append_of_ne_nil _ (cons_ne_nil _ _)] at last
          have mem := mem_append_left (t :: right) (mem_of_getLast? last)
          exact absurd super' (by simp [plain u mem])
        | @beforeSuper u _ _ first super' =>
          rw [← ht] at first
          obtain rfl := Option.some.inj first
          have mem : t ∈ s :: early ++ t :: right := mem_append_right _ mem_cons_self
          exact absurd super' (by simp [plain t mem])
  · exact .inr ⟨rest, after, by simp⟩

/-- The statements of a thing, if it is a statement list. -/
def Shape.stmts : (k : Shape) → k.Of → List Stmt
  | .tree (.many .stmt), t => t.toList
  | _, _ => []

@[simp] theorem Shape.stmts_many (t : Many .stmt) : (Shape.tree (.many .stmt)).stmts t = t.toList :=
  rfl

theorem Shape.stmts_of_ne {c} (hc : c ≠ .many .stmt) (t : Tree c) :
    (Shape.tree c).stmts t = [] := by
  unfold Shape.stmts
  split
  case h_1 same _ => exact (hc (Shape.tree.inj same)).elim
  case h_2 => rfl

/-- **Statements that stand together stay together**: a run of firm statements is found in the
reworked list. -/
theorem Reworked.infix_stmts {A around k x x'} (h : Reworked A around k x x') {run}
    (inside : run <:+: k.stmts x) (firm : ∀ s ∈ run, Stmt.Firm s) : run <:+: k.stmts x' := by
  induction h with
  | trans _ _ ih ih' => exact ih' (ih inside)
  | @returns _ name ss added =>
    have fixed : run.map (Stmt.mapReturns (checkedBy name)) = run :=
      (map_congr_left fun s hs => (firm s hs).fixed _).trans (map_id run)
    rw [Shape.stmts_many, toList_ofList] at inside ⊢
    rw [← fixed]
    exact inside.map _
  | @inserted _ ss ts zs gap added =>
    rw [Shape.stmts_many, toList_ofList] at inside ⊢
    rcases gap.infix_or inside fun s hs => (firm s hs).plain with ⟨a, b, rfl⟩ | ⟨a, b, rfl⟩
    · exact ⟨a, b ++ zs ++ ts, by simp⟩
    · exact ⟨ss ++ zs ++ a, b, by simp⟩
  | node hc =>
    rwa [Shape.stmts_of_ne (by rintro rfl; cases hc)] at inside ⊢
  | many hc =>
    rwa [Shape.stmts_of_ne (by rintro ⟨⟩; exact hc rfl)] at inside ⊢
  | front hc =>
    rwa [Shape.stmts_of_ne (by rintro ⟨⟩; cases hc)] at inside ⊢
  | _ => exact inside

/-- What reworking neither changes nor adds. -/
theorem Reworked.filterMap_eq {A : Addition} {β : Type} (g : Stmt → Option β)
    (returns : ∀ f s, g (Stmt.mapReturns f s) = g s)
    (added : ∀ around s, A around .stmt s → g s = none) {around k x x'}
    (h : Reworked A around k x x') : (k.stmts x').filterMap g = (k.stmts x).filterMap g := by
  induction h with
  | trans _ _ ih ih' => exact ih'.trans ih
  | @returns _ name ss _ =>
    rw [Shape.stmts_many, Shape.stmts_many, toList_ofList, toList_ofList,
      filterMap_map]
    exact filterMap_congr fun s _ => returns _ s
  | @inserted _ ss ts zs _ hz =>
    have none : zs.filterMap g = [] :=
      filterMap_eq_nil_iff.2 fun z h => added _ z (hz z h)
    rw [Shape.stmts_many, Shape.stmts_many, toList_ofList, toList_ofList]
    simp [filterMap_append, none]
  | node hc =>
    rw [Shape.stmts_of_ne (by rintro rfl; cases hc), Shape.stmts_of_ne (by rintro rfl; cases hc)]
  | many hc =>
    rw [Shape.stmts_of_ne (by rintro ⟨⟩; exact hc rfl),
      Shape.stmts_of_ne (by rintro ⟨⟩; exact hc rfl)]
  | front hc =>
    rw [Shape.stmts_of_ne (by rintro ⟨⟩; cases hc), Shape.stmts_of_ne (by rintro ⟨⟩; cases hc)]
  | _ => rfl

end Reify
