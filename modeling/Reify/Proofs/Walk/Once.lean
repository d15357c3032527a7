import Mathlib.Data.List.Flatten
import Reify.Proofs.Walk.Coverage
import Reify.Proofs.Walk.Growth

/-!
# Each node once

A walk keeps a ledger of the nodes it has been to and of those it has recorded as changed.  The
functions of a class and of a function declaration are entered early, when the declaration is
planned, and are passed over when the walk comes to them.  However they got there, at the end of a
walk without errors the ledger has every node that counts, once (`Walks.covers`), and a second walk
finds nothing left to do (`Walks.idle`).
-/

namespace Reify

open List Tree

/-! ### The ledger -/

/-- What a walk keeps count of. -/
structure Ledger where
  visited : List Nat
  recorded : List Nat

/-- The ledger of a state. -/
def Walker.ledger (w : Walker) : Ledger := ⟨w.context.visited, w.context.mutations⟩

namespace Walker

variable (w : Walker)

@[simp] theorem ledger_pushGenerics (names : List String) (access : ParamAccess) :
    (w.pushGenerics names access).ledger = w.ledger := by
  rw [pushGenerics]
  split <;> rfl

@[simp] theorem ledger_popGenerics (names : List String) :
    (w.popGenerics names).ledger = w.ledger := by
  rw [popGenerics]
  split <;> rfl

@[simp] theorem ledger_declareAll (names : List String) : (w.declareAll names).ledger = w.ledger := by
  induction names generalizing w with
  | nil => rfl
  | cons name names ih => exact ih (w.map (·.declare name))

end Walker

namespace Tree

variable {c : Category} (t : Tree c) (w : Walker)

@[simp] theorem ledger_enter : (t.enter w).ledger = w.ledger := by
  rw [enter, Walker.ledger_pushGenerics]
  split <;> rfl

@[simp] theorem ledger_leave : (t.leave w).ledger = w.ledger := by
  rw [← w.ledger_popGenerics t.generics, leave]
  split <;> rfl

end Tree

/-- From the ledger `a` to the ledger `b` the walk has been to `counted`, with a visit of each node
that it had not been to before.  Of these it has recorded those in `recorded`. -/
structure Ledger.Covers (a b : Ledger) (vs : List Visit) (counted recorded : List Nat) : Prop where
  visited : ∀ i, i ∈ b.visited ↔ i ∈ a.visited ∨ i ∈ counted
  visits : (vs.map Visit.id).Perm (counted.filter (· ∉ a.visited))
  recorded : b.recorded.Perm (a.recorded ++ recorded.filter (· ∉ a.visited))

namespace Ledger.Covers

variable {a b c : Ledger} {vs us : List Visit} {counted counted' recorded recorded' : List Nat}

theorem refl (a : Ledger) : Covers a a [] [] [] :=
  ⟨by simp, by simp, by simp⟩

theorem trans (h : Covers a b vs counted recorded) (h' : Covers b c us counted' recorded')
    (sub : recorded' ⊆ counted') (disjoint : counted.Disjoint counted') :
    Covers a c (vs ++ us) (counted ++ counted') (recorded ++ recorded') := by
  have same : ∀ l, l ⊆ counted' → l.filter (· ∉ b.visited) = l.filter (· ∉ a.visited) := by
    refine fun l hl => filter_congr fun i hi => decide_eq_decide.2 (not_congr ?_)
    rw [h.visited]
    exact or_iff_left fun hc => disjoint hc (hl hi)
  refine ⟨fun i => by rw [h'.visited, h.visited, mem_append, or_assoc], ?_, ?_⟩
  · rw [map_append, filter_append, ← same counted' (List.Subset.refl _)]
    exact h.visits.append h'.visits
  · rw [filter_append, ← append_assoc, ← same recorded' sub]
    exact h'.recorded.trans (h.recorded.append_right _)

theorem congr (h : Covers a b vs counted recorded) (hc : counted.Perm counted')
    (hr : recorded.Perm recorded') : Covers a b vs counted' recorded' :=
  ⟨fun i => by rw [h.visited, hc.mem_iff], h.visits.trans (hc.filter _),
    h.recorded.trans ((hr.filter _).append_left _)⟩

/-- A node that the walk has been to before. -/
theorem seen (h : Covers a b vs counted recorded) {id own} (hid : id ∈ a.visited)
    (hown : own ⊆ [id]) : Covers a b vs (id :: counted) (own ++ recorded) := by
  have none : own.filter (· ∉ a.visited) = [] :=
    filter_eq_nil_iff.2 fun i hi => by simpa [mem_singleton.1 (hown hi)] using hid
  refine ⟨fun i => ?_, ?_, by rw [filter_append, none]; exact h.recorded⟩
  · rw [h.visited, mem_cons]
    refine ⟨.imp_right .inr, ?_⟩
    rintro (hi | rfl | hi)
    · exact .inl hi
    · exact .inl hid
    · exact .inr hi
  · rw [filter_cons_of_neg (by simpa using hid)]
    exact h.visits

end Ledger.Covers

/-- What planning enters: the node itself, and early the functions `early` inside it. -/
structure Ledger.Enters (a b : Ledger) (id : Nat) (own early : List Nat) : Prop where
  fresh : ∀ i ∈ id :: early, i ∉ a.visited
  visited : ∀ i, i ∈ b.visited ↔ i ∈ a.visited ∨ i ∈ id :: early
  recorded : b.recorded = a.recorded ++ (own ++ early)
  own : own ⊆ [id]
  nodup : early.Nodup

namespace Ledger.Enters

variable {a b c : Ledger} {id : Nat} {own early : List Nat} (h : Enters a b id own early)

include h

/-- What is new in the parts has been entered early or is entered later. -/
theorem split {l} (inside : early ⊆ l) (nodup : l.Nodup) (outside : id ∉ l) :
    (early ++ l.filter (· ∉ b.visited)).Perm (l.filter (· ∉ a.visited)) := by
  have entered : ((l.filter (· ∉ a.visited)).filter (· ∈ early)).Perm early := by
    refine (perm_ext_iff_of_nodup ((nodup.filter _).filter _) h.nodup).2 fun i => ?_
    simp only [mem_filter, decide_eq_true_eq]
    exact ⟨fun hi => hi.2,
      fun hi => ⟨⟨inside hi, h.fresh i (mem_cons_of_mem _ hi)⟩, hi⟩⟩
  have later : (l.filter (· ∉ a.visited)).filter (fun i => !decide (i ∈ early)) =
      l.filter (· ∉ b.visited) := by
    rw [filter_filter]
    refine filter_congr fun i hi => ?_
    have other : i ≠ id := fun same => outside (same ▸ hi)
    simp [h.visited, other, and_comm]
  rw [← later]
  exact (entered.symm.append_right _).trans (filter_append_perm _ _)

/-- A node that the walk comes to for the first time, followed by its parts. -/
theorem covers {vs us counted recorded} (ids : vs.map Visit.id = id :: early)
    (parts : Covers b c us counted recorded) (inside : early ⊆ recorded)
    (sub : recorded.Sublist counted) (nodup : counted.Nodup) (outside : id ∉ counted) :
    Covers a c (vs ++ us) (id :: counted) (own ++ recorded) := by
  have idFresh : id ∉ a.visited := h.fresh id mem_cons_self
  refine ⟨fun i => ?_, ?_, ?_⟩
  · rw [parts.visited, h.visited, mem_cons, mem_cons, or_assoc, or_assoc]
    exact or_congr_right (or_congr_right (or_iff_right_of_imp fun hi => sub.subset (inside hi)))
  · rw [map_append, ids, filter_cons_of_pos (by simpa using idFresh)]
    refine Perm.cons _ ((parts.visits.append_left _).trans ?_)
    exact h.split (fun i hi => sub.subset (inside hi)) nodup outside
  · have first : own.filter (· ∉ a.visited) = own :=
      filter_eq_self.2 fun i hi => by simpa [mem_singleton.1 (h.own hi)] using idFresh
    refine parts.recorded.trans ?_
    rw [filter_append, first, h.recorded, append_assoc, append_assoc]
    refine ((h.split inside (nodup.sublist sub) ?_).append_left _).append_left _
    exact fun hi => outside (sub.subset hi)

end Ledger.Enters

/-! ### What planning enters -/

/-- The visits to nodes that have not been entered. -/
def Walker.news (w : Walker) (vs : List Visit) : List Visit :=
  vs.filter (!w.context.wasVisited ·.id)

/-- From `w` to `w'` those of the functions that had not been entered have been entered and
recorded. -/
structure Notes (w w' : Walker) (vs : List Visit) : Prop where
  visited : ∀ i, i ∈ w'.context.visited ↔ i ∈ w.context.visited ∨ i ∈ (w.news vs).map Visit.id
  recorded : w'.context.mutations = w.context.mutations ++ (w.news vs).map Visit.id

namespace Notes

variable {w w₁ w₂ : Walker} {vs us : List Visit} {names : List String} {frame : Frame → Frame}

theorem of_effect (h : Effect w w₁ [] [] names frame) : Notes w w₁ [] :=
  ⟨h.visited, h.recorded⟩

theorem of_func {v : Visit} (h : Effect w w₁ [v.id] [v.id] names frame)
    (fresh : w.context.wasVisited v.id = false) : Notes w w₁ [v] := by
  have new : w.news [v] = [v] := by simp [Walker.news, fresh]
  constructor
  · rw [new]
    exact h.visited
  · rw [new]
    exact h.recorded

theorem of_seen {v : Visit} (seen : w.context.wasVisited v.id = true) : Notes w w [v] := by
  have none : w.news [v] = [] := by simp [Walker.news, seen]
  constructor <;> simp [none]

theorem trans (h : Notes w w₁ vs) (h' : Notes w₁ w₂ us) (nodup : ((vs ++ us).map Visit.id).Nodup) :
    Notes w w₂ (vs ++ us) := by
  rw [map_append, nodup_append] at nodup
  have same : w₁.news us = w.news us := by
    refine filter_congr fun u hu => congrArg (! ·) (Bool.eq_iff_iff.2 ?_)
    rw [Context.wasVisited_iff, Context.wasVisited_iff, h.visited]
    refine or_congr_right (or_iff_left fun hi => ?_)
    exact nodup.2.2 _ ((filter_sublist.map _).subset hi) _ (mem_map_of_mem hu) rfl
  have all : w.news (vs ++ us) = w.news vs ++ w₁.news us := by rw [same]; exact filter_append ..
  constructor
  · intro i
    rw [h'.visited, h.visited, all, map_append, mem_append, or_assoc]
  · rw [h'.recorded, h.recorded, all, map_append, append_assoc]

end Notes

/-! ### Functions that are entered early -/

/-- Categories through which the functions of a declaration are reached. -/
def Category.carries : Category → Bool
  | .func | .funcDecl | .classDecl | .classMember | .memberVal | .many _ | .maybe _ => true
  | _ => false

theorem Category.skips_heads : Skips fun c => !c.carries where
  left c h := by
    cases c with
    | func | funcDecl | classDecl | classMember | memberVal | many | maybe => cases h
    | _ => rfl
  many _ := rfl
  maybe _ := rfl

/-- The numbers of the functions that a declaration consists of, without those inside them. -/
def Tree.heads {c : Category} (t : Tree c) : List Nat :=
  t.idsOf Form.isFunc fun c => !c.carries

/-- The numbers of the functions that the declarations in a row consist of. -/
def Children.heads {cs : List Category} (ts : Children cs) : List Nat :=
  ts.idsOf Form.isFunc fun c => !c.carries

/-- The numbers of such functions in what a task walks. -/
def Task.heads (k : Task) : List Nat := k.ids Form.isFunc fun c => !c.carries

/-- Categories of trees without functions at their head. -/
def Category.isClosed : Category → Bool
  | .many c | .maybe c => c.isClosed
  | c => !c.carries

mutual

theorem Tree.heads_of_closed : {c : Category} → (t : Tree c) → c.isClosed = true → t.heads = []
  | c, .node form marks ts, h => by
    have parts := ts.heads_of_closed
    cases c with
    | many c => exact parts fun d hd => Form.mem_arity_many hd ▸ h
    | maybe c => exact parts fun d hd => Form.mem_arity_maybe hd ▸ h
    | func | funcDecl | classDecl | classMember | memberVal => cases h
    | _ => rfl

theorem Children.heads_of_closed : {cs : List Category} → (ts : Children cs) →
    (∀ c ∈ cs, c.isClosed = true) → ts.heads = []
  | _, .nil, _ => rfl
  | _, .cons t ts, h => by
    rw [forall_mem_cons] at h
    change t.heads ++ ts.heads = []
    rw [t.heads_of_closed h.1, ts.heads_of_closed h.2]
    rfl

end

theorem Func.heads_eq (f : Func) : f.heads = [f.mark.id] := by
  match f with
  | .node (c := .func) form marks ts =>
    change marks.first.id :: ts.heads = _
    rw [ts.heads_of_closed (by simp [Category.isClosed, Category.carries])]
    rfl

variable {mark m : Mark} {decorators : Many .decorator} {w' : Walker} {plan : StmtPlan} {s : Stmt}
  {fs : List Stmt} {vs : List Visit} {p : Point} {name : Maybe .name} {f : Func}

theorem ClassMember.heads_function {form key type kind} :
    (ClassMember.mk mark form decorators key type (MemberVal.function m kind f)).heads =
      [f.mark.id] := by
  change decorators.heads ++ (key.heads ++ (type.heads ++ ((f.heads ++ []) ++ []))) = _
  rw [decorators.heads_of_closed rfl, key.heads_of_closed rfl, type.heads_of_closed rfl,
    Func.heads_eq]
  rfl

theorem Stmt.heads_class {form typeParams base baseArgs implemented members brief} :
    (Task.inner (Stmt.classDecl m (ClassDecl.mk mark form decorators name typeParams base baseArgs
      implemented members)) brief).heads = members.toList.flatMap Tree.heads := by
  change (decorators.heads ++ (name.heads ++ (typeParams.heads ++ (base.heads ++ (baseArgs.heads ++
    (implemented.heads ++ (members.heads ++ []))))))) ++ [] = _
  rw [decorators.heads_of_closed rfl, name.heads_of_closed rfl, typeParams.heads_of_closed rfl,
    base.heads_of_closed rfl, baseArgs.heads_of_closed rfl, implemented.heads_of_closed rfl]
  simp only [nil_append, append_nil]
  exact (Tree.idsOf_toList rfl members).symm

theorem Stmt.heads_func {form brief} :
    (Task.inner (Stmt.funcDecl m (FuncDecl.mk mark form name f)) brief).heads = [f.mark.id] := by
  change (name.heads ++ (f.heads ++ [])) ++ [] = _
  rw [name.heads_of_closed rfl, Func.heads_eq]
  rfl

/-! ### Visits on the first time -/

section

variable {w : Walker} {className : Option String} {names : List String}

theorem ClassMember.visits_sublist (member : ClassMember) :
    ((member.visits p className names).map Visit.id).Sublist member.heads := by
  match member with
  | ClassMember.mk _ _ _ _ _ (MemberVal.function _ _ f) =>
    rw [heads_function]
    exact .refl _
  | ClassMember.mk _ _ _ _ _ (MemberVal.property _) => exact nil_sublist _
  | ClassMember.mk _ _ _ _ _ (MemberVal.index _ _ _ _) => exact nil_sublist _

/-- A statement is visited along with functions at the head of its parts. -/
theorem Stmt.visits_sublist (s : Stmt) (brief : Brief) :
    ((s.visits p).map Visit.id).Sublist (s.mark.id :: (Task.inner s brief).heads) := by
  refine Sublist.cons_cons _ ?_
  match s with
  | .node (c := .stmt) form marks ts =>
    cases form with
    | funcDecl =>
      match marks, ts with
      | .one _, .cons (FuncDecl.mk _ _ _ f) .nil =>
        rw [heads_func]
        exact .refl _
    | classDecl =>
      match marks, ts with
      | .one _, .cons (ClassDecl.mk _ form _ _ _ _ _ _ members) .nil =>
        change (List.map Visit.id (if form.ambient then [] else _)).Sublist _
        rw [heads_class]
        split
        · exact nil_sublist _
        · rw [map_flatMap]
          exact .flatMap_right _ fun member _ => member.visits_sublist
    | _ => exact nil_sublist _

theorem Stmt.news_subset (s : Stmt) (brief : Brief) :
    (w.news (s.visits p).tail).map Visit.id ⊆ (Task.inner s brief).heads :=
  ((filter_sublist.map _).trans (s.visits_sublist brief).of_cons_cons).subset

theorem funcVisits_eq (role : Role) (f : Func) : funcVisits p w role f = w.news [⟨p, .func role f⟩] := by
  rw [funcVisits, Walker.news]
  split <;> simp [Visit.id, *]

theorem memberVisits_eq (member : ClassMember) :
    memberVisits p w className names member = w.news (member.visits p className names) := by
  match member with
  | ClassMember.mk _ _ _ _ _ (MemberVal.function _ _ f) => exact funcVisits_eq _ f
  | ClassMember.mk _ _ _ _ _ (MemberVal.property _) => rfl
  | ClassMember.mk _ _ _ _ _ (MemberVal.index _ _ _ _) => rfl

theorem stmtVisits_eq (fresh : w.context.wasVisited s.mark.id = false) :
    stmtVisits p w s = ⟨p, .stmt s⟩ :: w.news (s.visits p).tail := by
  rw [stmtVisits, if_neg (by simp [fresh])]
  refine congrArg (_ :: ·) ?_
  match s with
  | .node (c := .stmt) form marks ts =>
    cases form with
    | funcDecl =>
      match marks, ts with
      | .one _, .cons (FuncDecl.mk _ _ _ f) .nil => exact funcVisits_eq _ f
    | classDecl =>
      match marks, ts with
      | .one _, .cons (ClassDecl.mk _ form _ _ _ _ _ _ members) .nil =>
        change (if form.ambient then [] else _) = w.news (if form.ambient then [] else _)
        split
        · rfl
        · rw [Walker.news, filter_flatMap]
          exact flatMap_congr fun member _ => memberVisits_eq member
    | _ => rfl

theorem PlansMember.notes {member plan} (h : PlansMember className names w member plan w') :
    Notes w w' (member.visits p className names) := by
  cases h with
  | visited hv => exact .of_seen hv
  | func hm hv _ effect =>
    subst hm
    exact .of_func effect hv
  | property hm =>
    subst hm
    exact .of_effect (.refl _)
  | _ => exact .of_effect (.refl _)

theorem PlansMembers.notes {members plans} (h : PlansMembers className names w members plans w')
    (nodup : ((members.flatMap (ClassMember.visits p className names)).map Visit.id).Nodup) :
    Notes w w' (members.flatMap (ClassMember.visits p className names)) := by
  induction h with
  | nil => exact .of_effect (.refl _)
  | cons head _ ih =>
    refine head.notes.trans (ih ?_) nodup
    rw [flatMap_cons, map_append] at nodup
    exact (nodup_append.1 nodup).2.1

/-- Planning a statement enters the functions that are visited along with it. -/
theorem Planned.notes (h : Planned w s plan fs w') (nodup : ((s.visits p).map Visit.id).Nodup) :
    Notes w w' (s.visits p).tail := by
  cases h with
  | ambientClass hd ambient effect =>
    subst hd
    change Notes w w' (if _ then [] else _)
    rw [if_pos ambient]
    exact .of_effect effect
  | classDecl hd ambient _ planned _ effect =>
    subst hd
    have along := nodup.of_cons
    change Nodup (List.map _ (if _ then [] else _)) at along
    change Notes w w' (if _ then [] else _)
    rw [if_neg (by simp [ambient])] at along ⊢
    have all := (planned.notes along).trans (.of_effect effect) (by rwa [append_nil])
    rwa [append_nil] at all
  | funcVisited hv => exact .of_seen hv
  | funcDecl hv _ effect => exact .of_func effect hv
  | varDecl _ effect | classInterface _ _ effect | pendingInterface _ _ _ _ _ effect
  | interfaceDecl _ _ _ _ _ _ effect | ambientAlias _ effect | aliasDecl _ _ effect
  | enumDecl effect => exact .of_effect effect
  | @other form marks ts h =>
    cases form with
    | classDecl | funcDecl | varDecl | interfaceDecl | aliasDecl | enumDecl => cases h
    | _ => exact .of_effect (.refl _)
  | _ => exact .of_effect (.refl _)

end

theorem Stmt.isRecorded_eq (s : Stmt) : Stmt.isRecorded s = Form.isRecorded .stmt s.form := by
  match s with
  | .node (c := .stmt) form marks ts =>
    cases form with
    | classDecl | varDecl | interfaceDecl | aliasDecl =>
      match marks, ts with
      | .one _, .cons _ .nil => rfl
    | _ => rfl

/-- The number of a node, if its form is recorded. -/
def Tree.ownRecord {c : Category} (t : Tree c) (id : Nat) : List Nat :=
  if Form.isRecorded c t.form then [id] else []

theorem Tree.ownRecord_subset {c} (t : Tree c) (id : Nat) : t.ownRecord id ⊆ [id] := by
  rw [ownRecord]
  split <;> simp

theorem PlannedOnce.enters {w} (h : PlannedOnce w s plan fs w')
    (fresh : w.context.wasVisited s.mark.id = false) (nodup : ((s.visits p).map Visit.id).Nodup) :
    Ledger.Enters w.ledger w'.ledger s.mark.id (s.ownRecord s.mark.id)
      ((w.news (s.visits p).tail).map Visit.id) := by
  have new : ¬(s.mark.id = 0 ∨ s.mark.id ∈ w.context.visited) := by
    rw [← Context.wasVisited_iff, fresh]
    exact nofun
  cases h with
  | visited hv =>
    rw [hv] at fresh
    cases fresh
  | @fresh _ _ w' _ planned =>
    obtain ⟨visited, recorded⟩ := planned.notes nodup
    have start : (w.recordStmt s).ledger =
        ⟨w.context.visited, w.context.mutations ++ s.ownRecord s.mark.id⟩ := by
      rw [Walker.recordStmt, Tree.ownRecord, Stmt.isRecorded_eq]
      split <;> simp [Walker.ledger, Walker.map, Context.recordMutation]
    obtain ⟨sameVisited, sameRecorded⟩ := Ledger.mk.inj start
    have same : (w.recordStmt s).news (s.visits p).tail = w.news (s.visits p).tail := by
      rw [Walker.news, Walker.news]
      simp only [Context.wasVisited, sameVisited]
    have finish := Effect.of_mark w' (fun zero => new (.inl zero))
    rw [sameVisited, same] at visited
    refine ⟨?_, fun i => ?_, ?_, s.ownRecord_subset _, ?_⟩
    · refine forall_mem_cons.2 ⟨fun seen => new (.inr seen), ?_⟩
      rintro _ hi seen
      obtain ⟨v, hv, rfl⟩ := mem_map.1 hi
      have unvisited := (mem_filter.1 hv).2
      rw [Context.wasVisited_iff.2 (.inr seen)] at unvisited
      cases unvisited
    · refine (finish.visited i).trans ?_
      rw [visited, mem_singleton, mem_cons, or_assoc]
      exact or_congr_right or_comm
    · refine finish.recorded.trans ?_
      rw [recorded, sameRecorded, same, append_nil, append_assoc]
      rfl
    · exact nodup.of_cons.sublist (filter_sublist.map _)

/-! ### What a walk covers -/

/-- All that a task keeps count of. -/
def Task.counted (k : Task) : List Nat := k.ids (fun _ _ => true) Category.isLeft

/-- All that a task records as changed. -/
def Task.recorded (k : Task) : List Nat := k.ids Form.isRecorded Category.isLeft

/-- From the ledger `a` to the ledger `b` the task is dealt with, provided that the numbers of its
nodes are distinct and that none of its nodes is synthetic. -/
def Task.Covered (k : Task) (a b : Ledger) (vs : List Visit) : Prop :=
  k.counted.Nodup → 0 ∉ k.counted → Ledger.Covers a b vs k.counted k.recorded

section

variable {keep keep' : (c : Category) → Form c → Bool} {skip skip' : Category → Bool}
  (hk : ∀ c form, keep c form = true → keep' c form = true)
  (hs : ∀ c, skip' c = true → skip c = true)

include hk hs

theorem Children.idsBy_mono {cs} (modes : List Mode) (ts : Children cs) :
    (ts.idsBy keep skip modes).Sublist (ts.idsBy keep' skip' modes) := by
  induction cs generalizing modes with
  | nil =>
    cases ts
    exact .refl _
  | cons c cs ih =>
    match ts with
    | .cons t ts =>
      rw [Children.idsBy, Children.idsBy]
      refine Sublist.append ?_ (ih modes.tail ts)
      split
      · exact .refl _
      · exact t.idsOf_mono hk hs

theorem Task.ids_mono (k : Task) : (k.ids keep skip).Sublist (k.ids keep' skip') := by
  cases k with
  | node t => exact t.idsOf_mono hk hs
  | inner t =>
    obtain ⟨form, marks, ts⟩ := t
    rw [ids, ids, partIds, partIds]
    split
    · exact .refl _
    · exact ts.idsOf_mono hk hs
  | parts modes ts => exact ts.idsBy_mono hk hs modes
  | child mode t =>
    rw [ids, ids]
    split
    · exact .refl _
    · exact t.idsOf_mono hk hs
  | each _ ts => exact .flatMap_right ts fun t _ => t.idsOf_mono hk hs
  | stmts rest => exact .flatMap_right rest fun t _ => t.idsOf_mono hk hs

end

/-- What a task records is part of what it keeps count of. -/
theorem Task.recorded_sublist (k : Task) : k.recorded.Sublist k.counted :=
  k.ids_mono (fun _ _ _ => rfl) fun _ => id

/-- Functions at the head of a task are part of what it keeps count of. -/
theorem Task.heads_sublist (k : Task) : k.heads.Sublist k.counted :=
  k.ids_mono (fun _ _ _ => rfl) Category.skips_heads.left

/-- The node of a tree is kept count of by the number `id`, followed by its parts. -/
def Tree.GoesBy {c : Category} (t : Tree c) (id : Nat) : Prop :=
  ∀ keep, t.idsOf keep Category.isLeft =
    (if keep c t.form then [id] else []) ++ t.partIds keep Category.isLeft

theorem Func.goesBy (f : Func) : f.GoesBy f.mark.id := by
  match f with
  | .node (c := .func) form marks ts => exact fun _ => rfl

theorem Stmt.goesBy (s : Stmt) : s.GoesBy s.mark.id := by
  match s with
  | .node (c := .stmt) form marks ts => exact fun _ => rfl

namespace Task.Covered

variable {k k₁ k₂ : Task} {a b c : Ledger} {us : List Visit}

theorem of_ids (h : k₁.Covered a b vs)
    (same : ∀ keep, k.ids keep Category.isLeft = k₁.ids keep Category.isLeft) :
    k.Covered a b vs := by
  intro nodup zero
  rw [counted, same] at nodup zero
  rw [counted, recorded, same, same]
  exact h nodup zero

theorem of_empty (empty : k.counted = []) : k.Covered a a [] := by
  intro _ _
  have none : k.recorded = [] := subset_nil.1 (empty ▸ k.recorded_sublist.subset)
  rw [empty, none]
  exact .refl a

/-- Two tasks in a row. -/
theorem both (h₁ : k₁.Covered a b vs) (h₂ : k₂.Covered b c us) (split : k.Splits k₁ k₂) :
    k.Covered a c (vs ++ us) := by
  intro nodup zero
  have same := split (fun _ _ => true) Category.skips_left
  have nodup : (k₁.counted ++ k₂.counted).Nodup := same.nodup_iff.1 nodup
  have zero : 0 ∉ k₁.counted ++ k₂.counted := fun hz => zero (same.mem_iff.2 hz)
  obtain ⟨nodup₁, nodup₂, apart⟩ := nodup_append.1 nodup
  rw [mem_append, not_or] at zero
  have covers := (h₁ nodup₁ zero.1).trans (h₂ nodup₂ zero.2) k₂.recorded_sublist.subset
    fun i hi hj => apart i hi i hj rfl
  exact covers.congr same.symm (split _ Category.skips_left).symm

variable {d : Category} {t : Tree d} {brief brief' : Brief} {id : Nat}

/-- A node that had been entered before, with its parts. -/
theorem seen (h : (Task.inner t brief').Covered a b vs) (own : t.GoesBy id)
    (hid : id = 0 ∨ id ∈ a.visited) : (Task.node t brief).Covered a b vs := by
  intro nodup zero
  have counted : (Task.node t brief).counted = id :: (Task.inner t brief').counted := own _
  have recorded : (Task.node t brief).recorded =
      t.ownRecord id ++ (Task.inner t brief').recorded := own _
  rw [counted] at nodup zero
  rw [counted, recorded]
  have parts := h (nodup_cons.1 nodup).2 fun hz => zero (mem_cons_of_mem _ hz)
  exact parts.seen (hid.resolve_left fun hz => zero (by simp [hz])) (t.ownRecord_subset id)

/-- A node that is entered now, with its parts. -/
theorem entered (h : (Task.inner t brief').Covered b c us) (own : t.GoesBy id) {early}
    (ids : vs.map Visit.id = id :: early) (inside : early ⊆ (Task.inner t brief').heads)
    (enters : (id :: (Task.inner t brief').heads).Nodup →
      Ledger.Enters a b id (t.ownRecord id) early) :
    (Task.node t brief).Covered a c (vs ++ us) := by
  intro nodup zero
  have counted : (Task.node t brief).counted = id :: (Task.inner t brief').counted := own _
  have recorded : (Task.node t brief).recorded =
      t.ownRecord id ++ (Task.inner t brief').recorded := own _
  rw [counted] at nodup zero
  rw [counted, recorded]
  have heads : (Task.inner t brief').heads.Sublist (Task.inner t brief').recorded :=
    Task.ids_mono Form.isRecorded_of_func Category.skips_heads.left _
  have parts := h nodup.of_cons fun hz => zero (mem_cons_of_mem _ hz)
  exact (enters (nodup.sublist ((Task.heads_sublist _).cons_cons _))).covers ids parts
    (List.Subset.trans inside heads.subset) (recorded_sublist _) nodup.of_cons
    (nodup_cons.1 nodup).1

end Task.Covered

theorem Tree.idsOf_of_inert {c} {t : Tree c} (h : t.isInert = true)
    (keep : (c : Category) → Form c → Bool) :
    t.idsOf keep Category.isLeft = t.partIds keep Category.isLeft := by
  match t, h with
  | .node form marks ts, h =>
    have none : form.nodeIds marks ts = [] := by
      cases c with
      | stmt | func => cases h
      | forInit =>
        match form, marks, ts, h with
        | .absent, .none, .nil, _ | .expr, .none, .cons _ .nil, _ => rfl
        | .decl, .none, .cons _ .nil, h => cases h
      | _ => rfl
    rw [idsOf_node, Tree.partIds, none]
    simp

theorem Tree.isSeries_of_inert {c} {t : Tree c} (h : t.isInert = true) : c.isSeries = false := by
  cases c with
  | many c | maybe c => cases h
  | _ => rfl

theorem keeps_of_inits {s} {ds : List Declarator} {plans} (h : ds.mapM (initPlanOf s) = .ok plans) :
    (Brief.inits plans).Keeps :=
  forall_of_mapM (fun d _ p hp => by
    rintro rfl
    exact InitPlan.planted hp d.everywhere_true []) h

theorem Planned.keeps {w} (h : Planned w s plan fs w') : (Brief.inits plan.initPlans).Keeps := by
  cases h with
  | varDecl planned => exact keeps_of_inits planned
  | @funcDecl _ _ _ _ _ _ plan => cases plan <;> exact nofun
  | _ => exact nofun

theorem PlannedOnce.keeps {w w' s plan fs} (h : PlannedOnce w s plan fs w') :
    (Brief.inits plan.initPlans).Keeps := by
  cases h with
  | visited => exact nofun
  | fresh _ planned => exact planned.keeps

/-- A node that is entered together with nothing else. -/
theorem Effect.enters {w : Walker} {i : Nat} {names : List String} {frame : Frame → Frame}
    (h : Effect w w' [i] [i] names frame) (fresh : w.context.wasVisited i = false) :
    Ledger.Enters w.ledger w'.ledger i [i] [] where
  fresh := by
    rw [forall_mem_singleton]
    intro seen
    rw [Context.wasVisited_iff.2 (.inr seen)] at fresh
    cases fresh
  visited := h.visited
  recorded := h.recorded
  own := .refl _
  nodup := nodup_nil

/-- **Every node once.**  A walk without errors deals with all that its task keeps count of. -/
theorem Walks.covers {k w out} (h : Walks p k w out w' vs) :
    w'.errors = [] → k.Keeps → k.Covered w.ledger w'.ledger vs := by
  induction h with
  | inert hi _ ih =>
    intro clean keeps
    exact (ih clean ⟨isSeries_of_inert hi, keeps⟩).of_ids (idsOf_of_inert hi)
  | @stmt p w _ _ s _ _ _ _ planned inner ih =>
    intro clean _
    obtain ⟨-, once⟩ := planStmtOnce_clean planned (inner.clean clean)
    have parts := ih clean ⟨rfl, once.keeps⟩
    cases hv : w.context.wasVisited s.mark.id with
    | false =>
      exact parts.entered s.goesBy (congrArg (map Visit.id) (stmtVisits_eq hv)) (s.news_subset _)
        fun nodup => once.enters hv (nodup.sublist (s.visits_sublist _))
    | true =>
      rw [stmtVisits, if_pos hv]
      cases once with
      | visited => exact parts.seen s.goesBy (Context.wasVisited_iff.1 hv)
      | fresh hv' => exact nomatch hv.symm.trans hv'
  | @func _ w w₁ _ f _ _ _ _ planned inner ih =>
    intro clean _
    obtain ⟨plan, rfl, same, ⟨hv, -, rfl⟩ | ⟨hv, -, effect⟩⟩ :=
      planFuncOnce_clean planned (inner.clean clean)
    · rw [funcVisits, if_pos hv]
      exact (ih clean ⟨rfl, trivial⟩).seen f.goesBy (Context.wasVisited_iff.1 hv)
    · have parts := ih clean ⟨rfl, trivial⟩
      rw [same] at parts
      rw [funcVisits, if_neg (by simp [hv])]
      exact parts.entered f.goesBy rfl (nil_subset _) fun _ => effect.enters hv
  | @header _ w w₁ _ decl _ plans _ planned inner ih =>
    intro clean _
    match decl, planned, ih with
    | VarDecl.mk mark form ds, planned, ih =>
      obtain ⟨-, ⟨hv, rfl, rfl⟩ | ⟨hv, plans, effect⟩⟩ :=
        planVarOnce_clean rfl planned (inner.clean clean)
      · rw [headerVisits, if_pos hv]
        exact (ih clean ⟨rfl, by simp [Brief.Keeps]⟩).seen (fun _ => rfl)
          (Context.wasVisited_iff.1 hv)
      · rw [headerVisits, if_neg (by simp [hv])]
        exact (ih clean ⟨rfl, keeps_of_inits plans⟩).entered (fun _ => rfl) rfl (nil_subset _)
          fun _ => effect.enters hv
  | @inner _ _ _ _ _ form marks _ ts _ _ _ ih =>
    rintro clean ⟨series, keeps⟩
    have parts := ih (by simpa using clean) (form.modes_keep series marks ts keeps)
    simp only [ledger_enter] at parts
    rw [ledger_leave]
    exact parts.of_ids (form.sameIds_modes series marks ts keeps).left
  | @doWhile _ _ _ _ _ test _ body _ _ _ _ _ second ihFirst ihSecond =>
    intro clean _
    exact (ihFirst (second.clean clean) trivial).both (ihSecond clean trivial) (Task.splits_doWhile _)
  | partsCons _ tail ihHead ihTail =>
    intro clean keeps
    obtain ⟨head, rest⟩ := forall_mem_cons.1 keeps
    exact (ihHead (tail.clean clean) head).both (ihTail clean rest) fun _ _ _ => .refl _
  | told _ ih => exact fun clean keeps => (ih clean keeps).of_ids fun _ => rfl
  | @toldMany _ _ _ _ _ _ _ t _ ih =>
    exact fun clean keeps => (ih clean keeps).of_ids (Task.sameIds_many _ t).left
  | @toldAbsent _ _ c =>
    exact fun _ _ => .of_empty (show (Tree.absent (c := c)).counted = [] from idsOf_absent)
  | @toldPresent _ _ _ _ _ _ t _ _ ih =>
    exact fun clean keeps => (ih clean keeps).of_ids (Task.sameIds_present _ t).left
  | @list _ _ _ stmts _ _ _ ih | @top _ _ _ stmts _ _ _ ih =>
    intro clean _
    have all := ih clean trivial
    rw [Walker.ledger_declareAll] at all
    exact all.of_ids (Task.sameIds_stmts rfl stmts).left
  | inScope _ _ ih => exact ih
  | generic _ ih =>
    intro clean keeps
    have part := ih (by simpa using clean) keeps
    rw [Walker.ledger_pushGenerics] at part
    rw [Walker.ledger_popGenerics]
    exact part
  | eachCons _ tail ihHead ihTail =>
    intro clean keeps
    exact (ihHead (tail.clean clean) keeps.head).both (ihTail clean keeps.tail) fun _ _ _ => .refl _
  | stmtsCons _ tail ihHead ihTail =>
    intro clean _
    exact (ihHead (tail.clean clean) trivial).both (ihTail clean trivial) fun _ _ _ => .refl _
  | _ => exact fun _ _ => .of_empty rfl

/-! ### A second walk -/

/-- What comes out of a task is what went in. -/
def Task.Same : (k : Task) → k.Out → Prop
  | node t _, out => out = (t, [])
  | inner t _, out => out = t
  | parts _ ts, out => out = ts
  | child _ t, out => out = t
  | each _ ts, out => out = ts
  | stmts rest, out => out = rest

/-- There is nothing left to do for a task: each of its nodes is synthetic or has been entered. -/
def Task.Done (k : Task) (a : Ledger) : Prop := ∀ i ∈ k.counted, i = 0 ∨ i ∈ a.visited

namespace Task.Done

variable {k k₁ k₂ : Task} {a : Ledger}

theorem of_ids (h : k.Done a)
    (same : ∀ keep, k.ids keep Category.isLeft = k₁.ids keep Category.isLeft) : k₁.Done a := by
  rw [Done, counted, same] at h
  exact h

theorem both (h : k.Done a) (k₁ k₂ : Task) (split : k.Splits k₁ k₂) : k₁.Done a ∧ k₂.Done a := by
  have all : ∀ i ∈ k₁.counted ++ k₂.counted, i = 0 ∨ i ∈ a.visited :=
    fun i hi => h i ((split _ Category.skips_left).mem_iff.2 hi)
  exact forall_mem_append.1 all

/-- The node itself has been entered, and there is nothing left to do for its parts. -/
theorem own {d} {t : Tree d} {brief brief' id} {c : Context}
    (h : (Task.node t brief).Done ⟨c.visited, c.mutations⟩)
    (own : t.GoesBy id) :
    c.wasVisited id = true ∧ (Task.inner t brief').Done ⟨c.visited, c.mutations⟩ := by
  have counted : (Task.node t brief).counted = id :: (Task.inner t brief').counted := own _
  rw [Done, counted, forall_mem_cons] at h
  exact ⟨Context.wasVisited_iff.2 h.1, h.2⟩

end Task.Done

theorem VarDecl.applyInits_nil (decl : VarDecl) : VarDecl.applyInits [] decl = decl := by
  match decl with
  | VarDecl.mk mark form ds =>
    change VarDecl.mk mark form (.ofList ds.toList) = _
    rw [ofList_toList]

/-- Where there is nothing left to do, a walk changes nothing and reports nothing. -/
theorem Walks.idle {k w out} (h : Walks p k w out w' vs) :
    k.Keeps → k.Done w.ledger → k.Same out ∧ w'.ledger = w.ledger ∧ w'.errors = w.errors := by
  induction h with
  | inert hi _ ih =>
    intro keeps done
    obtain ⟨rfl, same⟩ := ih ⟨isSeries_of_inert hi, keeps⟩
      (done.of_ids (idsOf_of_inert hi))
    exact ⟨rfl, same⟩
  | @stmt _ w _ _ s _ _ _ _ planned inner ih =>
    intro _ done
    obtain ⟨hv, parts⟩ := done.own s.goesBy
    rw [planStmtOnce_of_visited hv] at planned
    cases planned
    obtain ⟨rfl, same⟩ := ih ⟨rfl, by simp [StmtPlan.initPlans, Brief.Keeps]⟩ parts
    exact ⟨rfl, same⟩
  | @func _ w w₁ _ f f' role _ _ planned inner ih =>
    intro _ done
    obtain ⟨hv, parts⟩ := done.own f.goesBy
    rw [planFuncOnce_of_visited role hv] at planned
    cases planned
    obtain ⟨walked, same⟩ := ih ⟨rfl, trivial⟩ parts
    exact ⟨congrArg (·, []) (show f' = f from walked), same⟩
  | @header _ w w₁ _ decl decl' plans _ planned inner ih =>
    intro _ done
    obtain ⟨hv, parts⟩ := done.own fun _ => rfl
    rw [planVarOnce_of_visited hv] at planned
    cases planned
    obtain ⟨walked, same⟩ := ih ⟨rfl, by simp [Brief.Keeps]⟩ parts
    refine ⟨?_, same⟩
    change (ForInit.decl (VarDecl.applyInits [] decl'), []) = _
    rw [VarDecl.applyInits_nil, show ForInit.decl decl' = ForInit.decl decl from walked]
  | @inner _ _ _ _ _ form marks _ ts _ _ _ ih =>
    rintro ⟨series, keeps⟩ done
    obtain ⟨rfl, ledger, errors⟩ := ih (form.modes_keep series marks ts keeps) (by
      rw [ledger_enter]
      exact done.of_ids (form.sameIds_modes series marks ts keeps).left)
    refine ⟨rfl, ?_, ?_⟩
    · rw [ledger_leave, ledger, ledger_enter]
    · rw [errors_leave, errors, errors_enter]
  | @doWhile _ _ _ _ site test _ body _ _ _ _ _ _ ihFirst ihSecond =>
    intro _ done
    obtain ⟨first, second⟩ := done.both _ _ (Task.splits_doWhile _)
    obtain ⟨walkedBody, ledger, errors⟩ := ihFirst trivial first
    obtain ⟨walkedTest, ledger', errors'⟩ := ihSecond trivial (ledger ▸ second)
    refine ⟨?_, ledger'.trans ledger, errors'.trans errors⟩
    exact congrArg₂ (Stmt.doWhile site) walkedTest walkedBody
  | @partsCons _ _ _ _ mode modes _ _ _ _ t _ ts _ _ _ ihHead ihTail =>
    intro keeps done
    obtain ⟨head, rest⟩ := forall_mem_cons.1 keeps
    obtain ⟨first, second⟩ := done.both (.child mode t) (.parts modes ts) fun _ _ _ => .refl _
    obtain ⟨rfl, ledger, errors⟩ := ihHead head first
    obtain ⟨rfl, ledger', errors'⟩ := ihTail rest (ledger ▸ second)
    exact ⟨rfl, ledger'.trans ledger, errors'.trans errors⟩
  | @told _ _ _ _ _ _ _ t _ _ ih =>
    intro keeps done
    obtain ⟨same, rest⟩ := ih keeps done
    obtain ⟨rfl, rfl⟩ := Prod.mk.inj same
    exact ⟨followedBy_nil _, rest⟩
  | @toldMany _ _ _ _ _ _ _ t _ ih =>
    intro keeps done
    obtain ⟨rfl, same⟩ := ih keeps (done.of_ids (Task.sameIds_many _ t).left)
    exact ⟨t.ofList_toList, same⟩
  | @toldPresent _ _ _ _ _ _ t _ _ ih =>
    intro keeps done
    obtain ⟨rfl, same⟩ := ih keeps (done.of_ids (Task.sameIds_present _ t).left)
    exact ⟨rfl, same⟩
  | @list _ _ _ stmts _ _ _ ih | @top _ _ _ stmts _ _ _ ih =>
    intro _ done
    obtain ⟨rfl, ledger, errors⟩ := ih trivial (by
      rw [Walker.ledger_declareAll]
      exact done.of_ids (Task.sameIds_stmts rfl stmts).left)
    rw [Walker.ledger_declareAll] at ledger
    exact ⟨stmts.ofList_toList, ledger, errors⟩
  | inScope _ _ ih => exact ih
  | generic _ ih =>
    intro keeps done
    rw [← Walker.ledger_pushGenerics] at done
    obtain ⟨rfl, ledger, errors⟩ := ih keeps done
    refine ⟨rfl, ?_, ?_⟩
    · rw [Walker.ledger_popGenerics, ledger, Walker.ledger_pushGenerics]
    · rw [Walker.errors_popGenerics, errors, Walker.errors_pushGenerics]
  | @eachCons _ _ _ _ _ brief _ _ ts _ t _ _ _ ihHead ihTail =>
    intro keeps done
    obtain ⟨first, second⟩ := done.both (.child (.told brief.head) t) (.each brief.tail ts)
      fun _ _ _ => .refl _
    obtain ⟨rfl, ledger, errors⟩ := ihHead keeps.head first
    obtain ⟨rfl, ledger', errors'⟩ := ihTail keeps.tail (ledger ▸ second)
    exact ⟨rfl, ledger'.trans ledger, errors'.trans errors⟩
  | @stmtsCons _ _ _ _ s _ _ rest out _ _ _ _ ihHead ihTail =>
    intro _ done
    obtain ⟨first, second⟩ := done.both (.node s .none) (.stmts rest) fun _ _ _ => .refl _
    obtain ⟨head, ledger, errors⟩ := ihHead trivial first
    obtain ⟨tail, ledger', errors'⟩ := ihTail trivial (ledger ▸ second)
    obtain ⟨walked, none⟩ := Prod.mk.inj head
    refine ⟨?_, ledger'.trans ledger, errors'.trans errors⟩
    change _ :: _ ++ _ = s :: rest
    rw [walked, none, show out = rest from tail]
    rfl
  | _ => exact fun _ _ => ⟨rfl, rfl, rfl⟩

/-! ### Numbers after a walk -/

theorem Tree.Synthetic.counted {c} {t : Tree c} (h : t.Synthetic) : ∀ i ∈ t.counted, i = 0 := by
  intro i hi
  obtain ⟨m, hm, rfl⟩ := mem_map.1 ((t.idsOf_sublist _ _).subset hi)
  exact h m hm

/-- Code that is added brings no new numbers. -/
def Shape.AddsNoIds : (k : Shape) → k.Of → k.Of → Prop
  | .tree _, t, t' => ∀ i ∈ t'.counted, i = 0 ∨ i ∈ t.counted
  | .parts _, ts, ts' => ∀ i ∈ ts'.idsOf (fun _ _ => true) Category.isLeft,
      i = 0 ∨ i ∈ ts.idsOf (fun _ _ => true) Category.isLeft
  | .list _, ts, ts' => ∀ i ∈ ts'.flatMap Tree.counted, i = 0 ∨ i ∈ ts.flatMap Tree.counted

theorem Padded.counted {c} {us us' : List (Tree c)} (h : Padded Tree.IsAdded us us') :
    ∀ i ∈ us'.flatMap Tree.counted, i = 0 ∨ i ∈ us.flatMap Tree.counted := by
  intro i hi
  obtain ⟨t, ht, hi⟩ := mem_flatMap.1 hi
  rcases h.mem ht with ht | added
  · exact .inr (mem_flatMap.2 ⟨t, ht, hi⟩)
  · exact .inl (added.synthetic.counted i hi)

theorem Tree.counted_ofList {c} (ts : List (Tree c)) :
    (Tree.ofList ts).counted = ts.flatMap Tree.counted :=
  idsOf_ofList rfl ts

theorem Grows.nodeIds {c} {form : Form c} {marks} {ts ts' : Children form.arity}
    (h : Grows (.parts form.arity) ts ts') : form.nodeIds marks ts' = form.nodeIds marks ts := by
  cases c with
  | forInit =>
    cases form with
    | decl =>
      match h with
      | .partsCons decl .partsNil =>
        cases decl
        rfl
    | _ => rfl
  | _ => rfl

theorem counted_assertion (loc : Loc) (r e : Expr) :
    (assertion loc r [e]).counted = r.counted ++ e.counted := by
  have parts : (assertion loc r [e]).counted =
      (r.counted ++ []) ++ (((e.counted ++ []) ++ []) ++ []) := rfl
  simpa using parts

theorem counted_block (loc : Loc) (ss : List Stmt) :
    (Stmt.block (.synthetic loc) (Block.mk (.synthetic loc) (.ofList ss))).counted =
      0 :: ss.flatMap Tree.counted := by
  have parts : (Stmt.block (.synthetic loc) (Block.mk (.synthetic loc) (.ofList ss))).counted =
      0 :: (((Tree.ofList ss).counted ++ []) ++ []) := rfl
  simpa [counted_ofList] using parts

theorem counted_returnStmt (loc : Loc) (e : Expr) :
    (Synthetic.returnStmt loc e).counted = 0 :: e.counted := by
  have parts : (Synthetic.returnStmt loc e).counted = 0 :: ((e.counted ++ []) ++ []) := rfl
  simpa using parts

/-- A tree that grows keeps its numbers and gets no new ones. -/
theorem Grows.addsNoIds {k x x'} (h : Grows k x x') : k.AddsNoIds x x' := by
  induction h with
  | @node c form marks ts ts' _ parts ih =>
    intro i hi
    rw [Tree.counted, idsOf_node] at hi ⊢
    split at hi
    · cases hi
    case isFalse hl =>
      rw [if_neg hl, mem_append]
      rcases mem_append.1 hi with hi | hi
      · rw [parts.nodeIds] at hi
        exact .inr (.inl hi)
      · exact (ih i hi).imp_right .inr
  | @many c ts us us' _ padded ih =>
    intro i hi
    rw [counted_ofList] at hi ⊢
    exact (padded.counted i hi).elim .inl (ih i)
  | @checked loc e e' r hr _ ih =>
    intro i hi
    rw [counted_assertion, mem_append] at hi
    exact hi.elim (fun hi => .inl (hr.counted i hi)) (ih i)
  | @wrapped loc s s' ss _ _ padded ih =>
    intro i hi
    rw [counted_block, mem_cons] at hi
    rcases hi with rfl | hi
    · exact .inl rfl
    · refine (padded.counted i hi).elim .inl fun hi => ih i ?_
      simpa using hi
  | @returned loc e e' ss _ padded ih =>
    intro i hi
    have body : (FuncBody.block (.ofList ss)).counted = (Tree.ofList ss).counted ++ [] := rfl
    have value : (FuncBody.expr e).counted = e.counted ++ [] := rfl
    rw [body, append_nil, counted_ofList] at hi
    rw [value, append_nil]
    refine (padded.counted i hi).elim .inl fun hi => ?_
    rw [flatMap_singleton, counted_returnStmt, mem_cons] at hi
    exact hi.elim .inl (ih i)
  | partsCons _ _ head tail =>
    intro i hi
    rw [Children.idsOf_cons, mem_append] at hi ⊢
    exact hi.elim (fun hi => (head i hi).imp_right .inl) fun hi => (tail i hi).imp_right .inr
  | listCons _ _ head tail =>
    intro i hi
    rw [flatMap_cons, mem_append] at hi ⊢
    exact hi.elim (fun hi => (head i hi).imp_right .inl) fun hi => (tail i hi).imp_right .inr
  | _ => exact nofun

/-! ### Units -/

theorem ledger_start (options : Options) (unit : SourceUnit) :
    ({ context := .start options unit } : Walker).ledger = ⟨[], []⟩ := by
  match unit with
  | SourceUnit.mk _ _ => rfl

/-- A walk over a unit whose nodes have distinct numbers enters them all. -/
theorem SourceUnit.covered {options} {unit walked : SourceUnit} {w} (original : unit.Original)
    (distinct : (unit.marks.map Mark.id).Nodup)
    (walks : Walks p (.node unit .none) { context := .start options unit } (walked, []) w vs)
    (clean : w.errors = []) :
    (∀ i, i ∈ w.context.visited ↔ i ∈ unit.counted) ∧ (vs.map Visit.id).Perm unit.counted ∧
      w.context.mutations.Perm (unit.recorded Category.isLeft) := by
  have zero : 0 ∉ unit.counted := by
    intro hz
    obtain ⟨m, hm, h0⟩ := mem_map.1 ((unit.idsOf_sublist _ _).subset hz)
    exact original m hm h0
  have covers := walks.covers clean trivial (distinct.sublist (unit.idsOf_sublist _ _)) zero
  rw [ledger_start] at covers
  obtain ⟨visited, visits, recorded⟩ := covers
  simp only [not_mem_nil, not_false_eq_true, decide_true, filter_true] at visits recorded
  exact ⟨fun i => (visited i).trans (or_iff_right not_mem_nil), visits, recorded⟩

/-- **Visited once.**  On a unit whose nodes have distinct numbers, a walk that reports nothing
records exactly the declarations of classes, interfaces, type aliases and variables, the latter in
loop headers as well, and the functions, each once; those inside types, decorators, enum members and
imports are left out.  Walking what comes out again, from the state that the walk has led to,
changes neither the unit nor the ledger and reports nothing. -/
theorem walk_visits_once (options : Options) (unit : SourceUnit) {walked : SourceUnit} {w : Walker}
    (original : unit.Original) (distinct : (unit.marks.map Mark.id).Nodup)
    (run : (SourceUnit.walk unit).run { context := .start options unit } = (walked, w))
    (clean : w.errors = []) :
    w.context.mutations.Perm (unit.recorded Category.isLeft) ∧
      ∃ w', (SourceUnit.walk walked).run w = (walked, w') ∧
        w'.context.mutations = w.context.mutations ∧ w'.context.visited = w.context.visited ∧
        w'.errors = [] := by
  obtain ⟨vs, walks⟩ := SourceUnit.walks unit { context := .start options unit }
  rw [run] at walks
  obtain ⟨visited, -, recorded⟩ := SourceUnit.covered original distinct walks clean
  refine ⟨recorded, ?_⟩
  obtain ⟨vs', again⟩ := SourceUnit.walks walked w
  rcases second : (SourceUnit.walk walked).run w with ⟨walked', w'⟩
  rw [second] at again
  have done : (Task.node walked .none).Done w.ledger := by
    intro i hi
    exact ((walks.grows clean).1.addsNoIds i hi).imp_right (visited i).2
  obtain ⟨same, ledger, errors⟩ := again.idle trivial done
  obtain ⟨rfl, -⟩ := Prod.mk.inj same
  obtain ⟨visited', recorded'⟩ := Ledger.mk.inj ledger
  exact ⟨w', rfl, recorded', visited', errors.trans clean⟩

/-- `class C { m() { for (let i;;) {} } }` -/
def loopInMethod : SourceUnit :=
  (SourceUnit.mk {} (.ofList [
    Stmt.classDecl {} (ClassDecl.mk {} ⟨false, false, false, false⟩ (.ofList [])
      (.present (Name.mk {} "C")) .absent .absent .absent (.ofList [])
      (.ofList [ClassMember.mk {} ⟨false, false, false, none⟩ (.ofList [])
        (MemberKey.direct {} "m") .absent
        (MemberVal.function {} .method (Func.mk {} ⟨false, false, false⟩ .absent (.ofList []) .absent
          (.present (FuncBody.block (.ofList [
            Stmt.forLoop {} (ForInit.decl (VarDecl.mk {} ⟨false, .block⟩ (.ofList [
              Declarator.mk {} (Binding.mk {} (Pat.ident {} "i")) .absent .absent])))
              .absent .absent (Block.mk {} (.ofList []))])))))]))])).numbered

/-- What the walk makes of the unit, and the state that it leads to. -/
def loopInMethodWalked : SourceUnit × Walker :=
  (SourceUnit.walk loopInMethod).run { context := .start {} loopInMethod }

theorem walk_visits_once_loopInMethod :
    loopInMethod.Original ∧ (loopInMethod.marks.map Mark.id).Nodup ∧
      loopInMethodWalked.2.errors = [] ∧
      loopInMethodWalked.2.context.mutations.Perm (loopInMethod.recorded Category.isLeft) ∧
      ∃ w', (SourceUnit.walk loopInMethodWalked.1).run loopInMethodWalked.2 =
          (loopInMethodWalked.1, w') ∧
        w'.context.mutations = loopInMethodWalked.2.context.mutations ∧
        w'.context.visited = loopInMethodWalked.2.context.visited ∧ w'.errors = [] := by
  have original : loopInMethod.Original := by decide +kernel
  have distinct : (loopInMethod.marks.map Mark.id).Nodup := by decide +kernel
  have clean : loopInMethodWalked.2.errors = [] := List.isEmpty_iff.1 (by decide +kernel)
  have run : loopInMethodWalked = (loopInMethodWalked.1, loopInMethodWalked.2) :=
    (Prod.eta loopInMethodWalked).symm
  exact ⟨original, distinct, clean, walk_visits_once {} loopInMethod original distinct run clean⟩

/-- `interface I { [() => x]: string }` -/
def keyedInterface : SourceUnit :=
  (SourceUnit.mk {} (.ofList [
    Stmt.interfaceDecl {} (InterfaceDecl.mk {} ⟨false, false, "I"⟩ .absent (.ofList [])
      (.ofList [TypeMember.property {} false false
        (TypeKey.computed (Expr.arrow {} (Func.mk {} ⟨true, false, false⟩ .absent (.ofList [])
          .absent (.present (FuncBody.expr (Expr.ident {} "x"))))))
        (.present (TypeExpr.keyword {} .string))]))])).numbered

/-- The state after walking the unit. -/
def keyedInterfaceWalked : Walker :=
  ((SourceUnit.walk keyedInterface).run { context := .start {} keyedInterface }).2

/-- Categories of types, decorators and members of enums. -/
def Category.isAside : Category → Bool
  | .type | .decorator | .enumMember => true
  | _ => false

/-- A function in the computed key of an interface member stands in no type, and yet it is not
recorded. -/
theorem walk_skips_computed_key :
    keyedInterface.Original ∧ (keyedInterface.marks.map Mark.id).Nodup ∧
      keyedInterfaceWalked.errors = [] ∧
      ¬keyedInterfaceWalked.context.mutations.Perm (keyedInterface.recorded Category.isAside) := by
  refine ⟨by decide +kernel, by decide +kernel, List.isEmpty_iff.1 (by decide +kernel), ?_⟩
  have recorded : keyedInterface.recorded Category.isAside = [2, 8] := by decide +kernel
  have walked : keyedInterfaceWalked.context.mutations = [2] := by decide +kernel
  rw [recorded, walked]
  decide

end Reify
