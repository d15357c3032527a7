import Reify.Proofs.Check.Renumber
import Reify.Proofs.Reflection.Wrapping

/-!
# Renumbered states

A walk tells nodes apart by their numbers and uses them for nothing else.  A renumbering that keeps
0 and is injective carries over to the state of a walk: each step does to the renumbered state what
it does to the state.
-/

namespace Reify

open List

variable (r : Renumbering) (n : Nat)

/-! ### Renumbered states -/

/-- Renumbers the type parameters that are kept for an interface. -/
def Pending.renumber (p : Pending) : Pending :=
  { p with typeParams := p.typeParams.map (List.map (Tree.renumber r.map)) }

/-- Renumbers what is kept of a statement list. -/
def Frame.renumber (f : Frame) : Frame :=
  { f with pending := f.pending.map fun entry => (entry.1, entry.2.renumber r) }

/-- Applies a function to every element. -/
def Stack.map {α β : Type} (f : α → β) (s : Stack α) : Stack β := ⟨f s.top, s.below.map f⟩

/-- Renumbers the nodes that a state remembers; `n` is the next free number. -/
def Context.renumber (c : Context) : Context :=
  { c with
    frames := c.frames.map (Frame.renumber r)
    visited := c.visited.map r.map
    nextId := n
    mutations := c.mutations.map r.map }

theorem Renumbering.map_eq_zero {r : Renumbering} {i} : r.map i = 0 ↔ i = 0 := by
  constructor
  · intro h
    exact r.injective (h.trans r.zero.symm)
  · rintro rfl
    exact r.zero

theorem Renumbering.mem_map {r : Renumbering} {i} {ids : List Nat} :
    r.map i ∈ ids.map r.map ↔ i ∈ ids :=
  mem_map_of_injective r.injective

namespace Context

variable {r n} {c : Context}

theorem wasVisited_renumber (i : Nat) :
    (c.renumber r n).wasVisited (r.map i) = c.wasVisited i := by
  rw [Bool.eq_iff_iff]
  simp [wasVisited, Context.renumber, Renumbering.map_eq_zero, r.injective.eq_iff]

theorem markVisited_renumber (i : Nat) :
    (c.renumber r n).markVisited (r.map i) = (c.markVisited i).renumber r n := by
  have insert : (c.visited.map r.map).insert (r.map i) = (c.visited.insert i).map r.map := by
    by_cases known : i ∈ c.visited
    · rw [insert_of_mem known, insert_of_mem (Renumbering.mem_map.2 known)]
    · have unknown : r.map i ∉ c.visited.map r.map := fun h => known (Renumbering.mem_map.1 h)
      rw [insert_of_not_mem known, insert_of_not_mem unknown, map_cons]
  unfold markVisited
  by_cases zero : i = 0
  · rw [if_pos zero, if_pos (Renumbering.map_eq_zero.2 zero)]
  · rw [if_neg zero, if_neg fun h => zero (Renumbering.map_eq_zero.1 h)]
    exact congrArg (fun visited => { c.renumber r n with visited }) insert

theorem recordMutation_renumber (i : Nat) :
    (c.renumber r n).recordMutation (r.map i) = (c.recordMutation i).renumber r n := by
  have append : c.mutations.map r.map ++ [r.map i] = (c.mutations ++ [i]).map r.map := by
    rw [map_append, map_cons, map_nil]
  exact congrArg (fun mutations => { c.renumber r n with mutations }) append

end Context

namespace Frame

variable {r}

theorem lookup_renumber (name : String) (pending : List (String × Pending)) :
    (pending.map fun entry => (entry.1, entry.2.renumber r)).lookup name =
      (pending.lookup name).map (Pending.renumber r) := by
  induction pending with
  | nil => rfl
  | cons entry pending ih =>
    rw [map_cons, lookup_cons, lookup_cons, ih]
    split <;> rfl

theorem detached_renumber {c} (ts : Many c) :
    (ts.renumber r.map).toList.map Tree.detach = ts.toList.map Tree.detach := by
  rw [Tree.toList_renumber, map_map]
  exact map_congr_left fun t _ => t.detach_renumber

/-- Adding a declaration of an interface commutes with renumbering. -/
theorem accumulate_renumber (f : Frame) : (decl : InterfaceDecl) →
    (f.renumber r).accumulate (decl.renumber r.map) =
      ((f.accumulate decl).1.renumber r, (f.accumulate decl).2.map (Pending.renumber r))
  | InterfaceDecl.mk mark form typeParams bases members => by
    have others : (f.renumber r).pending.filter (·.1 != form.name) =
        (f.pending.filter (·.1 != form.name)).map fun entry => (entry.1, entry.2.renumber r) := by
      rw [Frame.renumber, filter_map]
      rfl
    have start (total : Nat) : ((f.renumber r).pending.lookup form.name).getD
        { remaining := total } =
          ((f.pending.lookup form.name).getD { remaining := total }).renumber r := by
      rw [Frame.renumber, lookup_renumber]
      cases f.pending.lookup form.name <;> rfl
    have kept (ps : Option (List TypeParam)) :
        (ps.map (List.map (Tree.renumber r.map)) <|>
          (typeParams.renumber r.map).toOption.map Tree.toList) =
        (ps <|> typeParams.toOption.map Tree.toList).map (List.map (Tree.renumber r.map)) := by
      rw [Tree.toOption_renumber]
      cases ps with
      | some ps => rfl
      | none =>
        cases typeParams.toOption with
        | none => rfl
        | some ps => exact congrArg some ps.toList_renumber
    change Frame.accumulate _ (InterfaceDecl.mk (mark.renumber r.map) form
      (typeParams.renumber r.map) (bases.renumber r.map) (members.renumber r.map)) = _
    rw [Frame.accumulate, Frame.accumulate, others]
    have total : (f.renumber r).hasInterface form.name = f.hasInterface form.name ∧
        (f.renumber r).interfaceCount form.name = f.interfaceCount form.name := ⟨rfl, rfl⟩
    simp only [total.1, total.2, start, detached_renumber]
    generalize (f.pending.lookup form.name).getD _ = p
    simp only [Pending.renumber, kept]
    split <;> rfl

theorem className?_renumber (f : Nat → Nat) (s : Stmt) :
    Frame.className? (s.renumber f) = Frame.className? s := by
  match s with
  | .node (c := .stmt) form marks ts =>
    cases form with
    | classDecl =>
      match marks, ts with
      | .one _, .cons (ClassDecl.mk mark form decorators name typeParams base baseArgs implemented
          members) .nil =>
        exact congrArg (if form.ambient then none else ·) (ClassDecl.name?_renumber
          (ClassDecl.mk mark form decorators name typeParams base baseArgs implemented members))
    | _ => rfl

theorem interface?_renumber (s : Stmt) :
    Frame.interface? (s.renumber r.map) = Frame.interface? s := by
  match s with
  | .node (c := .stmt) form marks ts =>
    cases form with
    | interfaceDecl =>
      match marks, ts with
      | .one _, .cons (InterfaceDecl.mk mark form typeParams bases members) .nil =>
        exact congrArg (fun members => if form.ambient then none else some (form.name, members))
          (detached_renumber members)
    | _ => rfl

theorem ofStmts_renumber (ss : List Stmt) :
    Frame.ofStmts (ss.map (Tree.renumber r.map)) = Frame.ofStmts ss := by
  rw [Frame.ofStmts, Frame.ofStmts, filterMap_map, filterMap_map]
  have classes : Frame.className? ∘ Tree.renumber r.map = Frame.className? :=
    funext (className?_renumber r.map)
  have interfaces : Frame.interface? ∘ Tree.renumber r.map = Frame.interface? :=
    funext interface?_renumber
  rw [classes, interfaces]

end Frame

theorem Context.accumulate_renumber {r n} {c : Context} (decl : InterfaceDecl) :
    (c.renumber r n).accumulate (decl.renumber r.map) =
      ((c.accumulate decl).1.renumber r n, (c.accumulate decl).2.map (Pending.renumber r)) := by
  have frame := c.frame.accumulate_renumber (r := r) decl
  have top : (c.renumber r n).frame = c.frame.renumber r := rfl
  rw [Context.accumulate, Context.accumulate, top, frame]
  rfl

/-! ### What a walk looks at -/

theorem MemberVal.role_renumber (f : Nat → Nat) : (v : MemberVal) →
    MemberVal.role (v.renumber f) = MemberVal.role v
  | MemberVal.function _ .getter _ | MemberVal.function _ .setter _ | MemberVal.function _ .method _
  | MemberVal.property _ | MemberVal.index _ _ _ _ => rfl

theorem ClassMember.access_renumber (f : Nat → Nat) (className : Option String) :
    (m : ClassMember) → ClassMember.access className (m.renumber f) = ClassMember.access className m
  | ClassMember.mk mark form decorators key type val => by
    let m := ClassMember.mk mark form decorators key type val
    exact congrArg (memberAccess className (ClassMember.isStatic m))
      (ClassMember.isConstructor_renumber m)

theorem ClassMember.role_renumber (f : Nat → Nat) : (m : ClassMember) →
    ClassMember.role (m.renumber f) = ClassMember.role m
  | ClassMember.mk mark form decorators key type val => by
    let m := ClassMember.mk mark form decorators key type val
    change (if ClassMember.isConstructor (m.renumber f) then Role.constructor
      else MemberVal.role (val.renumber f)) = _
    rw [ClassMember.isConstructor_renumber, MemberVal.role_renumber]
    rfl

theorem constructorStmts_renumber (f : Nat → Nat) (ms : List ClassMember) :
    constructorStmts (ms.map (Tree.renumber f)) =
      (constructorStmts ms).map (Tree.renumber f) := by
  have target : ConstructorPlan.isTarget ∘ Tree.renumber f = ConstructorPlan.isTarget :=
    funext ConstructorPlan.isTarget_renumber
  rw [constructorStmts, constructorStmts, find?_map, target]
  match ms.find? ConstructorPlan.isTarget with
  | none => rfl
  | some (ClassMember.mk _ _ _ _ _ (MemberVal.function _ _
      (Func.mk _ _ _ _ _ (.present (FuncBody.block stmts))))) => exact stmts.toList_renumber
  | some (ClassMember.mk _ _ _ _ _ (MemberVal.function _ _
      (Func.mk _ _ _ _ _ (.present (FuncBody.expr _)))))
  | some (ClassMember.mk _ _ _ _ _ (MemberVal.function _ _ (Func.mk _ _ _ _ _ .absent)))
  | some (ClassMember.mk _ _ _ _ _ (MemberVal.property _))
  | some (ClassMember.mk _ _ _ _ _ (MemberVal.index _ _ _ _)) => rfl

theorem ClassDecl.memberList_renumber (f : Nat → Nat) : (d : ClassDecl) →
    ClassDecl.memberList (d.renumber f) = (ClassDecl.memberList d).map (Tree.renumber f)
  | ClassDecl.mk _ _ _ _ _ _ _ _ members => members.toList_renumber

theorem Declarator.boundNames_renumber (f : Nat → Nat) : (d : Declarator) →
    Declarator.boundNames (d.renumber f) = Declarator.boundNames d
  | Declarator.mk _ (Binding.mk _ pat) _ _ => pat.fold_renumber fun _ _ _ _ => rfl

theorem Stmt.isRecorded_renumber (f : Nat → Nat) (s : Stmt) :
    Stmt.isRecorded (s.renumber f) = Stmt.isRecorded s := by
  match s with
  | .node (c := .stmt) form marks ts =>
    cases form with
    | classDecl | interfaceDecl | aliasDecl | varDecl =>
      match marks, ts with
      | .one _, .cons _ .nil => rfl
    | _ => rfl

theorem Tree.id_renumber {r : Renumbering} {c} (t : Tree c) :
    (t.renumber r.map).mark.id = r.map t.mark.id := by
  rw [Tree.mark_renumber r.zero]
  rfl

end Reify
