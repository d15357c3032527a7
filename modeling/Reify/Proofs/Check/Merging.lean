import Reify.Proofs.Check.Passing

/-!
# Interfaces of one name

The interfaces of one name in a statement list are gathered one by one, and the last of them gets
what all declare together (`Frame.Gathers`).  Where the list has a class of that name the interfaces
belong to it, and none of them is ever the last (`Frame.whole_of_class`).
-/

namespace Reify

open List

/-! ### Declarations -/

namespace InterfaceDecl

def name : InterfaceDecl → String
  | InterfaceDecl.mk _ form _ _ _ => form.name

def ambient : InterfaceDecl → Bool
  | InterfaceDecl.mk _ form _ _ _ => form.ambient

def exported : InterfaceDecl → Bool
  | InterfaceDecl.mk _ form _ _ _ => form.exported

/-- The type parameters, if a list of them is written, be it an empty one. -/
def typeParams? : InterfaceDecl → Option (List TypeParam)
  | InterfaceDecl.mk _ _ typeParams _ _ => typeParams.toOption.map Tree.toList

/-- What the interface extends, as a copy. -/
def bases : InterfaceDecl → List TypeExpr
  | InterfaceDecl.mk _ _ _ bases _ => bases.toList.map Tree.detach

/-- The members, as a copy. -/
def members : InterfaceDecl → List TypeMember
  | InterfaceDecl.mk _ _ _ _ members => members.toList.map Tree.detach

end InterfaceDecl

/-- The interface of a name that a statement declares.  Ambient ones do not count. -/
def Stmt.interfaceOf? (name : String) : Stmt → Option InterfaceDecl
  | Stmt.interfaceDecl _ decl =>
    if !InterfaceDecl.ambient decl && InterfaceDecl.name decl == name then some decl else none
  | _ => none

variable {d : InterfaceDecl} {m : Mark} {g : Frame} {other : String} {passed : List Stmt}

theorem Stmt.interfaceOf?_interface {name} :
    (Stmt.interfaceDecl m d).interfaceOf? name =
      if !d.ambient && d.name == name then some d else none := rfl

theorem Stmt.interfaceOf?_eq_some {name s} (h : s.interfaceOf? name = some d) :
    ∃ m, s = Stmt.interfaceDecl m d ∧ d.ambient = false ∧ d.name = name := by
  match s with
  | .node (c := .stmt) form marks ts =>
    cases form with
    | interfaceDecl =>
      match marks, ts with
      | .one m, .cons decl .nil =>
        rw [Stmt.interfaceOf?_interface] at h
        by_cases counts : (!InterfaceDecl.ambient decl && InterfaceDecl.name decl == name) = true
        · rw [if_pos counts] at h
          obtain rfl := Option.some.inj h
          rw [Bool.and_eq_true, Bool.not_eq_true', beq_iff_eq] at counts
          exact ⟨m, rfl, counts⟩
        · rw [if_neg counts] at h
          cases h
    | _ => cases h

/-- The interfaces of a name that statements declare, in order. -/
def interfacesOf (name : String) (stmts : List Stmt) : List InterfaceDecl :=
  stmts.filterMap (Stmt.interfaceOf? name)

/-- Whether a statement declares a class of a name.  Ambient ones do not count. -/
def Stmt.isClassOf (name : String) (s : Stmt) : Bool := Frame.className? s == some name

/-! ### Gathering -/

/-- What declarations of an interface come to, of `total` in all. -/
def Pending.gather (total : Nat) (decls : List InterfaceDecl) : Pending where
  remaining := total - decls.length
  exported := decls.any InterfaceDecl.exported
  typeParams := decls.findSome? InterfaceDecl.typeParams?
  bases := decls.flatMap InterfaceDecl.bases
  members := decls.flatMap InterfaceDecl.members

/-- What declarations come to with one more. -/
def Pending.add (p : Pending) (d : InterfaceDecl) : Pending where
  remaining := p.remaining - 1
  exported := p.exported || d.exported
  typeParams := p.typeParams <|> d.typeParams?
  bases := p.bases ++ d.bases
  members := p.members ++ d.members

theorem Pending.add_gather (total : Nat) (decls : List InterfaceDecl) (d : InterfaceDecl) :
    (gather total decls).add d = gather total (decls ++ [d]) := by
  have first : (decls.findSome? InterfaceDecl.typeParams? <|> d.typeParams?) =
      (decls ++ [d]).findSome? InterfaceDecl.typeParams? := by
    rw [findSome?_append, findSome?_singleton]
    cases decls.findSome? InterfaceDecl.typeParams? <;> rfl
  simp [gather, add, first, Nat.sub_sub]

namespace Frame

variable {f : Frame} {name : String} {total : Nat} {decls : List InterfaceDecl} {s : Stmt}

/-- How many interfaces of a name are expected. -/
def expected (f : Frame) (name : String) : Nat :=
  if f.hasInterface name then f.interfaceCount name else 1

theorem accumulate_eq (f : Frame) (d : InterfaceDecl) :
    f.accumulate d =
      let p := ((f.pending.lookup d.name).getD { remaining := f.expected d.name }).add d
      let others := f.pending.filter (·.1 != d.name)
      if p.remaining = 0 then ({ f with pending := others }, some p)
      else ({ f with pending := (d.name, p) :: others }, none) := by
  match d with
  | InterfaceDecl.mk _ _ _ _ _ => rfl

/-- Of the interfaces of a name, of which the list has `total`, the given ones have been passed and
the last is still to come. -/
structure Gathers (f : Frame) (name : String) (total : Nat) (decls : List InterfaceDecl) : Prop where
  apart : f.hasClass name = false
  unmerged : name ∉ f.merged
  count : f.expected name = total
  pending : (f.pending.lookup name).getD { remaining := total } = .gather total decls

/-! ### What passing a statement leaves alone -/

theorem merge_lists (f : Frame) (name : String) :
    (f.merge name).classes = f.classes ∧ (f.merge name).interfaces = f.interfaces := ⟨rfl, rfl⟩

theorem accumulate_lists (f : Frame) (d : InterfaceDecl) :
    (f.accumulate d).1.classes = f.classes ∧ (f.accumulate d).1.interfaces = f.interfaces ∧
      (f.accumulate d).1.merged = f.merged := by
  rw [accumulate_eq]
  dsimp only
  split <;> exact ⟨rfl, rfl, rfl⟩

theorem mergeClass_lists (f : Frame) (name : Option String) :
    (f.mergeClass name).classes = f.classes ∧ (f.mergeClass name).interfaces = f.interfaces := by
  cases name with
  | none => exact ⟨rfl, rfl⟩
  | some name =>
    rw [mergeClass]
    split <;> exact ⟨rfl, rfl⟩

/-- The classes and interfaces of a list stay what they are. -/
theorem passing_lists (f : Frame) (s : Stmt) :
    (f.passing s).classes = f.classes ∧ (f.passing s).interfaces = f.interfaces := by
  match s with
  | .node (c := .stmt) form marks ts =>
    cases form with
    | classDecl =>
      match marks, ts with
      | .one _, .cons (ClassDecl.mk _ form _ _ _ _ _ _ _) .nil =>
        change (if form.ambient then f else f.mergeClass _).classes = _ ∧
          (if form.ambient then f else f.mergeClass _).interfaces = _
        split
        · exact ⟨rfl, rfl⟩
        · exact f.mergeClass_lists _
    | interfaceDecl =>
      match marks, ts with
      | .one _, .cons (InterfaceDecl.mk _ form _ _ _) .nil =>
        rw [passing_interface rfl]
        split
        · exact ⟨rfl, rfl⟩
        split
        · exact f.merge_lists _
        split
        · exact ⟨rfl, rfl⟩
        · exact ⟨(f.accumulate_lists _).1, (f.accumulate_lists _).2.1⟩
    | _ => exact ⟨rfl, rfl⟩

theorem expected_congr (h : g.interfaces = f.interfaces) (name : String) :
    g.expected name = f.expected name := by
  rw [expected, expected, hasInterface, hasInterface, interfaceCount, interfaceCount, h]

/-- Nothing becomes of a name if a statement changes neither of its lists. -/
theorem Gathers.congr (h : f.Gathers name total decls) (classes : g.classes = f.classes)
    (interfaces : g.interfaces = f.interfaces) (merged : name ∈ g.merged → name ∈ f.merged)
    (pending : g.pending.lookup name = f.pending.lookup name) : g.Gathers name total decls where
  apart := by rw [hasClass, classes]; exact h.apart
  unmerged hm := h.unmerged (merged hm)
  count := (expected_congr interfaces name).trans h.count
  pending := by rw [pending, h.pending]

theorem lookup_others {name} (h : other ≠ name) (pending : List (String × Pending)) :
    (pending.filter (·.1 != other)).lookup name = pending.lookup name := by
  induction pending with
  | nil => rfl
  | cons entry pending ih =>
    obtain ⟨key, p⟩ := entry
    by_cases hk : key = other
    · subst hk
      have differs : (name == key) = false := by simpa using h.symm
      rw [filter_cons_of_neg (by simp), ih, lookup_cons, differs]
    · rw [filter_cons_of_pos (by simpa using hk), lookup_cons, lookup_cons, ih]

/-- An interface of another name changes nothing. -/
theorem lookup_accumulate (h : d.name ≠ name) :
    (f.accumulate d).1.pending.lookup name = f.pending.lookup name := by
  rw [accumulate_eq]
  dsimp only
  split
  · exact lookup_others h f.pending
  · have differs : (name == d.name) = false := by simpa using h.symm
    rw [lookup_cons, differs]
    exact lookup_others h f.pending

theorem lookup_removed (pending : List (String × Pending)) :
    (pending.filter (·.1 != name)).lookup name = none := by
  rw [lookup_eq_none_iff]
  intro entry he
  rw [bne_comm]
  exact (mem_filter.1 he).2

theorem mem_merge (h : other ≠ name) (hm : name ∈ (f.merge other).merged) : name ∈ f.merged :=
  (mem_insert_iff.1 hm).resolve_left fun same => h same.symm

/-- **Passing another statement.**  What is neither an interface nor a class of the name changes
nothing about it. -/
theorem Gathers.passing (h : f.Gathers name total decls) (interface' : s.interfaceOf? name = none)
    (class' : s.isClassOf name = false) : (f.passing s).Gathers name total decls := by
  obtain ⟨form, marks, ts⟩ := s
  cases form with
  | classDecl =>
    obtain _ | _ := marks
    obtain _ | ⟨⟨form, _ | mark, _ | ⟨decorators, _ | ⟨cname, _ | ⟨typeParams, _ | ⟨base,
      _ | ⟨args, _ | ⟨impls, _ | ⟨ms, _ | _⟩⟩⟩⟩⟩⟩⟩⟩, _ | _⟩ := ts
    let decl := ClassDecl.mk mark form decorators cname typeParams base args impls ms
    change (if form.ambient then f else f.mergeClass (ClassDecl.name? decl)).Gathers _ _ _
    change ((if form.ambient then none else ClassDecl.name? decl) == some name) = false at class'
    by_cases ambient : form.ambient = true
    · rwa [if_pos ambient]
    rw [if_neg ambient] at class' ⊢
    cases hn : ClassDecl.name? decl with
    | none => exact h
    | some other =>
      have differs : other ≠ name := by simpa [hn] using class'
      rw [mergeClass]
      split
      · exact h.congr rfl rfl (mem_merge differs) rfl
      · exact h
  | interfaceDecl =>
    obtain _ | _ := marks
    obtain _ | ⟨⟨form, _ | mark, _ | ⟨typeParams, _ | ⟨bases, _ | ⟨members, _ | _⟩⟩⟩⟩, _ | _⟩ := ts
    rw [passing_interface rfl]
    change (if !form.ambient && form.name == name then _ else none) = none at interface'
    by_cases ambient : form.ambient = true
    · rwa [if_pos ambient]
    have differs : form.name ≠ name := by
      rintro rfl
      simp [ambient] at interface'
    rw [if_neg ambient]
    split
    · exact h.congr rfl rfl (mem_merge differs) rfl
    split
    · exact h
    · obtain ⟨classes, interfaces, merged⟩ := f.accumulate_lists
        (InterfaceDecl.mk mark form typeParams bases members)
      exact h.congr classes interfaces (fun hm => merged ▸ hm) (lookup_accumulate differs)
  | _ => exact h

/-- **Passing an interface of the name.**  The last one that is expected gets what all declare
together, and gathering starts over. -/
theorem Gathers.interface (h : f.Gathers name total decls) (hs : s.interfaceOf? name = some d) :
    f.whole s = (if total ≤ decls.length + 1 then some (.gather total (decls ++ [d])) else none) ∧
      (f.passing s).Gathers name total
        (if total ≤ decls.length + 1 then [] else decls ++ [d]) := by
  obtain ⟨m, rfl, ambient, rfl⟩ := Stmt.interfaceOf?_eq_some hs
  obtain ⟨whole, passed⟩ : f.whole (Stmt.interfaceDecl m d) = (f.accumulate d).2 ∧
      f.passing (Stmt.interfaceDecl m d) = (f.accumulate d).1 := by
    match d, ambient, h with
    | InterfaceDecl.mk mark form typeParams bases members, ambient, h =>
      have ambient : form.ambient = false := ambient
      have apart : f.hasClass form.name = false := h.apart
      have unmerged : f.merged.contains form.name = false := by
        rw [← Bool.not_eq_true, contains_iff_mem]
        exact h.unmerged
      rw [whole_interface rfl, passing_interface rfl, ambient, apart, unmerged]
      exact ⟨rfl, rfl⟩
  have gathered : ((f.pending.lookup d.name).getD { remaining := f.expected d.name }).add d =
      .gather total (decls ++ [d]) := by
    rw [h.count, h.pending, Pending.add_gather]
  have left : (Pending.gather total (decls ++ [d])).remaining = 0 ↔ total ≤ decls.length + 1 := by
    simp [Pending.gather, Nat.sub_eq_zero_iff_le]
  obtain ⟨classes, interfaces, merged⟩ := f.accumulate_lists d
  rw [whole, passed]
  refine ⟨?_, ?_⟩
  · rw [accumulate_eq]
    dsimp only
    rw [gathered]
    by_cases last : total ≤ decls.length + 1
    · rw [if_pos (left.2 last), if_pos last]
    · rw [if_neg (fun hr => last (left.1 hr)), if_neg last]
  · refine ⟨?_, ?_, (expected_congr interfaces d.name).trans h.count, ?_⟩
    · rw [hasClass, classes]
      exact h.apart
    · rw [merged]
      exact h.unmerged
    · rw [accumulate_eq]
      dsimp only
      rw [gathered]
      by_cases last : total ≤ decls.length + 1
      · rw [if_pos (left.2 last), if_pos last, lookup_removed]
        simp [Pending.gather]
      · rw [if_neg (fun hr => last (left.1 hr)), if_neg last, lookup_cons_self]
        rfl

/-- As long as fewer interfaces of the name have been passed than are expected, all of them have
been gathered. -/
theorem Gathers.foldl (h : f.Gathers name total decls)
    (class' : ∀ s ∈ passed, s.isClassOf name = false)
    (few : (decls ++ interfacesOf name passed).length < total) :
    (passed.foldl Frame.passing f).Gathers name total (decls ++ interfacesOf name passed) := by
  induction passed generalizing f decls with
  | nil => simpa [interfacesOf] using h
  | cons s passed ih =>
    rw [forall_mem_cons] at class'
    cases hs : s.interfaceOf? name with
    | none =>
      have same : interfacesOf name (s :: passed) = interfacesOf name passed :=
        filterMap_cons_none hs
      rw [same] at few ⊢
      exact ih (h.passing hs class'.1) class'.2 few
    | some d =>
      have more : interfacesOf name (s :: passed) = d :: interfacesOf name passed :=
        filterMap_cons_some hs
      rw [more, append_cons] at few ⊢
      refine ih ?_ class'.2 few
      have step := (h.interface hs).2
      rwa [if_neg (by simp at few; omega)] at step

/-! ### The frame of a list -/

/-- A statement is an interface of the name exactly if it counts as one. -/
theorem interface?_filter (name : String) (s : Stmt) :
    ((interface? s).filter (·.1 == name)) =
      (s.interfaceOf? name).map fun d => (name, d.members) := by
  match s with
  | .node (c := .stmt) form marks ts =>
    cases form with
    | interfaceDecl =>
      match marks, ts with
      | .one _, .cons (InterfaceDecl.mk _ form _ _ members) .nil =>
        change Option.filter _ (if form.ambient then none else some (form.name, _)) =
          Option.map _ (if !form.ambient && form.name == name then some _ else none)
        by_cases ambient : form.ambient = true
        · simp [ambient]
        by_cases same : form.name = name
        · subst same
          simp [ambient, InterfaceDecl.members]
        · simp [ambient, same]
    | _ => rfl

theorem interfaces_ofStmts (stmts : List Stmt) (name : String) :
    (ofStmts stmts).interfaces.filter (·.1 == name) =
      (interfacesOf name stmts).map fun d => (name, d.members) := by
  rw [ofStmts, interfacesOf, filter_filterMap, map_filterMap]
  exact filterMap_congr fun s _ => interface?_filter name s

theorem interfaceCount_ofStmts (stmts : List Stmt) (name : String) :
    (ofStmts stmts).interfaceCount name = (interfacesOf name stmts).length := by
  rw [interfaceCount, interfaces_ofStmts, length_map]

/-- The members of all interfaces of a name, in order. -/
theorem interfaceMembers_ofStmts (stmts : List Stmt) (name : String) :
    (ofStmts stmts).interfaceMembers name =
      (interfacesOf name stmts).flatMap InterfaceDecl.members := by
  rw [interfaceMembers, interfaces_ofStmts, flatMap_map]

theorem hasClass_ofStmts (stmts : List Stmt) (name : String) :
    (ofStmts stmts).hasClass name = stmts.any (Stmt.isClassOf name) := by
  rw [Bool.eq_iff_iff, hasClass, contains_iff_mem, any_eq_true]
  simp [ofStmts, Stmt.isClassOf]

/-- At the start of a list without a class of the name nothing has been gathered. -/
theorem gathers_ofStmts {stmts : List Stmt} (class' : ∀ s ∈ stmts, s.isClassOf name = false)
    (some : interfacesOf name stmts ≠ []) :
    (ofStmts stmts).Gathers name (interfacesOf name stmts).length [] where
  apart := by
    rw [hasClass_ofStmts, any_eq_false]
    simpa using class'
  unmerged := not_mem_nil
  count := by
    have found : (ofStmts stmts).hasInterface name = true := by
      obtain ⟨d, hd⟩ := exists_mem_of_ne_nil _ some
      have entry : (name, d.members) ∈ (ofStmts stmts).interfaces.filter (·.1 == name) := by
        rw [interfaces_ofStmts]
        exact mem_map.2 ⟨d, hd, rfl⟩
      exact any_eq_true.2 ⟨_, mem_filter.1 entry⟩
    rw [expected, if_pos found, interfaceCount_ofStmts]
  pending := rfl

theorem interfacesOf_split (before after : List Stmt) (hd : s.interfaceOf? name = some d) :
    interfacesOf name (before ++ s :: after) =
      interfacesOf name before ++ [d] ++ interfacesOf name after := by
  rw [interfacesOf, filterMap_append, filterMap_cons_some hd, append_assoc]
  rfl

/-- **The last interface of a name** in a list without a class of that name gets what all of them
declare together, the others nothing.  What has been passed before need not be the statements of the
list alone, as long as it has no other interfaces of the name. -/
theorem whole_along {before after : List Stmt}
    (class' : ∀ t ∈ passed ++ (before ++ s :: after), t.isClassOf name = false)
    (same : interfacesOf name passed = interfacesOf name before)
    (hd : s.interfaceOf? name = some d) :
    (passed.foldl Frame.passing (ofStmts (before ++ s :: after))).whole s =
      if (interfacesOf name after).isEmpty then
        let all := interfacesOf name (before ++ s :: after)
        some (.gather all.length all)
      else none := by
  rw [forall_mem_append] at class'
  have split := interfacesOf_split before after hd
  have start := gathers_ofStmts class'.2 (by simp [split])
  have along := start.foldl class'.1 (by simp [same, split])
  rw [nil_append, same] at along
  rw [(along.interface hd).1]
  dsimp only
  rw [split]
  cases rest : interfacesOf name after with
  | nil => simp
  | cons d' rest => simp

theorem whole_of_ambient (h : d.ambient = true) : f.whole (Stmt.interfaceDecl m d) = none := by
  match d, h with
  | InterfaceDecl.mk _ form _ _ _, h =>
    rw [whole_interface rfl, show form.ambient = true from h]
    rfl

/-- Interfaces that belong to a class are never reflected on their own. -/
theorem whole_of_class (class' : f.hasClass name = true) (hd : s.interfaceOf? name = some d) :
    f.whole s = none := by
  obtain ⟨m, rfl, -, rfl⟩ := Stmt.interfaceOf?_eq_some hd
  match d, class' with
  | InterfaceDecl.mk mark form typeParams bases members, class' =>
    rw [whole_interface rfl, show f.hasClass form.name = true from class']
    simp

theorem foldl_lists (f : Frame) (passed : List Stmt) :
    (passed.foldl Frame.passing f).classes = f.classes ∧
      (passed.foldl Frame.passing f).interfaces = f.interfaces := by
  induction passed generalizing f with
  | nil => exact ⟨rfl, rfl⟩
  | cons s passed ih =>
    rw [foldl_cons, (ih _).1, (ih _).2]
    exact f.passing_lists s

theorem hasClass_foldl (f : Frame) (passed : List Stmt) (name : String) :
    (passed.foldl Frame.passing f).hasClass name = f.hasClass name := by
  rw [hasClass, (f.foldl_lists passed).1, hasClass]

theorem interfaceMembers_foldl (f : Frame) (passed : List Stmt) (name : String) :
    (passed.foldl Frame.passing f).interfaceMembers name = f.interfaceMembers name := by
  rw [interfaceMembers, (f.foldl_lists passed).2, interfaceMembers]

end Frame

end Reify
