import Reify.Proofs.Check.Constructor
import Reify.Proofs.Syntax.Paths

/-!
# `this` in the constructor of a derived class

In the constructor of a derived class there is no `this` before a call of `super` has returned.
What is put into a constructor reads `this` here and there.  Which of it may be reached too early is
stated in `ClassDecl.Early`: the constant that holds the type parameters always comes first, and all
that is put behind the call of `super` comes first where no statement of the body is such a call.
Nothing else does (`this_follows_super`).
-/

namespace Reify

open List Synthetic

/-! ### The constructor that comes out -/

theorem ConstructorPlan.isTarget_mapBlock (g : List Stmt → List Stmt) : (m : ClassMember) →
    isTarget (m.mapBlock g) = isTarget m
  | ClassMember.mk _ _ _ _ _ (MemberVal.function _ kind
      (Func.mk _ _ _ _ _ (.present (FuncBody.block _))))
  | ClassMember.mk _ _ _ _ _ (MemberVal.function _ kind
      (Func.mk _ _ _ _ _ (.present (FuncBody.expr _))))
  | ClassMember.mk _ _ _ _ _ (MemberVal.function _ kind (Func.mk _ _ _ _ _ .absent)) => by
    cases kind <;> rfl
  | ClassMember.mk _ _ _ _ _ (MemberVal.property _)
  | ClassMember.mk _ _ _ _ _ (MemberVal.index _ _ _ _) => rfl

theorem ClassMember.stmts_mapBlock {m : ClassMember} (block : m.hasBlock = true)
    (g : List Stmt → List Stmt) : (m.mapBlock g).stmts = g m.stmts := by
  match m, block with
  | ClassMember.mk _ _ _ _ _ (MemberVal.function _ _
      (Func.mk _ _ _ _ _ (.present (FuncBody.block ss)))), _ =>
    change (Tree.ofList (g ss.toList)).toList = g ss.toList
    exact Tree.toList_ofList _

/-- The statements of a constructor that was there before. -/
theorem ClassDecl.LaidOut.constructor {s} {decl decl' : ClassDecl} {m m'} (h : decl.LaidOut s decl')
    (found : decl.memberList.find? ConstructorPlan.isTarget = some m) (block : m.hasBlock = true)
    (found' : decl'.memberList.find? ConstructorPlan.isTarget = some m') :
    ∃ before after checks f consts asserts front call rest,
      decl.KeepsParams s before after ∧ m.func? = some f ∧
      f.Opening ((s.withGenerics decl.typeParamNames
        (memberAccess decl.name? false true)).withGenerics (Func.typeParamNames f) .constant)
        .constructor consts none asserts ∧
      AroundSuper m.stmts front call rest ∧
      m'.stmts = front ++ before ++ call ++ after ++ (consts ++ asserts) ++ rest ++ checks := by
  obtain ⟨before, after, checks, opening, ms, m₁, ms', front, call, rest, early, late, keeps, -,
    constructor, split, checked, -, members⟩ := h
  cases constructor with
  | forwarding missing | empty missing =>
    have target := missing m (mem_of_find?_eq_some found)
    rw [find?_some found] at target
    cases target
  | @own _ _ _ f consts asserts inside first target func opening =>
    have same : decl.memberList.find? ConstructorPlan.isTarget = some m₁ :=
      find?_eq_some_iff_append.2 ⟨target, ms, ms', inside, by simpa using first⟩
    obtain rfl : m₁ = m := Option.some.inj (same.symm.trans found)
    refine ⟨before, after, checks, f, consts, asserts, front, call, rest, keeps, func, opening,
      split, ?_⟩
    have plain : ∀ n ∈ (decl.generic?.map (symbolMember s decl.mark.loc)).toList ++ early,
        ConstructorPlan.isTarget n = false := by
      refine forall_mem_append.2 ⟨fun n hn => ?_, ClassMember.isTarget_of_areChecked checked first⟩
      obtain ⟨name, -, rfl⟩ := Option.map_eq_some_iff.1 (Option.mem_toList.1 hn)
      rfl
    have last := find?_eq_some_iff_append.2
      ⟨(ConstructorPlan.isTarget_mapBlock _ m₁).trans target, _, late, members, by simpa using plain⟩
    rw [Option.some.inj (found'.symm.trans last), ClassMember.stmts_mapBlock block]

/-! ### Statements that read `this` -/

section

variable {c : Category}

theorem Children.mentionsThis_ofList (ts : List (Tree c)) :
    (Children.ofList ts).mentionsThis = ts.any Tree.mentionsThis := by
  induction ts with
  | nil => rfl
  | cons t ts ih =>
    change (t.mentionsThis || (Children.ofList ts).mentionsThis) = _
    rw [ih, any_cons]

theorem Tree.mentionsThis_ofList (ts : List (Tree c)) :
    (Tree.ofList ts).mentionsThis = ts.any Tree.mentionsThis :=
  (Bool.false_or _).trans (Children.mentionsThis_ofList ts)

end

section

variable (loc : Loc)

theorem mentionsThis_call (callee : Expr) (args : List Expr) :
    (call loc callee args).mentionsThis =
      (callee.mentionsThis || args.any Tree.mentionsThis) := by
  have each : Tree.mentionsThis ∘ arg = Tree.mentionsThis := by
    funext e
    change (false || (e.mentionsThis || false)) = e.mentionsThis
    simp
  change (false || (callee.mentionsThis ||
    ((Tree.ofList (args.map arg)).mentionsThis || false))) = _
  rw [Tree.mentionsThis_ofList, any_map, each]
  simp

theorem mentionsThis_libraryCall (s : Scope) (name : String) (args : List Expr) :
    (s.libraryCall loc name args).mentionsThis = args.any Tree.mentionsThis :=
  (mentionsThis_call loc _ args).trans (Bool.false_or _)

theorem mentionsThis_object (entries : List (String × Expr)) :
    (object loc entries).mentionsThis = entries.any (·.2.mentionsThis) := by
  have each (entry : String × Expr) : (ObjMember.valued (.synthetic loc)
      (directKey loc entry.1) (.property (.present entry.2))).mentionsThis =
        entry.2.mentionsThis := by
    change (false || (false || ((false || ((false || (entry.2.mentionsThis || false)) || false)) ||
      false))) = _
    simp
  change (false || ((Tree.ofList (entries.map _)).mentionsThis || false)) = _
  rw [Tree.mentionsThis_ofList, any_map, Bool.false_or, Bool.or_false]
  exact congrArg (entries.any ·) (funext each)

theorem mentionsThis_constStmt (name : String) (e : Expr) :
    (constStmt loc name e).mentionsThis = e.mentionsThis := by
  change (false || ((false || ((false || ((false || (false || (false || ((false ||
    (e.mentionsThis || false)) || false)))) || false)) || false)) || false)) = _
  simp

theorem mentionsThis_check (s : Scope) (name : String) (e : Expr) (p : Param) :
    (p.check s name e).mentionsThis = e.mentionsThis := by
  match p with
  | Param.mk mark form _ _ _ _ =>
    have parameter : (Reflection.parameter s mark.loc name e form.rest form.optional).mentionsThis =
        e.mentionsThis := by
      have str : (str mark.loc name).mentionsThis = false := rfl
      have true' : (bool mark.loc true).mentionsThis = false := rfl
      rw [Reflection.parameter]
      split
      · simp [mentionsThis_libraryCall, str]
      · split <;> simp [mentionsThis_libraryCall, str, true']
    change (false || ((assertion mark.loc _ [ident mark.loc name]).mentionsThis ||
      false)) = _
    rw [assertion, methodCall, mentionsThis_call]
    change (false || (((false || (Tree.mentionsThis _ || false)) || (false || false)) || false)) = _
    rw [parameter]
    simp

end

/-! ### What comes too early -/

/-- A type whose reflection reads `this`. -/
def TypeExpr.ReadsThis (s : Scope) (t : TypeExpr) : Prop :=
  ∃ e, s.reflect t = .ok e ∧ e.mentionsThis = true

/-- **Statements that may be reached before `super` is called**: the constant that holds the type
parameters of the class, if a bound reads `this`, and, if no statement in the body of the constructor
`m` is a call of `super`, what stores the type parameters and what the parameters of the constructor
need. -/
inductive ClassDecl.Early (s : Scope) (decl : ClassDecl) (m : ClassMember) (stmt : Stmt) : Prop where
  | holder {before after p t} (keeps : decl.KeepsParams s before after) (mem : stmt ∈ before)
      (param : p ∈ decl.typeParams) (bound : t ∈ p.bound?)
      (reads : t.ReadsThis (s.withGenerics decl.typeParamNames .erased))
  | store {before after} (nested : ∀ t ∈ m.stmts, Stmt.isSuperCall t = false)
      (keeps : decl.KeepsParams s before after) (mem : stmt ∈ after)
  | opening {f consts asserts t} (nested : ∀ t ∈ m.stmts, Stmt.isSuperCall t = false)
      (func : m.func? = some f)
      (opening : f.Opening ((s.withGenerics decl.typeParamNames
        (memberAccess decl.name? false true)).withGenerics (Func.typeParamNames f) .constant)
        .constructor consts none asserts) (mem : stmt ∈ consts ++ asserts)
      (checked : t ∈ f.checkedTypes .constructor)
      (reads : t.ReadsThis ((s.withGenerics decl.typeParamNames
        (memberAccess decl.name? false true)).withGenerics (Func.typeParamNames f) .constant))

section

variable {s : Scope}

theorem TypeParam.IsReflection.readsThis {loc} {p : TypeParam} {e} (h : p.IsReflection s loc e)
    (this' : e.mentionsThis = true) : ∃ t ∈ p.bound?, t.ReadsThis s := by
  obtain ⟨bounds, reflected, rfl⟩ := h
  rw [mentionsThis_libraryCall, any_cons, Bool.or_eq_true, any_eq_true] at this'
  rcases this' with str | ⟨b, hb, reads⟩
  · cases str
  · obtain ⟨t, ht, hb⟩ := exists_of_forall₂ reflected hb
    exact ⟨t, Option.mem_toList.1 ht, b, hb, reads⟩

theorem ClassDecl.KeepsParams.readsThis {decl : ClassDecl} {before after}
    (h : decl.KeepsParams s before after) {stmt} (mem : stmt ∈ before)
    (this' : stmt.mentionsThis = true) :
    ∃ p ∈ decl.typeParams, ∃ t ∈ p.bound?,
      t.ReadsThis (s.withGenerics decl.typeParamNames .erased) := by
  cases h with
  | plain => cases mem
  | generic _ params =>
    obtain rfl := mem_singleton.1 mem
    rw [mentionsThis_constStmt, mentionsThis_object, any_eq_true] at this'
    obtain ⟨entry, he, this'⟩ := this'
    obtain ⟨p, hp, -, reflection⟩ := exists_of_forall₂ params he
    exact ⟨p, hp, reflection.readsThis this'⟩

theorem Param.checkedType?_of_checked? {p : Param} {name t} (h : p.checked? = some (name, t)) :
    p.checkedType? = some t := by
  match p with
  | Param.mk mark form decorators binding type default =>
    rw [Param.checked?] at h
    rw [Param.checkedType?]
    generalize Param.isReceiver _ = receiver, Reify.checked? type = type', Param.name? _ = name'
      at h ⊢
    rcases receiver, type', name' with ⟨_ | _, _ | t', _ | name'⟩ <;> cases h
    rfl

theorem Func.Opening.readsThis {role} {f : Func} {consts asserts result}
    (h : f.Opening s role consts result asserts) {stmt} (mem : stmt ∈ consts ++ asserts)
    (this' : stmt.mentionsThis = true) : ∃ t ∈ f.checkedTypes role, t.ReadsThis s := by
  match f, h with
  | Func.mk mark form typeParams params result body, h =>
    rcases mem_append.1 mem with mem | mem
    · obtain ⟨p, hp, e, reflection, rfl⟩ := exists_of_forall₂ h.consts mem
      rw [mentionsThis_constStmt] at this'
      obtain ⟨t, bound, reads⟩ := reflection.readsThis this'
      have mem := mem_filterMap.2 ⟨p, hp, bound⟩
      exact ⟨t, mem_append_left _ (mem_append_left _ mem), reads⟩
    · obtain ⟨p, hp, name, t, e, typed, reflected, rfl⟩ := exists_of_forall₂ h.asserts mem
      rw [mentionsThis_check] at this'
      have mem := mem_filterMap.2 ⟨p, (mem_filter.1 hp).1, p.checkedType?_of_checked? typed⟩
      exact ⟨t, mem_append_right _ mem, e, reflected, this'⟩

end

/-- Either the call of `super` is among the statements, or no statement of the body is one. -/
theorem AroundSuper.called_or_nested {ss before call after} (h : AroundSuper ss before call after) :
    (∃ s ∈ call, Stmt.isSuperCall s = true) ∨
      call = [] ∧ after = ss ∧ ∀ s ∈ ss, Stmt.isSuperCall s = false := by
  cases h with
  | call _ super' => exact .inl ⟨_, mem_singleton_self _, super'⟩
  | plain none => exact .inr ⟨rfl, rfl, none⟩

section

variable {w w' : Walker} {decl : ClassDecl} {plan : ClassPlan} {m m' : ClassMember}

/-- **`this` follows `super`.**  If every path through the constructor of a class that completes has
one call of `super`, then no statement that is put in and reads `this` is reached before such a
call, except for those that may come too early. -/
theorem this_follows_super (run : (planClass decl).run w = ((plan, .ok ()), w'))
    (ambient : decl.isAmbient = false) (fresh : decl.FreshConstructor w)
    (found : decl.memberList.find? ConstructorPlan.isTarget = some m)
    (written : ∀ s ∈ m.stmts, s.mark.id ≠ 0)
    (once : ∀ n o, Runs (stmtPhrases m.stmts) n o → o.completes = true → n = 1)
    (found' : (plan.apply decl).memberList.find? ConstructorPlan.isTarget = some m') {n : Nat}
    {stmt : Stmt} (comes : Comes m'.stmts n stmt) (made : stmt.mark.id = 0)
    (this' : stmt.mentionsThis = true) :
    0 < n ∨ decl.Early w.context.scope m stmt := by
  have block : m.hasBlock = true := by
    obtain ⟨target, ms, ms', members, first⟩ := List.find?_eq_some_iff_append.1 found
    exact (fresh ms m ms' members (by simpa using first) target).1
  obtain ⟨before, after, checks, f, consts, asserts, front, call, rest, keeps, func, opening, split,
    body⟩ := (decl.laidOut_own run ambient fresh found).constructor found block found'
  have old {ss : List Stmt} {k : Nat} (sub : ss ⊆ m.stmts) (h : Comes ss k stmt) : False :=
    written stmt (sub h.mem) made
  rw [body] at comes
  rw [split.eq] at old
  -- From the end to the start of the body, always what precedes is through.
  rcases comes.append_cases with comes | ⟨k, j, rfl, through, -⟩
  · rcases comes.append_cases with comes | ⟨_, _, rfl, -, comes⟩
    · rcases comes.append_cases with comes | ⟨k, j, rfl, through, comes⟩
      · rcases comes.append_cases with comes | ⟨k, j, rfl, through, comes⟩
        · rcases comes.append_cases with comes | ⟨_, _, rfl, -, comes⟩
          · rcases comes.append_cases with comes | ⟨_, _, rfl, -, comes⟩
            · exact (old (by simp) comes).elim
            · obtain ⟨p, hp, t, bound, reads⟩ := keeps.readsThis comes.mem this'
              exact .inr (.holder keeps comes.mem hp bound reads)
          · exact (old (by simp) comes).elim
        · rcases split.called_or_nested with ⟨s, hs, super'⟩ | ⟨-, -, nested⟩
          · have := through.superCall_pos (by simp [hs]) super'
            exact .inl (by omega)
          · exact .inr (.store nested keeps comes.mem)
      · rcases split.called_or_nested with ⟨s, hs, super'⟩ | ⟨-, -, nested⟩
        · have := through.superCall_pos (by simp [hs]) super'
          exact .inl (by omega)
        · obtain ⟨t, checked, reads⟩ := opening.readsThis comes.mem this'
          exact .inr (.opening nested func opening comes.mem checked reads)
    · exact (old (by simp) comes).elim
  · rcases split.called_or_nested with ⟨s, hs, super'⟩ | ⟨-, all, -⟩
    · have := through.superCall_pos (by simp [hs]) super'
      exact .inl (by omega)
    · obtain ⟨_, i, rfl, -, through⟩ := through.append_cases
      rw [all] at through
      have := once i _ through rfl
      exact .inl (by omega)

end

/-! ### A call of `super` in each branch -/

/-- `super();` -/
def superStmt (id : Nat) : Stmt :=
  Stmt.expr ⟨{ id := id }, { id := id + 1 }⟩ (Expr.call ⟨{ id := id + 2 }, { id := id + 3 }⟩ false
    (Expr.super ⟨{ id := id + 4 }, { id := id + 5 }⟩) (.ofList []))

/-- `{ super(); }` -/
def superBlock (id : Nat) : Stmt :=
  Stmt.block { id := id } (Block.mk { id := id + 1 } (.ofList [superStmt (id + 2)]))

/-- `if (c) { super(); } else { super(); }` -/
def branchedSuper : Stmt :=
  Stmt.ifElse ⟨{ id := 20 }, { id := 21 }⟩ (Expr.ident ⟨{ id := 22 }, { id := 23 }⟩ "c")
    (superBlock 30) (.present (superBlock 40))

theorem calls_superBlock (id : Nat) : (superBlock id).Calls 1 := by
  have args : (Tree.ofList ([] : List Arg)).Calls 0 := .of_plain rfl [] rfl .nil
  have stmt : (superStmt (id + 2)).Calls 1 := .of_plain rfl [1] rfl (.cons args.superCall .nil)
  have list : (Tree.ofList [superStmt (id + 2)]).Calls 1 := .of_plain rfl [1] rfl (.cons stmt .nil)
  have braces : (Block.mk { id := id + 1 } (.ofList [superStmt (id + 2)])).Calls 1 :=
    .of_plain rfl [1] rfl (.cons list .nil)
  exact .of_plain rfl [1] rfl (.cons braces .nil)

theorem calls_branchedSuper : branchedSuper.Calls 1 := by
  have test : (Expr.ident ⟨{ id := 22 }, { id := 23 }⟩ "c").Calls 0 := .of_plain rfl [] rfl .nil
  have other : (Tree.present (superBlock 40)).Calls 1 :=
    .of_plain rfl [1] rfl (.cons (calls_superBlock 40) .nil)
  exact test.ifElse (calls_superBlock 30) other

theorem branchedSuper_once (n : Nat) (o : Completion) (run : Runs (stmtPhrases [branchedSuper]) n o)
    (completes : o.completes = true) : n = 1 := by
  rcases run.calls (.cons calls_branchedSuper .nil) with rfl | ⟨rfl, -⟩
  · cases completes
  · rfl

/-- `constructor(c) { if (c) { super(); } else { super(); } }` -/
def branchedConstructor : ClassMember :=
  .mk { id := 3 } ⟨false, false, false, none⟩ (.ofList [])
    (MemberKey.direct { id := 4 } "constructor") .absent
    (MemberVal.function { id := 5 } .method (Func.mk { id := 6 } ⟨false, false, false⟩ .absent
      (.ofList [Param.mk { id := 7 } ⟨false, false, none, false⟩ (.ofList [])
        (Binding.mk { id := 8 } (Pat.ident ⟨{ id := 9 }, { id := 10 }⟩ "c")) .absent .absent])
      .absent (.present (FuncBody.block (.ofList [branchedSuper])))))

/-- A class `C` that extends `B` and has this constructor. -/
def branchedClass (typeParams : Maybe (.many .typeParam)) (implemented : List TypeExpr) : ClassDecl :=
  .mk { id := 1 } ⟨false, false, false, false⟩ (.ofList []) (.present (Name.mk { id := 2 } "C"))
    typeParams (.present (Expr.ident ⟨{ id := 11 }, { id := 12 }⟩ "B")) .absent implemented
    (.ofList [branchedConstructor])

/-- The state at the start of a unit with the class. -/
def startOf (decl : ClassDecl) : Walker :=
  { context := .start {} (SourceUnit.mk { id := 50 } (.ofList [Stmt.classDecl { id := 51 } decl])) }

theorem fresh_branchedClass (typeParams : Maybe (.many .typeParam)) (implemented : List TypeExpr) :
    (branchedClass typeParams implemented).FreshConstructor
      (startOf (branchedClass typeParams implemented)) := by
  intro ms m ms' members _ _
  have single : [branchedConstructor] = ms ++ m :: ms' := members
  rcases ms with _ | ⟨n, ms⟩
  · obtain ⟨rfl, -⟩ := List.cons.inj single
    refine ⟨rfl, fun f hf => ?_⟩
    obtain rfl := Option.some.inj hf
    exact ⟨rfl, nofun⟩
  · simp at single

/-- The constructor of the class that comes out. -/
def outOf (decl : ClassDecl) : Option ClassMember :=
  (((planClass decl).run (startOf decl)).1.1.apply decl).memberList.find? ConstructorPlan.isTarget

/-- Whether the second statement of the constructor is made and reads `this`, given the calls of
`super` on the way to it. -/
def readsThisAfter (n : Nat) (m : ClassMember) : Bool :=
  match m.stmts with
  | first :: second :: _ =>
    first.firstPath? = some n && second.mark.id == 0 && second.mentionsThis
  | _ => false

theorem comes_of_readsThisAfter {n m} (h : readsThisAfter n m = true) :
    ∃ stmt, Comes m.stmts n stmt ∧ stmt.mark.id = 0 ∧ stmt.mentionsThis = true := by
  rw [readsThisAfter] at h
  split at h
  case h_1 first second _ stmts =>
    simp only [Bool.and_eq_true, decide_eq_true_eq, beq_iff_eq] at h
    obtain ⟨⟨path, made⟩, this'⟩ := h
    rw [stmts]
    exact ⟨second, .later (first.path_of_firstPath? n path) .here, made, this'⟩
  case h_2 => cases h

theorem branchedConstructor_written : ∀ s ∈ branchedConstructor.stmts, s.mark.id ≠ 0 := by
  intro s hs
  obtain rfl := mem_singleton.1 hs
  decide

/-- `class C extends B implements I { constructor(c) { if (c) { super(); } else { super(); } } }` -/
def implementingClass : ClassDecl :=
  branchedClass .absent [TypeExpr.reference ⟨{ id := 13 }, { id := 14 }⟩ (.ident "I") .absent]

/-- The check of what this class implements comes once `super` was called. -/
theorem this_follows_super_branches :
    ∃ plan w' m' stmt, (planClass implementingClass).run (startOf implementingClass) =
        ((plan, .ok ()), w') ∧
      implementingClass.isAmbient = false ∧
      implementingClass.FreshConstructor (startOf implementingClass) ∧
      implementingClass.memberList.find? ConstructorPlan.isTarget = some branchedConstructor ∧
      (∀ s ∈ branchedConstructor.stmts, s.mark.id ≠ 0) ∧
      (∀ n o, Runs (stmtPhrases branchedConstructor.stmts) n o → o.completes = true → n = 1) ∧
      (plan.apply implementingClass).memberList.find? ConstructorPlan.isTarget = some m' ∧
      Comes m'.stmts 1 stmt ∧ stmt.mark.id = 0 ∧ stmt.mentionsThis = true ∧
      (0 < 1 ∨ implementingClass.Early (startOf implementingClass).context.scope branchedConstructor
        stmt) := by
  have succeeds : ((planClass implementingClass).run (startOf implementingClass)).1.2.isOk = true :=
    by decide +kernel
  have checks : (outOf implementingClass).map (readsThisAfter 1) = some true := by decide +kernel
  rw [outOf] at checks
  rcases run : (planClass implementingClass).run (startOf implementingClass) with ⟨⟨plan, r⟩, w'⟩
  rw [run] at succeeds checks
  obtain ⟨m', found, checks⟩ := Option.map_eq_some_iff.1 checks
  obtain ⟨stmt, comes, made, this'⟩ := comes_of_readsThisAfter checks
  cases r with
  | error u => cases succeeds
  | ok _ =>
    have fresh := fresh_branchedClass .absent
      [TypeExpr.reference ⟨{ id := 13 }, { id := 14 }⟩ (.ident "I") .absent]
    exact ⟨plan, w', m', stmt, rfl, rfl, fresh, rfl, branchedConstructor_written, branchedSuper_once,
      found, comes, made, this', this_follows_super run rfl fresh rfl branchedConstructor_written
        branchedSuper_once found comes made this'⟩

/-- `class C<T> extends B { constructor(c) { if (c) { super(); } else { super(); } } }` -/
def storingClass : ClassDecl :=
  branchedClass (.present (.ofList [TypeParam.mk { id := 13 } "T" .absent .absent])) []

/-- Every path through this constructor has one call of `super`, but the type parameters are stored
in `this` before any of them. -/
theorem this_precedes_branched_super :
    ∃ plan w' m' stmt, (planClass storingClass).run (startOf storingClass) = ((plan, .ok ()), w') ∧
      storingClass.isAmbient = false ∧ storingClass.isDerived = true ∧
      storingClass.FreshConstructor (startOf storingClass) ∧
      storingClass.memberList.find? ConstructorPlan.isTarget = some branchedConstructor ∧
      (∀ s ∈ branchedConstructor.stmts, s.mark.id ≠ 0) ∧
      (∀ n o, Runs (stmtPhrases branchedConstructor.stmts) n o → o.completes = true → n = 1) ∧
      (plan.apply storingClass).memberList.find? ConstructorPlan.isTarget = some m' ∧
      Comes m'.stmts 0 stmt ∧ stmt.mark.id = 0 ∧ stmt.mentionsThis = true := by
  have succeeds : ((planClass storingClass).run (startOf storingClass)).1.2.isOk = true := by
    decide +kernel
  have stores : (outOf storingClass).map (readsThisAfter 0) = some true := by decide +kernel
  rw [outOf] at stores
  rcases run : (planClass storingClass).run (startOf storingClass) with ⟨⟨plan, r⟩, w'⟩
  rw [run] at succeeds stores
  obtain ⟨m', found, stores⟩ := Option.map_eq_some_iff.1 stores
  obtain ⟨stmt, comes, made, this'⟩ := comes_of_readsThisAfter stores
  cases r with
  | error u => cases succeeds
  | ok _ =>
    exact ⟨plan, w', m', stmt, rfl, rfl, rfl, fresh_branchedClass _ _, rfl,
      branchedConstructor_written, branchedSuper_once, found, comes, made, this'⟩

end Reify
