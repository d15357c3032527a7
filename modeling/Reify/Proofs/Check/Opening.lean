import Reify.Proofs.Check.Growth

/-!
# Checks at the start of a body

The plan of a function puts the checks of its parameters at the start of the body, in a constructor
right behind the call of `super`.  Later plans put statements of their own in front of the checks or
between them, and check what the function returns.  A check that stands at the start stays there
(`Reworked.opened`).
-/

namespace Reify

open List Tree

/-! ### The start of a statement list -/

/-- The check stands at the start of the statements: in front of it are only statements that the
program has made, or what leads up to a call of `super` and then such statements. -/
def Opened (check : Stmt) (ss : List Stmt) : Prop :=
  ∃ before added after, ss = before ++ (added ++ check :: after) ∧
    (∀ s ∈ before.getLast?, Stmt.isSuperCall s = true) ∧ ∀ s ∈ added, s.mark.id = 0

namespace Opened

variable {check : Stmt}

theorem of_mem {before added after} (h : check ∈ added)
    (super' : ∀ s ∈ before.getLast?, Stmt.isSuperCall s = true)
    (made : ∀ s ∈ added, s.mark.id = 0) : Opened check (before ++ added ++ after) := by
  obtain ⟨early, late, rfl⟩ := append_of_mem h
  exact ⟨before, early, late ++ after, by simp, super', (forall_mem_append.1 made).1⟩

variable {ss : List Stmt}

theorem mapReturns (firm : Stmt.Firm check) (f : Loc → Expr → Expr) (h : Opened check ss) :
    Opened check (ss.map (Stmt.mapReturns f)) := by
  obtain ⟨before, added, after, rfl, super', made⟩ := h
  refine ⟨before.map (Stmt.mapReturns f), added.map (Stmt.mapReturns f),
    after.map (Stmt.mapReturns f), by simp [firm.fixed], ?_, ?_⟩
  · intro s hs
    rw [getLast?_map] at hs
    obtain ⟨t, ht, rfl⟩ := Option.map_eq_some_iff.1 hs
    rw [Stmt.isSuperCall_mapReturns]
    exact super' t ht
  · intro s hs
    obtain ⟨t, ht, rfl⟩ := mem_map.1 hs
    rw [Stmt.mark_mapReturns]
    exact made t ht

/-- Statements that the program makes may be put anywhere. -/
theorem insert {ts zs} (h : Opened check (ss ++ ts)) (made' : ∀ z ∈ zs, z.mark.id = 0) :
    Opened check (ss ++ zs ++ ts) := by
  obtain ⟨before, added, after, split, super', made⟩ := h
  rcases append_eq_append_iff.1 split with ⟨rest, rfl, rfl⟩ | ⟨early, rfl, rest⟩
  · -- The place is before the call of `super`, or right behind it.
    cases rest with
    | nil =>
      rw [append_nil] at super'
      refine ⟨ss, zs ++ added, after, by simp, super', ?_⟩
      exact forall_mem_append.2 ⟨made', made⟩
    | cons s rest =>
      refine ⟨ss ++ zs ++ s :: rest, added, after, by simp, ?_, made⟩
      rw [getLast?_append_of_ne_nil _ (cons_ne_nil _ _)] at super' ⊢
      exact super'
  rcases append_eq_append_iff.1 rest.symm with ⟨late, rfl, rfl⟩ | ⟨late, rfl, last⟩
  · rw [forall_mem_append] at made
    refine ⟨before, early ++ zs ++ late, after, by simp, super', ?_⟩
    simp only [forall_mem_append]
    exact ⟨⟨made.1, made'⟩, made.2⟩
  · cases late with
    | nil =>
      obtain rfl : check :: after = ts := last
      refine ⟨before, added ++ zs, after, by simp, super', ?_⟩
      exact forall_mem_append.2 ⟨made, made'⟩
    | cons s late =>
      obtain ⟨rfl, rfl⟩ := List.cons.inj last
      exact ⟨before, added, late ++ zs ++ ts, by simp, super', made⟩

end Opened

/-! ### Bodies -/

/-- The statements of a body, unless it is an expression. -/
def FuncBody.stmts? : FuncBody → Option (List Stmt)
  | FuncBody.block stmts => some stmts.toList
  | FuncBody.expr _ => none

/-- The statements in the body of a function, if it has a body and that is not an expression. -/
def Func.stmts? : Func → Option (List Stmt)
  | Func.mk _ _ _ _ _ body => body.toOption.bind FuncBody.stmts?

/-- Categories of functions and of their bodies. -/
def Category.isBody : Category → Bool
  | .func | .funcBody | .maybe .funcBody => true
  | _ => false

/-- The statement list that is the tree, or the body of the function that is the tree. -/
def Tree.bodies : {c : Category} → Tree c → List (List Stmt)
  | .many .stmt, t => [t.toList]
  | .funcBody, b => (FuncBody.stmts? b).toList
  | .maybe .funcBody, b => (b.toOption.bind FuncBody.stmts?).toList
  | .func, f => (Func.stmts? f).toList
  | _, _ => []

/-- The bodies among some trees. -/
def Children.bodies : {cs : List Category} → Children cs → List (List Stmt)
  | _, .nil => []
  | _, .cons t ts => t.bodies ++ ts.bodies

variable {c : Category} {around : List Around} {A : Addition}

theorem Tree.bodies_node (hc : c.isMany = false) (form : Form c) (marks : Marks form.width)
    (ts : Children form.arity) :
    (Tree.node form marks ts).bodies = if c.isBody then ts.bodies else [] := by
  cases c with
  | many c => cases hc
  | func =>
    match marks, ts with
    | .one _, .cons _ (.cons _ (.cons _ (.cons body .nil))) => exact (append_nil _).symm
  | funcBody =>
    match form, marks, ts with
    | .block, .none, .cons _ .nil => rfl
    | .expr, .none, .cons _ .nil => rfl
  | maybe c =>
    cases c with
    | funcBody =>
      match form, marks, ts with
      | false, .none, .nil => rfl
      | true, .none, .cons b .nil => exact (append_nil _).symm
    | _ => rfl
  | _ => rfl

/-- The bodies in a thing of a shape. -/
def Shape.bodies : (k : Shape) → k.Of → List (List Stmt)
  | .tree _, t => t.bodies
  | .parts _, ts => ts.bodies
  | .list _, _ => []

theorem Tree.bodies_many (hc : c ≠ .stmt) (t : Many c) : t.bodies = [] := by
  cases c with
  | stmt => exact (hc rfl).elim
  | _ => rfl

/-- **A check stays at the start of its body.** -/
theorem Reworked.opened {A} (made : ∀ around s, A around .stmt s → s.mark.id = 0) {check}
    (firm : Stmt.Firm check) {around k x x'} (h : Reworked A around k x x')
    (opened : ∃ ss ∈ k.bodies x, Opened check ss) : ∃ ss ∈ k.bodies x', Opened check ss := by
  induction h with
  | refl => exact opened
  | trans _ _ ih ih' => exact ih' (ih opened)
  | @node _ c form marks ts ts' hc _ _ ih =>
    change ∃ ss ∈ Tree.bodies _, _ at opened
    change ∃ ss ∈ Tree.bodies _, _
    rw [bodies_node (Category.isMany_of_assembled hc)] at opened ⊢
    by_cases body : c.isBody = true
    · rw [if_pos body] at opened ⊢
      exact ih opened
    · rw [if_neg body] at opened
      simp at opened
  | many hc =>
    change ∃ ss ∈ Tree.bodies _, _ at opened
    rw [bodies_many hc] at opened
    simp at opened
  | front hc =>
    change ∃ ss ∈ Tree.bodies _, _ at opened
    rw [bodies_many (by rintro rfl; cases hc)] at opened
    simp at opened
  | @returns _ name ss =>
    obtain ⟨_, mem, opened⟩ := opened
    rw [mem_singleton.1 mem, toList_ofList] at opened
    refine ⟨_, mem_singleton.2 rfl, ?_⟩
    rw [toList_ofList]
    exact opened.mapReturns firm _
  | @inserted around ss ts zs _ added =>
    obtain ⟨_, mem, opened⟩ := opened
    rw [mem_singleton.1 mem, toList_ofList] at opened
    refine ⟨_, mem_singleton.2 rfl, ?_⟩
    rw [toList_ofList]
    exact opened.insert fun z hz => made _ z (added z hz)
  | checked | returned | listCons =>
    obtain ⟨_, mem, -⟩ := opened
    cases mem
  | partsCons _ _ ihHead ihTail =>
    obtain ⟨ss, mem, opened⟩ := opened
    rcases mem_append.1 mem with mem | mem
    · obtain ⟨ss', mem', opened'⟩ := ihHead ⟨ss, mem, opened⟩
      exact ⟨ss', mem_append_left _ mem', opened'⟩
    · obtain ⟨ss', mem', opened'⟩ := ihTail ⟨ss, mem, opened⟩
      exact ⟨ss', mem_append_right _ mem', opened'⟩

/-- A function keeps its mark. -/
def Shape.funcMark? : (k : Shape) → k.Of → Option Mark
  | .tree .func, f => some f.mark
  | _, _ => none

theorem Reworked.funcMark?_eq {k x x'} (h : Reworked A around k x x') :
    k.funcMark? x' = k.funcMark? x := by
  induction h with
  | refl => rfl
  | trans _ _ ih ih' => exact ih'.trans ih
  | @node _ c => cases c <;> rfl
  | _ => rfl

/-! ### Checks of parameters -/

theorem Param.firm_check (s : Scope) (name : String) (reflection : Expr) (p : Param) :
    Stmt.Firm (p.check s name reflection) := by
  match p with
  | Param.mk _ _ _ _ _ _ => exact ⟨fun _ => rfl, rfl⟩

/-- Whether a function has a body. -/
def Func.hasBody : Func → Bool
  | Func.mk _ _ _ _ _ body => body.toOption.isSome

namespace FuncPlan

variable {s : Scope} {role : Role} {plan : FuncPlan}

/-- The prologue follows a call of `super`, or nothing. -/
theorem getLast_position (p : FuncPlan) (ss : List Stmt) :
    ∀ s ∈ (ss.take (p.position ss)).getLast?, Stmt.isSuperCall s = true := by
  rw [position]
  split
  · cases h : superIndex? ss with
    | none => simp
    | some i =>
      obtain ⟨s, super', -, upTo⟩ := superIndex_eq_some h
      simpa [upTo] using super'
  · simp

/-- An assertion stands at the start of the body that the plan is applied to. -/
theorem opened_apply {check} (made : ∀ s ∈ plan.prologue, s.mark.id = 0) (h : check ∈ plan.asserts)
    {mark form typeParams params result} (b : FuncBody) :
    ∃ ss ∈ (plan.apply (Func.mk mark form typeParams params result (.present b))).bodies,
      Opened check ss := by
  change ∃ ss ∈ (FuncBody.stmts? (plan.applyBody b)).toList, Opened check ss
  have mem : check ∈ plan.prologue := mem_append_right _ h
  match b with
  | FuncBody.block ss =>
    refine ⟨plan.applyStmts ss.toList, mem_singleton.2 (toList_ofList _).symm, ?_⟩
    rw [applyStmts_eq]
    exact .of_mem mem (plan.getLast_position _) made
  | FuncBody.expr value =>
    have some : plan.asserts.isEmpty = false := by
      rw [isEmpty_eq_false_iff_exists_mem]
      exact ⟨check, h⟩
    change ∃ ss ∈ (FuncBody.stmts? (if _ && plan.asserts.isEmpty then _ else _)).toList, _
    rw [some, Bool.and_false, if_neg (by decide)]
    have opened (after : List Stmt) : Opened check ([] ++ plan.prologue ++ after) :=
      .of_mem mem (by simp) made
    refine ⟨_, mem_singleton.2 rfl, ?_⟩
    rw [toList_ofList]
    exact opened _

end FuncPlan

/-! ### Functions -/

/-- What is made of the function `f`: `f'` has its mark, and in its body all parameters that are
checked are so at the start. -/
structure Func.Guarded (options : Options) (f f' : Func) : Prop where
  mark : f'.mark = f.mark
  opened : f.hasBody = true → ∀ p ∈ f.params, ∀ name t, p.checked? = some (name, t) →
    ∃ s e, s.options = options ∧ s.reflect t = .ok e ∧
      ∃ ss ∈ f'.stmts?, Opened (p.check s name e) ss

section

variable {f f' : Func}

theorem Func.Guarded.reworked (made : ∀ around s, A around .stmt s → s.mark.id = 0)
    {options : Options} {f'' : Func} (h : f.Guarded options f')
    (reworked : Reworked A around (.tree .func) f' f'') : f.Guarded options f'' where
  mark := (Option.some.inj reworked.funcMark?_eq).trans h.mark
  opened body p hp name t typed := by
    obtain ⟨s, e, same, reflected, ss, mem, opened⟩ := h.opened body p hp name t typed
    obtain ⟨ss', mem', opened'⟩ := reworked.opened made (p.firm_check s name e)
      ⟨ss, Option.mem_toList.2 mem, opened⟩
    exact ⟨s, e, same, reflected, ss', Option.mem_toList.1 mem', opened'⟩

/-- **The plan of a function guards it.** -/
theorem funcPlanOf_guards {s role plan} (planned : funcPlanOf s role f = .ok plan)
    (alike : Alike (.tree .func) f f') : f.Guarded s.options (applyFuncPlan (.ok plan) f') := by
  match f, planned, alike with
  | Func.mk mark form typeParams params result .absent, planned, alike =>
    obtain ⟨_, _, _, _, rfl, -⟩ := alike.func_inv
    obtain rfl := pure_eq_ok.1 planned
    exact ⟨rfl, nofun⟩
  | Func.mk mark form typeParams params result (.present b), planned, alike =>
    obtain ⟨plan, body, rfl⟩ := map_eq_ok.1 planned
    obtain ⟨typeParams', params', result', _, rfl, bodies⟩ := alike.func_inv
    rcases bodies.maybe_inv with ⟨absent, -⟩ | ⟨_, b', -, rfl, -⟩
    · cases absent
    refine ⟨rfl, fun _ p hp name t typed => ?_⟩
    obtain ⟨e, reflected, check⟩ := (bodyPlanOf_opening body).check hp typed
    have opens := (bodyPlanOf_opens body).1
    have opened : ∃ ss ∈ (plan.apply
        (Func.mk mark form typeParams' params' result' (.present b'))).bodies, Opened _ ss :=
      FuncPlan.opened_apply (fun st hst => ((opens st hst).made []).1.synthetic.mark_id)
        check b'
    obtain ⟨ss, mem, opened⟩ := opened
    exact ⟨_, e, s.options_withGenerics _ _, reflected, ss, Option.mem_toList.1 mem, opened⟩

end

end Reify
