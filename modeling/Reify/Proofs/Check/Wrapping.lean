import Reify.Proofs.Check.Growth
import Reify.Proofs.Reflection.Wrapping

/-!
# Wrapped checks

What is added to a statement and to a copy of it with other numbers, with options that differ in
what they say about null: the plans have the same parts, up to wrappers, and are applied at the same
positions.
-/

namespace Reify

open List

variable {S : Sides}

/-! ### Returned values -/

/-- What mapping the returned values does to related things. -/
def Shape.MapsTwins (S : Sides) (f f' : Loc → Expr → Expr) : (k : Shape) → k.Of → k.Of → Prop
  | .tree c, t, t' => c.holdsStmts = true → Twin S c
      (t.fold (X := Tree) (Form.mapReturns f)) (t'.fold (X := Tree) (Form.mapReturns f'))
  | .parts cs, ts, ts' => Twinned S
      (.parts cs) (ts.replaceStmts (ts.fold (X := Tree) (Form.mapReturns f)))
      (ts'.replaceStmts (ts'.fold (X := Tree) (Form.mapReturns f')))
  | .list _, _, _ => True

variable {α β : Type} {x : Option α} {A : α → β → Prop} {y : Option β} {ss ss' : List Stmt}
  {b b' : FuncBody} {ms' ms : List ClassMember} {m' m : ClassMember}

theorem rel_map {γ δ : Type} {B} {f : α → γ} {g : β → δ} (h : ∀ a b, A a b → B (f a) (g b))
    (hx : Option.Rel A x y) : Option.Rel B (x.map f) (y.map g) := by
  cases hx with
  | none => exact .none
  | some related => exact .some (h _ _ related)

theorem Wraps.ofOption {c t t'} (h : Option.Rel (Twin S c) t t') :
    Twin S (.maybe c) (.ofOption t) (.ofOption t') := by
  cases h with
  | none => exact .node .nil
  | some h => exact .node (.cons h .nil)

theorem Wraps.mapReturns {f f'}
    (hf : ∀ loc e e', Twin S .expr e e' → Twin S .expr (f loc e) (f' loc e')) {k x x'}
    (h : Twinned S k x x') : k.MapsTwins S f f' x x' := by
  induction h with
  | @node c form marks ts ts' parts ih =>
    intro hs
    have plain : Twin S c
        (.node form marks (ts.replaceStmts (ts.fold (X := Tree) (Form.mapReturns f))))
        (.node form (marks.renumber S.map)
          (ts'.replaceStmts (ts'.fold (X := Tree) (Form.mapReturns f')))) := .node ih
    cases c with
    | stmt =>
      cases form with
      | returning =>
        match marks, parts with
        | .two site, .cons value .nil =>
          exact .node (.cons (.ofOption (rel_map (hf _) value.toOption)) .nil)
      | _ => exact plain
    | block | handler | branch | maybe _ | many _ => exact plain
    | _ => cases hs
  | nil => exact .nil
  | @cons c cs t t' ts ts' head tail ihHead ihTail =>
    refine .cons ?_ ihTail
    cases hc : c.holdsStmts with
    | true => exact ihHead hc
    | false => exact head
  | _ => exact fun hs => nomatch hs

/-! ### Plans -/

/-- Plans for a function with related parts. -/
inductive FuncPlan.Related (S : Sides) : FuncPlan → FuncPlan → Prop where
  | mk {role : Role} {loc : Loc} {resultName : String} {consts consts' asserts asserts' : List Stmt}
      {result result' : Option Expr} (typeConsts : Forall₂ (Twin S .stmt) consts consts')
      (results : Option.Rel (Twin S .expr) result result')
      (checks : Forall₂ (Twin S .stmt) asserts asserts') :
      FuncPlan.Related S ⟨role, loc, consts, result, resultName, asserts⟩
        ⟨role, loc, consts', result', resultName, asserts'⟩

/-- Plans for an initializer with related reflections. -/
inductive InitPlan.Related (S : Sides) : InitPlan → InitPlan → Prop where
  | keep : InitPlan.Related S .keep .keep
  | check {e e' : Expr} (reflections : Twin S .expr e e') :
      InitPlan.Related S (.check e) (.check e')
  | drop : InitPlan.Related S .drop .drop

/-- Plans for a class member with related parts. -/
inductive MemberPlan.Related (S : Sides) : MemberPlan → MemberPlan → Prop where
  | keep : MemberPlan.Related S .keep .keep
  | check {p p' : FuncPlan} (plans : p.Related S p') :
      MemberPlan.Related S (.check p) (.check p')
  | decorate {d d' : Decorator} (decorators : Twin S .decorator d d') :
      MemberPlan.Related S (.decorate d) (.decorate d')

/-- Statements that keep type parameters, related one by one. -/
inductive ParamStmts.Related (S : Sides) : ParamStmts → ParamStmts → Prop where
  | mk {before before' : Stmt} {after after' : List Stmt} (first : Twin S .stmt before before')
      (rest : Forall₂ (Twin S .stmt) after after') :
      ParamStmts.Related S ⟨before, after⟩ ⟨before', after'⟩

/-- Plans for a constructor with related parts. -/
inductive ConstructorPlan.Related (S : Sides) : ConstructorPlan → ConstructorPlan → Prop where
  | mk {loc : Loc} {params params' : Option ParamStmts} {implemented implemented' : List Stmt}
      (keeping : Option.Rel (ParamStmts.Related S) params params')
      (checks : Forall₂ (Twin S .stmt) implemented implemented') :
      ConstructorPlan.Related S ⟨loc, params, implemented⟩ ⟨loc, params', implemented'⟩

/-- What is added to a class beside its members, related part by part. -/
inductive ClassFinish.Related (S : Sides) : ClassFinish → ClassFinish → Prop where
  | mk {p p' : ConstructorPlan} {symbol symbol' : Option ClassMember} {d d' : Decorator}
      (constructors : p.Related S p') (symbols : Option.Rel (Twin S .classMember) symbol symbol')
      (decorators : Twin S .decorator d d') :
      ClassFinish.Related S ⟨p, symbol, d⟩ ⟨p', symbol', d'⟩

/-- Plans for a class with related parts. -/
inductive ClassPlan.Related (S : Sides) : ClassPlan → ClassPlan → Prop where
  | mk {members members' : List MemberPlan} {finish finish' : Option ClassFinish}
      (each : Forall₂ (MemberPlan.Related S) members members')
      (rest : Option.Rel (ClassFinish.Related S) finish finish') :
      ClassPlan.Related S ⟨members, finish⟩ ⟨members', finish'⟩

/-- Plans for a statement of the same kind with related parts. -/
inductive StmtPlan.Related (S : Sides) : StmtPlan → StmtPlan → Prop where
  | keep : StmtPlan.Related S .keep .keep
  | func {p p' : FuncPlan} (plans : p.Related S p') : StmtPlan.Related S (.func p) (.func p')
  | inits {ps ps' : List InitPlan} (plans : Forall₂ (InitPlan.Related S) ps ps') :
      StmtPlan.Related S (.inits ps) (.inits ps')
  | classDecl {p p' : ClassPlan} (plans : p.Related S p') :
      StmtPlan.Related S (.classDecl p) (.classDecl p')

/-! ### Applying plans -/

theorem isEmpty_eq {xs ys} (h : Forall₂ A xs ys) : xs.isEmpty = ys.isEmpty := by
  cases h <;> rfl

theorem isSome_eq (h : Option.Rel A x y) : x.isSome = y.isSome := by
  cases h <;> rfl

theorem superIndex?_eq (h : Forall₂ (Twin S .stmt) ss ss') :
    superIndex? ss = superIndex? ss' := by
  rw [superIndex?, superIndex?]
  induction h with
  | nil => rfl
  | cons head _ ih => rw [findIdx?_cons, findIdx?_cons, head.isSuperCall_eq, ih]

theorem Sides.congruent (S : Sides) :
    Scope.Congruent { options := S.left } (Scope.withOptions { options := S.left } S.right) Eq
      (Twin S) :=
  Scope.congruent_twin rfl

theorem twin_assertion {loc} {e e' : Expr} {args args' : List Expr} (he : Twin S .expr e e')
    (hargs : Forall₂ (Twin S .expr) args args') :
    Twin S .expr (assertion loc e args) (assertion loc e' args') :=
  S.congruent.methodCall rfl he _ hargs

namespace FuncPlan.Related

variable {p p' : FuncPlan} (hp : p.Related S p')

include hp

theorem checkedValue (loc : Loc) {e e' : Expr} (he : Twin S .expr e e') :
    Twin S .expr (p.checkedValue loc e) (p'.checkedValue loc e') := by
  obtain ⟨_, results, _⟩ := hp
  cases results with
  | none => exact he
  | some _ => exact twin_assertion (.made synthetic_ident) (.cons he .nil)

theorem prologue : Forall₂ (Twin S .stmt) p.prologue p'.prologue := by
  obtain ⟨typeConsts, results, checks⟩ := hp
  refine rel_append (rel_append typeConsts ?_) checks
  cases results with
  | none => exact .nil
  | some related => exact .cons (S.congruent.constStmt rfl _ related false) .nil

theorem loc_eq : p.loc = p'.loc := by
  obtain ⟨_, _, _⟩ := hp
  rfl

theorem keepsExpression : p.keepsExpression = p'.keepsExpression := by
  obtain ⟨typeConsts, _, checks⟩ := hp
  exact congrArg₂ (· && ·) (isEmpty_eq typeConsts) (isEmpty_eq checks)

theorem position (hs : Forall₂ (Twin S .stmt) ss ss') : p.position ss = p'.position ss' := by
  obtain ⟨_, _, _⟩ := hp
  rw [FuncPlan.position, FuncPlan.position, superIndex?_eq hs]

theorem applyStmts (hs : Forall₂ (Twin S .stmt) ss ss') :
    Forall₂ (Twin S .stmt) (p.applyStmts ss) (p'.applyStmts ss') := by
  have same : p.result.isSome = p'.result.isSome := by
    obtain ⟨_, results, _⟩ := hp
    exact isSome_eq results
  have mapped : Forall₂ (Twin S .stmt)
      (if p.result.isSome then ss.map (Stmt.mapReturns p.checkedValue) else ss)
      (if p'.result.isSome then ss'.map (Stmt.mapReturns p'.checkedValue) else ss') := by
    rw [same]
    split
    · refine List.rel_map (fun s s' related => ?_) hs
      exact related.mapReturns (fun loc e e' => hp.checkedValue loc) rfl
    · exact hs
  rw [FuncPlan.applyStmts, FuncPlan.applyStmts, hp.position mapped]
  exact rel_append (rel_append (forall₂_take _ mapped) (hp.prologue))
    (forall₂_drop _ mapped)

theorem applyBody (hb : Twin S .funcBody b b') :
    Twin S .funcBody (p.applyBody b) (p'.applyBody b') := by
  cases hb with
  | @node _ form marks ts ts' parts =>
    cases form with
    | block =>
      match marks, parts with
      | .none, .cons stmts .nil => exact S.congruent.block (hp.applyStmts stmts.toList)
    | _ =>
      match marks, parts with
      | .none, .cons value .nil =>
        change Twin S .funcBody (if p.keepsExpression then _ else _)
          (if p'.keepsExpression then _ else _)
        rw [← hp.keepsExpression]
        split
        · obtain ⟨_, results, _⟩ := hp
          cases results with
          | none => exact .node (.cons value .nil)
          | some related =>
            exact .node (.cons (twin_assertion related (.cons value .nil)) .nil)
        · rw [← hp.loc_eq]
          refine S.congruent.block (rel_append (hp.prologue) (.cons ?_ .nil))
          exact S.congruent.returnStmt rfl (hp.checkedValue _ value)

theorem apply {f f' : Func} (hf : Twin S .func f f') :
    Twin S .func (p.apply f) (p'.apply f') := by
  cases hf with
  | @node _ form marks ts ts' parts =>
    match marks, parts with
    | .one mark, .cons typeParams (.cons params (.cons result (.cons body .nil))) =>
      refine .node (.cons typeParams (.cons params (.cons result (.cons (.ofOption ?_) .nil))))
      exact rel_map (fun _ _ related => hp.applyBody related) body.toOption

end FuncPlan.Related

/-! ### Variables -/

theorem InitPlan.Related.apply {p p' : InitPlan} (hp : p.Related S p') {init init' : Maybe .expr}
    (hi : Twin S (.maybe .expr) init init') :
    Twin S (.maybe .expr) (p.apply init) (p'.apply init') := by
  cases hp with
  | keep => exact hi
  | drop => exact .node .nil
  | check reflections =>
    refine .ofOption (rel_map (fun e e' he => ?_) hi.toOption)
    rw [checkedInit, checkedInit, he.loc_eq]
    exact twin_assertion reflections (.cons he .nil)

theorem twin_applyInits {ps ps'} (hp : Forall₂ (InitPlan.Related S) ps ps')
    {ds ds' : List Declarator} (hd : Forall₂ (Twin S .declarator) ds ds') :
    Forall₂ (Twin S .declarator) (applyInits ps ds) (applyInits ps' ds') := by
  induction hp generalizing ds ds' with
  | nil =>
    rw [applyInits, applyInits]
    · exact hd
    all_goals simp
  | cons plan _ ih =>
    cases hd with
    | nil => exact .nil
    | cons head tail =>
      refine .cons ?_ (ih tail)
      cases head with
      | @node _ form marks ts ts' parts =>
        match marks, parts with
        | .one mark, .cons binding (.cons type (.cons init .nil)) =>
          exact .node (.cons binding (.cons type (.cons (plan.apply init) .nil)))

theorem VarDecl.twin_applyInits {ps ps'} (hp : Forall₂ (InitPlan.Related S) ps ps') {d d' : VarDecl}
    (hd : Twin S .varDecl d d') :
    Twin S .varDecl (VarDecl.applyInits ps d) (VarDecl.applyInits ps' d') := by
  cases hd with
  | @node _ form marks ts ts' parts =>
    match marks, parts with
    | .one mark, .cons declarators .nil =>
      exact .node (.cons (S.congruent.many (Reify.twin_applyInits hp declarators.toList)) .nil)

/-! ### Classes -/

theorem MemberPlan.Related.apply {p p' : MemberPlan} (hp : p.Related S p') {m m' : ClassMember}
    (hm : Twin S .classMember m m') : Twin S .classMember (p.apply m) (p'.apply m') := by
  cases hm with
  | @node _ form marks ts ts' parts =>
    match marks, parts with
    | .one mark, .cons decorators (.cons key (.cons type (.cons val .nil))) =>
      cases hp with
      | keep => exact .node (.cons decorators (.cons key (.cons type (.cons val .nil))))
      | decorate head =>
        refine .node (.cons (S.congruent.many ?_) (.cons key (.cons type (.cons val .nil))))
        exact .cons head decorators.toList
      | check plans =>
        have rest {v v' : MemberVal} (hv : Twin S .memberVal v v') :
            Twin S .classMember (ClassMember.mk mark form _ _ _ v)
              (ClassMember.mk (mark.renumber S.map) form _ _ _ v') :=
          .node (.cons decorators (.cons key (.cons type (.cons hv .nil))))
        cases val with
        | @node _ valForm marks ts ts' parts =>
          cases valForm with
          | function kind =>
            match marks, parts with
            | .one _, .cons func .nil => exact rest (.node (.cons (plans.apply func) .nil))
          | _ => exact rest (.node parts)

theorem twin_applyMembers {ps ps'} (hp : Forall₂ (MemberPlan.Related S) ps ps')
    (hm : Forall₂ (Twin S .classMember) ms ms') :
    Forall₂ (Twin S .classMember) (applyMembers ps ms) (applyMembers ps' ms') := by
  induction hp generalizing ms ms' with
  | nil =>
    rw [applyMembers, applyMembers]
    · exact hm
    all_goals simp
  | cons plan _ ih =>
    cases hm with
    | nil => exact .nil
    | cons head tail => exact .cons (plan.apply head) (ih tail)

theorem ParamStmts.Related.apply {p p' : ParamStmts} (hp : p.Related S p') {ss ss' : List Stmt}
    (hs : Forall₂ (Twin S .stmt) ss ss') :
    Forall₂ (Twin S .stmt) (p.apply ss) (p'.apply ss') := by
  obtain ⟨first, rest⟩ := hp
  rw [ParamStmts.apply, ParamStmts.apply, superIndex?_eq hs]
  cases superIndex? ss' with
  | none => exact .cons first (rel_append rest hs)
  | some i =>
    exact rel_append (rel_append (rel_append (rel_append
      (forall₂_take i hs) (.cons first .nil))
      (forall₂_take 1 (forall₂_drop i hs))) rest) (forall₂_drop (i + 1) hs)

/-- A function body with the statements of its block changed. -/
def FuncBody.mapBlock (f : List Stmt → List Stmt) : FuncBody → FuncBody
  | FuncBody.block stmts => .block (.ofList (f stmts.toList))
  | body => body

/-- A function with the statements of its block changed. -/
def Func.mapBlock (f : List Stmt → List Stmt) : Func → Func
  | Func.mk mark form typeParams params result body =>
    .mk mark form typeParams params result (body.toOption.map (FuncBody.mapBlock f))

/-- A class member with the statements of its block changed. -/
def ClassMember.mapBlock (f : List Stmt → List Stmt) : ClassMember → ClassMember
  | ClassMember.mk mark form decorators key type (MemberVal.function m kind func) =>
    .mk mark form decorators key type (.function m kind (Func.mapBlock f func))
  | m => m

theorem ConstructorPlan.applyMember_eq (p : ConstructorPlan) : (m : ClassMember) →
    p.applyMember m = ClassMember.mapBlock p.applyStmts m
  | ClassMember.mk _ _ _ _ _ (MemberVal.function _ _
      (Func.mk _ _ _ _ _ (.present (FuncBody.block _))))
  | ClassMember.mk _ _ _ _ _ (MemberVal.function _ _
      (Func.mk _ _ _ _ _ (.present (FuncBody.expr _))))
  | ClassMember.mk _ _ _ _ _ (MemberVal.function _ _ (Func.mk _ _ _ _ _ .absent))
  | ClassMember.mk _ _ _ _ _ (MemberVal.property _)
  | ClassMember.mk _ _ _ _ _ (MemberVal.index _ _ _ _) => rfl

section

variable {f f' : List Stmt → List Stmt} (hf : ∀ ss ss', Forall₂ (Twin S .stmt) ss ss' →
  Forall₂ (Twin S .stmt) (f ss) (f' ss'))

include hf

theorem FuncBody.twin_mapBlock (hb : Twin S .funcBody b b') :
    Twin S .funcBody (FuncBody.mapBlock f b) (FuncBody.mapBlock f' b') := by
  cases hb with
  | @node _ form marks ts ts' parts =>
    cases form with
    | block =>
      match marks, parts with
      | .none, .cons stmts .nil => exact S.congruent.block (hf _ _ stmts.toList)
    | expr => exact .node parts

theorem Func.twin_mapBlock {g g' : Func} (hg : Twin S .func g g') :
    Twin S .func (Func.mapBlock f g) (Func.mapBlock f' g') := by
  cases hg with
  | @node _ form marks ts ts' parts =>
    match marks, parts with
    | .one mark, .cons typeParams (.cons params (.cons result (.cons body .nil))) =>
      refine .node (.cons typeParams (.cons params (.cons result (.cons (.ofOption ?_) .nil))))
      exact rel_map (fun _ _ related => FuncBody.twin_mapBlock hf related) body.toOption

theorem ClassMember.twin_mapBlock {m m' : ClassMember} (hm : Twin S .classMember m m') :
    Twin S .classMember (ClassMember.mapBlock f m) (ClassMember.mapBlock f' m') := by
  cases hm with
  | @node _ form marks ts ts' parts =>
    match marks, parts with
    | .one mark, .cons decorators (.cons key (.cons type (.cons val .nil))) =>
      have rest {v v' : MemberVal} (hv : Twin S .memberVal v v') :
          Twin S .classMember (ClassMember.mk mark form _ _ _ v)
            (ClassMember.mk (mark.renumber S.map) form _ _ _ v') :=
        .node (.cons decorators (.cons key (.cons type (.cons hv .nil))))
      cases val with
      | @node _ valForm marks ts ts' parts =>
        cases valForm with
        | function kind =>
          match marks, parts with
          | .one _, .cons func .nil =>
            exact rest (.node (.cons (Func.twin_mapBlock hf func) .nil))
        | _ => exact rest (.node parts)

end

theorem MemberKey.direct?_eq {k k' : MemberKey} (hk : Twin S .memberKey k k') :
    MemberKey.direct? k = MemberKey.direct? k' := by
  cases hk with
  | @node _ form marks ts ts' parts =>
    cases form with
    | direct =>
      match marks, parts with
      | .one _, .nil => rfl
    | computed =>
      match marks, parts with
      | .none, .cons _ .nil => rfl

/-- Whether what a member holds is a method with a body. -/
def MemberVal.isImplementation : MemberVal → Bool
  | MemberVal.function _ .method (Func.mk _ _ _ _ _ body) => body.toOption.isSome
  | _ => false

theorem ConstructorPlan.isTarget_mk (mark : Mark) (form : ClassMemberForm)
    (decorators : Many .decorator) (key : MemberKey) (type : Maybe .type) (val : MemberVal) :
    isTarget (ClassMember.mk mark form decorators key type val) =
      (!form.static && MemberKey.direct? key == some "constructor" &&
        MemberVal.isImplementation val) := by
  match val with
  | MemberVal.function _ .method (Func.mk _ _ _ _ _ body) =>
    exact congrArg (· && body.toOption.isSome) (Bool.and_true _)
  | MemberVal.function _ .getter _ | MemberVal.function _ .setter _ | MemberVal.property _
  | MemberVal.index _ _ _ _ => exact Bool.and_false _ |>.trans (Bool.and_false _).symm

theorem MemberVal.isImplementation_eq {v v' : MemberVal} (hv : Twin S .memberVal v v') :
    MemberVal.isImplementation v = MemberVal.isImplementation v' := by
  cases hv with
  | @node _ form marks ts ts' parts =>
    cases form with
    | property | index => rfl
    | function kind =>
      match marks, parts with
      | .one _, .cons func .nil =>
        cases func with
        | @node _ _ marks ts ts' parts =>
          match marks, parts with
          | .one _, .cons _ (.cons _ (.cons _ (.cons body .nil))) =>
            cases kind with
            | method => exact isSome_eq body.toOption
            | _ => rfl

theorem ClassMember.isTarget_eq (hm : Twin S .classMember m m') :
    ConstructorPlan.isTarget m = ConstructorPlan.isTarget m' := by
  cases hm with
  | @node _ form marks ts ts' parts =>
    match marks, parts with
    | .one mark, .cons decorators (.cons key (.cons type (.cons val .nil))) =>
      refine (ConstructorPlan.isTarget_mk _ _ _ _ _ _).trans
        (Eq.trans ?_ (ConstructorPlan.isTarget_mk _ _ _ _ _ _).symm)
      rw [MemberKey.direct?_eq key, MemberVal.isImplementation_eq val]

namespace ConstructorPlan.Related

variable {p p' : ConstructorPlan} (hp : p.Related S p')

include hp

theorem applyStmts (hs : Forall₂ (Twin S .stmt) ss ss') :
    Forall₂ (Twin S .stmt) (p.applyStmts ss) (p'.applyStmts ss') := by
  obtain ⟨keeping, checks⟩ := hp
  refine rel_append ?_ checks
  cases keeping with
  | none => exact hs
  | some params => exact params.apply hs

theorem applyMember (hm : Twin S .classMember m m') :
    Twin S .classMember (p.applyMember m) (p'.applyMember m') := by
  rw [p.applyMember_eq, p'.applyMember_eq]
  exact ClassMember.twin_mapBlock (fun _ _ => hp.applyStmts) hm

theorem apply (derived : Bool) (hm : Forall₂ (Twin S .classMember) ms ms') :
    Forall₂ (Twin S .classMember) (p.apply derived ms) (p'.apply derived ms') := by
  have targets : ms.findIdx? isTarget = ms'.findIdx? isTarget := by
    clear hp
    induction hm with
    | nil => rfl
    | cons head _ ih => rw [findIdx?_cons, findIdx?_cons, ClassMember.isTarget_eq head, ih]
  have same : p.isEmpty = p'.isEmpty ∧ p.loc = p'.loc := by
    obtain ⟨keeping, checks⟩ := hp
    refine ⟨congrArg₂ (· && ·) ?_ (isEmpty_eq checks), rfl⟩
    cases keeping <;> rfl
  have modified (i : Nat) {ms ms' : List ClassMember}
      (hm : Forall₂ (Twin S .classMember) ms ms') :
      Forall₂ (Twin S .classMember) (ms.modify i p.applyMember)
        (ms'.modify i p'.applyMember) := by
    induction hm generalizing i with
    | nil => simp
    | cons head tail ih =>
      cases i with
      | zero => exact .cons (hp.applyMember head) tail
      | succ i => exact .cons head (ih i)
  rw [ConstructorPlan.apply, ConstructorPlan.apply, same.1, ensure, ensure, targets, same.2]
  split
  · exact hm
  · cases ms'.findIdx? isTarget with
    | some i => exact modified i hm
    | none =>
      refine modified 0 (.cons (.made ?_) hm)
      cases derived <;> simp [defaultConstructor]

end ConstructorPlan.Related

theorem ClassPlan.Related.apply {p p' : ClassPlan} (hp : p.Related S p') {d d' : ClassDecl}
    (hd : Twin S .classDecl d d') : Twin S .classDecl (p.apply d) (p'.apply d') := by
  obtain ⟨each, rest⟩ := hp
  cases hd with
  | @node _ form marks ts ts' parts =>
    match marks, parts with
    | .one mark, .cons decorators (.cons name (.cons typeParams (.cons base (.cons baseArgs
        (.cons implemented (.cons members .nil)))))) =>
      have inner := twin_applyMembers each members.toList
      cases rest with
      | none =>
        exact .node (.cons decorators (.cons name (.cons typeParams (.cons base (.cons baseArgs
          (.cons implemented (.cons (S.congruent.many inner) .nil)))))))
      | some finish =>
        obtain ⟨constructors, symbols, head⟩ := finish
        have derived := isSome_eq base.toOption
        refine .node (.cons (S.congruent.many (.cons head decorators.toList)) (.cons name
          (.cons typeParams (.cons base (.cons baseArgs (.cons implemented
            (.cons (S.congruent.many (rel_append ?_ ?_)) .nil)))))))
        · cases symbols with
          | none => exact .nil
          | some symbol => exact .cons symbol .nil
        · rw [derived]
          exact constructors.apply _ inner

/-! ### Statements -/

theorem StmtPlan.Related.apply {p p' : StmtPlan} (hp : p.Related S p') {s s' : Stmt}
    (hs : Twin S .stmt s s') : Twin S .stmt (p.apply s) (p'.apply s') := by
  cases hs with
  | @node _ form marks ts ts' parts =>
    cases form with
    | funcDecl =>
      match marks, parts with
      | .one _, .cons decl .nil =>
        cases hp with
        | func plan =>
          refine .node (.cons ?_ .nil)
          cases decl with
          | @node _ _ marks ts ts' parts =>
            match marks, parts with
            | .one _, .cons name (.cons inner .nil) =>
              exact .node (.cons name (.cons (plan.apply inner) .nil))
        | _ => exact .node (.cons decl .nil)
    | varDecl =>
      match marks, parts with
      | .one _, .cons decl .nil =>
        cases hp with
        | inits plans => exact .node (.cons (VarDecl.twin_applyInits plans decl) .nil)
        | _ => exact .node (.cons decl .nil)
    | classDecl =>
      match marks, parts with
      | .one _, .cons decl .nil =>
        cases hp with
        | classDecl plan => exact .node (.cons (plan.apply decl) .nil)
        | _ => exact .node (.cons decl .nil)
    | _ => cases hp <;> exact .node parts

theorem StmtPlan.Related.initPlans {p p' : StmtPlan} (hp : p.Related S p') :
    Forall₂ (InitPlan.Related S) p.initPlans p'.initPlans := by
  cases hp with
  | inits plans => exact plans
  | _ => exact .nil

end Reify
