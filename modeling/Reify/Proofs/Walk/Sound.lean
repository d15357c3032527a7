import Reify.Proofs.Walk.Rules

/-!
# The walk follows the rules

Every run of the walk over a unit is a derivation of `Walks` (`SourceUnit.walks`).

The walk is a fold whose results are steps still to be run, and what is known about them depends
on the category: the steps of a function wait for its role, those of a sequence are a list.
`Form.walkInside` puts the steps of the parts together by the modes of the form, and the walk is
shown to do the same (`Form.walk_inert`, `Form.walk_func`, `StmtForm.walkParts_inside`).  What holds
of every walk is then a matter of the modes, and not of the forms one by one.
-/

namespace Reify

open List

/-! ### The walk by modes -/

/-- Steps that no statements follow. -/
def Walk.alone {α : Type} (act : Walk α) : Walk (α × List Stmt) := (·, []) <$> act

namespace Walked

/-- The steps that walk a tree which is told something. -/
def node : {c : Category} → Brief → Walked c → Walk (Tree c × List Stmt)
  | .stmt, _, act => act
  | .func, .role role, act | .memberVal, .role role, act => Walk.alone (act role)
  | .declarator, .init plan, act => Walk.alone (act plan)
  | .varDecl, .inits plans, act => Walk.alone (act plans)
  | .classMember, .member className names, act => Walk.alone (act className names)
  | _, _, act => Walk.alone (Walked.run act)

/-- Walks the trees of a sequence one after another. -/
def each {c : Category} (told : Brief → Walked c → Walk (Tree c)) :
    Brief → List (Walked c) → Walk (List (Tree c))
  | _, [] => return []
  | brief, act :: acts => do return (← told brief.head act) :: (← each told brief.tail acts)

/-- Walks a part that is told something. -/
def told : {c : Category} → Brief → Walked c → Walk (Tree c)
  | .many _, brief, acts => do return .ofList (← each told brief acts)
  | .maybe _, brief, act => do return .ofOption (← act.mapM (told brief))
  | _, brief, act => do
    let (t, followers) ← node brief act
    return t.followedBy followers

end Walked

/-- Walks a part in a mode. -/
def Mode.walk : {c : Category} → Tree c → Walked c → Mode → Walk (Tree c)
  | _, _, act, told brief => Walked.told brief act
  | .many .stmt, t, acts, list => walkInner t acts
  | .many .stmt, t, acts, top => do return .ofList (← walkList t.toList acts)
  | _, t, act, inScope mode => Walk.inScope (mode.walk t act)
  | _, t, act, generic names access mode => Walk.withGenerics names access (mode.walk t act)
  | _, t, _, _ => return t

/-- Walks parts in their modes. -/
def Children.walkBy : {cs : List Category} → Children cs → Results Walked cs → List Mode →
    Walk (Children cs)
  | _ :: _, .cons t ts, (act, acts), mode :: modes => do
    let t ← mode.walk t act
    return .cons t (← ts.walkBy acts modes)
  | _, ts, _, _ => return ts

/-- Walks what is inside a tree. -/
def Form.walkInside {c : Category} (form : Form c) (marks : Marks form.width)
    (ts : Children form.arity) (acts : Results Walked form.arity) (brief : Brief) : Walk (Tree c) :=
  let inside := Walk.withGenerics (Tree.node form marks ts).generics .constant do
    return .node form marks (← ts.walkBy acts (form.modes marks ts brief))
  if form.opensScope then Walk.inScope inside else inside

/-- Whether the walk of a tree can be told something. -/
def Brief.suits : Category → Brief → Bool
  | .func, role _ | .memberVal, role _ | .declarator, init _ | .varDecl, inits _
  | .classMember, member _ _ => true
  | .func, _ | .memberVal, _ | .declarator, _ | .varDecl, _ | .classMember, _ => false
  | .many c, brief => brief.head.suits c
  | .maybe c, brief => brief.suits c
  | _, none => true
  | _, _ => false

/-- Whether a part can be walked in a mode. -/
def Mode.suits : Category → Mode → Bool
  | _, skip => true
  | c, told brief => brief.suits c
  | .many .stmt, list | .many .stmt, top => true
  | _, list | _, top => false
  | c, inScope mode => !c.changesFrame && mode.suits c
  | c, generic _ _ mode => mode.suits c

/-- Whether parts can be walked in modes. -/
def Mode.suitAll : List Category → List Mode → Bool
  | [], [] => true
  | c :: cs, mode :: modes => mode.suits c && suitAll cs modes
  | _, _ => false

/-- Whether what is inside a tree can be told something. -/
def Brief.suitsInside : {c : Category} → Form c → Brief → Bool
  | .stmt, .varDecl, inits _ | .forInit, .decl, inits _ => true
  | .stmt, .varDecl, _ | .forInit, .decl, _ => false
  | .stmt, _, _ | .func, _, _ | .forInit, _, _ => true
  | c, _, brief => brief.suits c

section Suits

variable {c : Category} {brief : Brief}

theorem Brief.suits_tail (h : brief.head.suits c = true) : brief.tail.head.suits c = true := by
  cases brief with
  | eachInit plans => 
    induction c with
    | many c ih | maybe c ih => exact ih h
    | _ => first | rfl | exact h
  | _ => exact h

theorem Category.suits_brief (c : Category) : c.brief.head = c.brief ∧ c.brief.tail = c.brief ∧
    c.brief.suits c = true := by
  induction c with
  | many c ih => exact ⟨ih.1, ih.2.1, (congrArg (Brief.suits c) ih.1).trans ih.2.2⟩
  | maybe c ih => exact ih
  | _ => exact ⟨rfl, rfl, rfl⟩

theorem Mode.suitAll_told (cs : List Category) :
    Mode.suitAll cs (cs.map fun c => .told c.brief) = true := by
  induction cs with
  | nil => rfl
  | cons c cs ih => exact Bool.and_eq_true_iff.2 ⟨c.suits_brief.2.2, ih⟩

theorem Mode.suitAll_skip (cs : List Category) : Mode.suitAll cs (cs.map fun _ => .skip) = true := by
  induction cs with
  | nil => rfl
  | cons c cs ih => exact ih

theorem Form.modes_suit (form : Form c) (marks : Marks form.width) (ts : Children form.arity)
    (h : brief.suitsInside form = true) :
    Mode.suitAll form.arity (form.modes marks ts brief) = true := by
  cases c with
  | stmt =>
    cases form with
    | block | switch | trying => rfl
    | varDecl =>
      cases brief with
      | inits => rfl
      | _ => nomatch h
    | _ => exact Mode.suitAll_told _
  | func | block | handler | branch | unit => rfl
  | funcBody =>
    cases form with
    | block => rfl
    | expr => exact Mode.suitAll_told _
  | forInit =>
    cases form with
    | decl =>
      cases brief with
      | inits => rfl
      | _ => nomatch h
    | _ => exact Mode.suitAll_told _
  | varDecl =>
    cases brief with
    | inits => rfl
    | _ => nomatch h
  | declarator =>
    cases brief with
    | init plan => cases plan <;> rfl
    | _ => nomatch h
  | classDecl =>
    match ts with
    | .cons _ (.cons _ (.cons _ _)) => rfl
  | classMember =>
    cases brief with
    | member => rfl
    | _ => nomatch h
  | memberVal =>
    cases brief with
    | role => cases form <;> rfl
    | _ => nomatch h
  | objMember =>
    cases form with
    | valued =>
      match ts with
      | .cons _ (.cons _ .nil) => rfl
    | _ => rfl
  | expr | pat | param | arg | arrayElem | memberKey | arrayPatElem | objPatProp | binding
  | forTarget | funcDecl => exact Mode.suitAll_told _
  | _ => exact Mode.suitAll_skip _

end Suits

/-! ### The walk is the walk by modes -/

section Equations

variable {c : Category} {cs : List Category} {brief : Brief}

@[simp] theorem Tree.followedBy_nil (t : Tree c) : t.followedBy [] = t := by
  cases c <;> rfl

theorem Walked.each_eq_mapM (brief : Brief) (head : brief.head = brief) (tail : brief.tail = brief)
    (acts : List (Walked c)) :
    Walked.each Walked.told brief acts = acts.mapM (Walked.told brief) := by
  induction acts with
  | nil => rfl
  | cons act acts ih => rw [Walked.each, head, tail, ih, mapM_cons]

theorem Walked.run_eq_told (act : Walked c) : Walked.run act = Walked.told c.brief act := by
  induction c with
  | many c ih =>
    change (do return Tree.ofList (← act.mapM Walked.run)) = (do
      return Tree.ofList (← Walked.each Walked.told c.brief act))
    rw [Walked.each_eq_mapM c.brief c.suits_brief.1 c.suits_brief.2.1, ← funext ih]
  | maybe c ih =>
    change (do return Tree.ofOption (← act.mapM Walked.run)) = (do
      return Tree.ofOption (← act.mapM (Walked.told c.brief)))
    rw [← funext ih]
  | _ => rfl

theorem Results.runAll_eq : {cs : List Category} → (ts : Children cs) →
    (acts : Results Walked cs) →
    Results.runAll acts = ts.walkBy acts (cs.map fun c => .told c.brief)
  | _, .nil, () => rfl
  | _, .cons t ts, (act, acts) => by
    rw [Results.runAll, Walked.run_eq_told, Results.runAll_eq ts acts]
    rfl

theorem Children.walkBy_skip : {cs : List Category} → (ts : Children cs) →
    (acts : Results Walked cs) → ts.walkBy acts (cs.map fun _ => .skip) = pure ts
  | _, .nil, () => rfl
  | _, .cons t ts, (act, acts) => by
    change (do return Children.cons t (← ts.walkBy acts _)) = _
    rw [ts.walkBy_skip acts]
    rfl

theorem Form.walkParts_inside (form : Form c) (marks : Marks form.width)
    (ts : Children form.arity) (acts : Results Walked form.arity) :
    Form.walkParts form marks acts = do
      return .node form marks (← ts.walkBy acts (form.arity.map fun c => .told c.brief)) := by
  rw [Form.walkParts, Results.runAll_eq ts]

theorem StmtForm.walkParts_inside {form : StmtForm} {marks : Marks form.width}
    (ts : Children form.arity) (acts : Results Walked form.arity) (plans : List InitPlan)
    (h : Form.isDoWhile (c := .stmt) form = false) :
    StmtForm.walkParts plans form marks acts =
      Form.walkInside (c := .stmt) form marks ts acts (.inits plans) := by
  have plain := Form.walkParts_inside (c := .stmt) form marks ts acts
  cases form with
  | block | varDecl =>
    match marks, ts, acts with
    | .one _, .cons _ .nil, (_, ()) => rfl
  | doWhile => nomatch h
  | forIn | forOf | forLoop => exact congrArg Walk.inScope plain
  | switch =>
    match marks, ts, acts with
    | .two _, .cons _ (.cons _ .nil), (_, branches, ()) =>
      rw [StmtForm.walkParts, Walked.run_eq_told (c := .many .branch)]
      rfl
  | trying =>
    match marks, ts, acts with
    | .two _, .cons _ (.cons _ (.cons _ .nil)), (_, handler, finalizer, ()) =>
      rw [StmtForm.walkParts, Walked.run_eq_told (c := .maybe .handler)]
      cases finalizer <;> rfl
  | _ => exact plain

theorem Walked.each_inits (acts : List (InitPlan → Walk Declarator)) (plans : List InitPlan) :
    ((acts.zip (plans ++ List.replicate (acts.length - plans.length) .keep)).mapM
      fun (act, plan) => act plan) =
        Walked.each (c := .declarator) Walked.told (.eachInit plans) acts := by
  induction acts generalizing plans with
  | nil => rfl
  | cons act acts ih =>
    cases plans with
    | nil =>
      have := ih []
      simp only [nil_append, length_nil, Nat.sub_zero, length_cons, replicate_succ, zip_cons_cons,
        mapM_cons] at this ⊢
      rw [this]
      rfl
    | cons plan plans =>
      simp only [cons_append, length_cons, Nat.add_sub_add_right, zip_cons_cons, mapM_cons]
      rw [ih plans]
      rfl

/-- Works out the checks of a function, walks it and adds them. -/
def walkFunc (role : Role) (f : Func) (act : Walk Func) : Walk Func := do
  let r ← planFuncOnce role f
  Walk.report r
  let walked ← act
  match r with
  | .ok (some plan) => return plan.apply walked
  | _ => return walked

theorem Form.walk_func {form marks ts acts} (role : Role) :
    Form.walk (c := .func) form marks ts acts role = walkFunc role (.node (c := .func) form marks ts)
      (Form.walkInside (c := .func) form marks ts acts .none) := by
  match marks, ts, acts with
  | .one mark, .cons typeParams (.cons params (.cons result (.cons body .nil))),
      (u, p, v, b, ()) =>
    let f := Func.mk mark form typeParams params result body
    let inside (walk : Walk (Many .param)) : Walk Func :=
      Walk.inScope <| Walk.withGenerics (Func.typeParamNames f) .constant do
        let params ← walk
        return Func.mk mark form typeParams params result
          (← Walked.run (c := .maybe .funcBody) b)
    have told : inside (Walked.run (c := .many .param) p) =
        Form.walkInside (c := .func) form (.one mark)
          (.cons typeParams (.cons params (.cons result (.cons body .nil)))) (u, p, v, b, ()) .none := by
      rw [Walked.run_eq_told]
      rfl
    rw [← told]
    rfl

theorem Form.walk_inert {form : Form c} {marks : Marks form.width} {ts : Children form.arity}
    {acts : Results Walked form.arity} (h : (Tree.node form marks ts).isInert = true)
    (suits : brief.suits c = true) :
    Walked.node brief (Form.walk form marks ts acts) =
      Walk.alone (form.walkInside marks ts acts brief) := by
  have plain := congrArg Walk.alone (Form.walkParts_inside form marks ts acts)
  have skipped := congrArg (fun act => Walk.alone do return Tree.node form marks (← act))
    (ts.walkBy_skip acts).symm
  cases c with
  | stmt | func | many | maybe => nomatch h
  | unit | block =>
    match marks, ts, acts with
    | .one _, .cons _ .nil, (_, ()) => rfl
  | branch =>
    match marks, ts, acts with
    | .one _, .cons _ (.cons _ .nil), (_, _, ()) => rfl
  | handler =>
    match marks, ts, acts with
    | .one _, .cons _ (.cons _ (.cons _ .nil)), (_, _, _, ()) => rfl
  | funcBody =>
    match form, marks, ts, acts, plain with
    | .block, .none, .cons _ .nil, (_, ()), _ => rfl
    | .expr, _, _, _, plain => exact plain
  | memberVal =>
    cases brief with
    | role role =>
      match form, marks, ts, acts, skipped with
      | .function _, .one _, .cons _ .nil, (_, ()), _ => rfl
      | .property, .none, .cons _ .nil, (_, ()), _ => rfl
      | .index _, _, _, _, skipped => exact skipped
    | _ => nomatch suits
  | objMember =>
    match form, marks, ts, acts, plain with
    | .valued, .one _, .cons _ (.cons _ .nil), (_, _, ()), _ => rfl
    | .shorthand _, _, _, _, plain => exact plain
    | .spread, _, _, _, plain => exact plain
  | classMember =>
    cases brief with
    | member =>
      match marks, ts, acts with
      | .one _, .cons _ (.cons _ (.cons _ (.cons _ .nil))), (_, _, _, _, ()) => rfl
    | _ => nomatch suits
  | classDecl =>
    match marks, ts, acts with
    | .one _, .cons _ (.cons _ (.cons typeParams (.cons _ (.cons _ (.cons _ (.cons _ .nil)))))),
        (_, _, _, base, _, _, members, ()) =>
      exact congrArg (fun walk => Walk.alone do
        let base ← Walked.run (c := .maybe .expr) base
        return ClassDecl.mk _ _ _ _ _ base _ _ (.ofList (← walk)))
        (Walked.each_eq_mapM (c := .classMember) (.member _ _) rfl rfl members).symm
  | declarator =>
    cases brief with
    | init plan =>
      match marks, ts, acts with
      | .one _, .cons _ (.cons _ (.cons _ .nil)), (_, _, _, ()) => cases plan <;> rfl
    | _ => nomatch suits
  | varDecl =>
    cases brief with
    | inits plans =>
      match marks, ts, acts with
      | .one _, .cons _ .nil, (acts, ()) =>
        exact congrArg (fun walk => Walk.alone do return VarDecl.mk _ _ (.ofList (← walk)))
          (Walked.each_inits acts plans)
    | _ => nomatch suits
  | forInit =>
    match form, marks, ts, acts, plain with
    | .decl, .none, .cons _ .nil, _, _ => nomatch h
    | .expr, _, _, _, plain => exact plain
    | .absent, _, _, _, plain => exact plain
  | expr | pat | param | arg | arrayElem | memberKey | arrayPatElem | objPatProp | binding
  | forTarget | funcDecl => exact plain
  | _ => exact skipped

end Equations

/-! ### Steps that follow the rules -/

/-- Steps that do a task. -/
def Performs (k : Task) (act : Walk k.Out) : Prop :=
  ∀ p w, ∃ vs, Walks p k w (act.run w).1 (act.run w).2 vs

/-- Whether the results of the fold at a tree are steps that walk it. -/
def Sound : (c : Category) → Tree c → Walked c → Prop
  | .many c, t, acts => Forall₂ (Sound c) t.toList acts
  | .maybe c, t, act => Option.Rel (Sound c) t.toOption act
  | c, t, act => ∀ brief, brief.suits c = true → Performs (.node t brief) (Walked.node brief act)

/-- Whether the results at each part are steps that walk it. -/
def SoundAll : {cs : List Category} → Children cs → Results Walked cs → Prop
  | _, .nil, () => True
  | _, .cons t ts, (act, acts) => Sound _ t act ∧ SoundAll ts acts

variable {c : Category} {t : Tree c} {act : Walked c} {ts : List (Tree c)} {brief : Brief}
  {cs : List Category} {acts : List (Walk (Stmt × List Stmt))} {stmts : Many .stmt}

theorem Sound.each {acts : List (Walked c)} (h : Forall₂ (Sound c) ts acts)
    (hc : ∀ {t act}, Sound c t act → ∀ brief, brief.suits c = true →
      Performs (.child (.told brief) t) (Walked.told brief act)) (suits : brief.head.suits c = true) :
    Performs (.each brief ts) (Walked.each Walked.told brief acts) := by
  induction h generalizing brief with
  | nil => exact fun _ _ => ⟨[], .eachNil⟩
  | @cons t act ts acts h _ ih =>
    intro p w
    obtain ⟨vs, head⟩ := hc h _ suits p w
    obtain ⟨us, tail⟩ := ih (Brief.suits_tail suits) (t.after p)
      ((Walked.told brief.head act).run w).2
    exact ⟨vs ++ us, .eachCons head tail⟩

theorem Sound.told (h : Sound c t act) (brief : Brief) (suits : brief.suits c = true) :
    Performs (.child (.told brief) t) (Walked.told brief act) := by
  induction c generalizing brief with
  | many c ih => exact fun p w => (Sound.each h ih suits p w).imp fun _ h => .toldMany h
  | maybe c ih =>
    rw [← Tree.ofOption_toOption t]
    revert h
    unfold Sound
    generalize t.toOption = u
    rintro (h | _)
    · exact fun p w => (ih h brief suits p w).imp fun _ h => .toldPresent h
    · exact fun p w => ⟨[], .toldAbsent⟩
  | _ => exact fun p w => (h brief suits p w).imp fun _ h => .told h

/-- The statements of a list, walked one after another. -/
def walkGroups (walks : List (Walk (Stmt × List Stmt))) : Walk (List Stmt) := do
  let groups ← walks.mapM fun w => do
    let (stmt, followers) ← w
    return stmt :: followers
  return groups.flatten

theorem walkGroups_sound {rest : List Stmt} (h : Forall₂ (Sound .stmt) rest acts) :
    Performs (.stmts rest) (walkGroups acts) := by
  induction h with
  | nil => exact fun _ _ => ⟨[], .stmtsNil⟩
  | @cons s walk rest walks hs _ ih =>
    intro p w
    obtain ⟨vs, hs⟩ := hs .none rfl p w
    obtain ⟨us, ih⟩ := ih (s.after p) (StateT.run walk w).2
    have : walkGroups (walk :: walks) = do
        let (stmt, followers) ← walk
        return stmt :: followers ++ (← walkGroups walks) := by
      simp [walkGroups, mapM_cons]
    rw [this]
    exact ⟨vs ++ us, .stmtsCons hs ih⟩

theorem run_walkList (stmts : List Stmt) (walks : List (Walk (Stmt × List Stmt))) (w : Walker) :
    (walkList stmts walks).run w =
      (walkGroups walks).run (w.declareAll (stmts.flatMap Stmt.hoisted)) := by
  change (((stmts.flatMap Stmt.hoisted).forM fun name => Walk.change (·.declare name)) >>=
    fun _ => walkGroups walks).run w = _
  rw [StateT.run_bind, Walk.run_declareAll]
  rfl

theorem Sound.mode (h : Sound c t act) {mode : Mode} (suits : mode.suits c = true) :
    Performs (.child mode t) (mode.walk t act) := by
  induction mode with
  | skip => exact fun _ _ => ⟨[], .skip⟩
  | told brief => exact h.told brief suits
  | list =>
    match c, t, act, h with
    | .many .stmt, stmts, acts, h =>
      intro p w
      obtain ⟨vs, h⟩ := walkGroups_sound h (p.entering stmts.toList)
        ((w.map (·.pushFrame stmts.toList)).declareAll (stmts.toList.flatMap Stmt.hoisted))
      rw [← run_walkList] at h
      exact ⟨vs, .list h⟩
  | top =>
    match c, t, act, h with
    | .many .stmt, stmts, acts, h =>
      intro p w
      obtain ⟨vs, h⟩ := walkGroups_sound h (p.opening stmts.toList)
        (w.declareAll (stmts.toList.flatMap Stmt.hoisted))
      rw [← run_walkList] at h
      exact ⟨vs, .top h⟩
  | inScope mode ih =>
    rw [Mode.suits, Bool.and_eq_true_iff, Bool.not_eq_true'] at suits
    exact fun p w => (ih suits.2 p.inner (w.map Context.pushScope)).imp fun _ h => .inScope suits.1 h
  | generic names access mode ih =>
    intro p w
    have run := Walk.run_withGenerics names access (mode.walk t act) w
    rw [Mode.walk, run]
    exact (ih suits (p.under names access) (w.pushGenerics names access)).imp fun _ h => .generic h

theorem SoundAll.parts : {cs : List Category} → {ts : Children cs} → {acts : Results Walked cs} →
    SoundAll ts acts → {modes : List Mode} → Mode.suitAll cs modes = true →
    Performs (.parts modes ts) (ts.walkBy acts modes)
  | _, .nil, (), _, [], _ => fun _ _ => ⟨[], .partsNil⟩
  | _, .cons t ts, (act, acts), h, mode :: modes, suits => by
    obtain ⟨first, rest⟩ := Bool.and_eq_true_iff.1 suits
    intro p w
    obtain ⟨vs, head⟩ := h.1.mode first p w
    obtain ⟨us, tail⟩ := h.2.parts rest (mode.after t p) ((mode.walk t act).run w).2
    exact ⟨vs ++ us, .partsCons head tail⟩

theorem Form.run_walkInside (form : Form c) (marks : Marks form.width) (ts : Children form.arity)
    (acts : Results Walked form.arity) (w : Walker) :
    let t := Tree.node form marks ts
    let walked := (ts.walkBy acts (form.modes marks ts brief)).run (t.enter w)
    (form.walkInside marks ts acts brief).run w = (.node form marks walked.1, t.leave walked.2) := by
  cases opens : form.opensScope <;>
    simp only [Form.walkInside, Tree.enter, Tree.leave, Tree.form, opens, Walk.inScope,
      Bool.false_eq_true, ↓reduceIte, StateT.run_bind, Walk.run_withGenerics] <;> rfl

theorem SoundAll.inside {form : Form c} {marks : Marks form.width} {ts : Children form.arity}
    {acts : Results Walked form.arity} (h : SoundAll ts acts) (hd : form.isDoWhile = false)
    (suits : brief.suitsInside form = true) :
    Performs (.inner (.node form marks ts) brief) (form.walkInside marks ts acts brief) := by
  intro p w
  rw [Form.run_walkInside]
  exact (h.parts (form.modes_suit marks ts suits) _ _).imp fun _ parts => .inner hd parts

theorem SoundAll.toList {n ts} {acts : Results Walked (List.replicate n c)} (h : SoundAll ts acts) :
    Forall₂ (Sound c) ts.toList (Results.toList acts) := by
  induction n with
  | zero => exact .nil
  | succ n ih =>
    match ts, acts, h with
    | .cons _ _, (_, _), h => exact .cons h.1 (ih h.2)

theorem walkFunc_sound {f : Func} {act : Walk Func} (role : Role)
    (h : Performs (.inner f .none) act) :
    Performs (.node f (.role role)) (Walk.alone (walkFunc role f act)) := by
  intro p w
  rcases planned : (planFuncOnce role f).run w with ⟨r, w₁⟩
  obtain ⟨vs, inner⟩ := h p (w₁.report r)
  have run : (walkFunc role f act).run w =
      (applyFuncPlan r (act.run (w₁.report r)).1, (act.run (w₁.report r)).2) := by
    unfold walkFunc
    rw [StateT.run_bind, planned]
    rcases r with u | _ | plan <;> rfl
  refine ⟨funcVisits p w role f ++ vs, ?_⟩
  change Walks p (.node f (.role role)) w (((walkFunc role f act).run w).1, [])
    ((walkFunc role f act).run w).2 _
  rw [run]
  exact .func planned inner

theorem StmtForm.walkParts_sound {form : StmtForm} {marks : Marks form.width} {ts}
    {acts : Results Walked form.arity} (h : SoundAll ts acts) (plans : List InitPlan) :
    Performs (.inner (.node (c := .stmt) form marks ts) (.inits plans))
      (StmtForm.walkParts plans form marks acts) := by
  cases form with
  | doWhile =>
    match marks, ts, acts, h with
    | .two site, .cons test (.cons body .nil), (t, b, ()), h =>
      intro p w
      obtain ⟨vs, first⟩ := h.2.1.told .none rfl p w
      obtain ⟨us, second⟩ := h.1.told .none rfl (Tree.after body p)
        (StateT.run (Walked.run (c := .stmt) b) w).2
      exact ⟨vs ++ us, .doWhile first second⟩
  | _ =>
    rw [StmtForm.walkParts_inside ts acts plans rfl]
    exact h.inside rfl rfl

theorem Form.walk_sound {form marks ts acts} (h : SoundAll ts acts) :
    Sound c (.node form marks ts) (Form.walk form marks ts acts) := by
  have inert (hi : (Tree.node form marks ts).isInert = true) (hd : form.isDoWhile = false) brief
      (suits : brief.suits c = true) (inside : brief.suitsInside form = true) :
      Performs (.node (.node form marks ts) brief)
        (Walked.node brief (Form.walk form marks ts acts)) := by
    rw [Form.walk_inert hi suits]
    exact fun p w => (h.inside hd inside p w).imp fun _ h => .inert hi h
  cases c with
  | stmt =>
    intro brief suits p s
    let planned := (planStmtOnce (.node (c := .stmt) form marks ts)).run s
    obtain ⟨vs, inner⟩ := @StmtForm.walkParts_sound form marks ts acts h
      planned.1.1.initPlans (p.passing (.node (c := .stmt) form marks ts)) planned.2
    cases brief with
    | none => exact ⟨_, .stmt rfl inner⟩
    | _ => nomatch suits
  | func =>
    intro brief suits
    cases brief with
    | role role =>
      change Performs (.node _ (.role role)) (Walk.alone (Form.walk (c := .func) form marks ts acts role))
      rw [Form.walk_func]
      exact walkFunc_sound role (h.inside rfl rfl)
    | _ => nomatch suits
  | forInit =>
    cases form with
    | decl =>
      match marks, ts, acts, h with
      | .none, .cons decl .nil, (w, ()), h =>
        intro brief suits p s
        cases brief with
        | none =>
          let plans := ((planVarOnce decl).run s).1
          have inner : Performs (.inner (ForInit.decl decl) (.inits plans)) _ := h.inside rfl rfl
          obtain ⟨vs, inner⟩ := inner ((ForInit.decl decl).after p) ((planVarOnce decl).run s).2
          exact ⟨_, .header rfl inner⟩
        | _ => nomatch suits
    | _ => exact fun brief suits => inert rfl rfl brief suits rfl
  | maybe c =>
    match form, marks, ts, acts, h with
    | false, .none, .nil, (), _ => exact .none
    | true, .none, .cons t .nil, (w, ()), h => exact .some h.1
  | many c => exact h.toList
  | _ => exact fun brief suits => inert rfl rfl brief suits suits

mutual

theorem Tree.walk_sound : {c : Category} → (t : Tree c) → Sound c t (t.fold Form.walk)
  | _, .node _ _ ts => Form.walk_sound ts.walk_sound

theorem Children.walk_sound : {cs : List Category} → (ts : Children cs) →
    SoundAll ts (ts.fold Form.walk)
  | _, .nil => trivial
  | _, .cons t ts => ⟨t.walk_sound, ts.walk_sound⟩

end

/-- **The walk of a unit** follows the rules. -/
theorem SourceUnit.walks (unit : SourceUnit) (w : Walker) :
    ∃ vs, Walks (.start unit) (.node unit .none) w (((SourceUnit.walk unit).run w).1, [])
      ((SourceUnit.walk unit).run w).2 vs :=
  unit.walk_sound .none rfl (.start unit) w

end Reify
