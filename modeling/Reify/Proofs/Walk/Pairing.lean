import Reify.Proofs.Check.Pairing
import Reify.Proofs.Walk.Erasure

/-!
# Walks side by side

The walks over a unit and over a renumbered copy of it, with options that differ in what they say
about null alone, go side by side (`Tree.walk_pairs`): every form passes this on from its parts.  So
both fail alike, and what comes out of them is related (`instrument_pairs`).
-/

namespace Reify

open List Tree

open Walk (Pairs)

variable (S : Sides) (n : Nat)

/-! ### Results of the fold -/

/-- Both initializers are dropped, or neither. -/
def InitPlan.SameFate (p q : InitPlan) : Prop := p = .drop ↔ q = .drop

/-- Walked trees that are related, with related statements that follow them. -/
def GroupTwin (c : Category) (x y : Tree c × List Stmt) : Prop :=
  Twin S c x.1 y.1 ∧ Forall₂ (Twin S .stmt) x.2 y.2

/-- Whether the steps that walk a tree and its copy give related trees. -/
def Walked.Pairs : (c : Category) → Walked c → Walked c → Prop
  | .many c, acts, acts' => Forall₂ (Pairs c) acts acts'
  | .maybe c, act, act' => Option.Rel (Pairs c) act act'
  | .declarator, act, act' => ∀ plan plan', InitPlan.SameFate plan plan' →
    Walk.Pairs S n (GroupTwin S _) (act plan).alone (act' plan').alone
  | .varDecl, act, act' => ∀ plans plans', Forall₂ InitPlan.SameFate plans plans' →
    Walk.Pairs S n (GroupTwin S _) (act plans).alone (act' plans').alone
  | c, act, act' => ∀ brief, brief.suits c = true →
    Walk.Pairs S n (GroupTwin S c) (Walked.node brief act) (Walked.node brief act')

/-- The same for each of several trees. -/
def Results.Pairs : {cs : List Category} → Results Walked cs → Results Walked cs → Prop
  | [], (), () => True
  | _ :: _, (act, acts), (act', acts') => Walked.Pairs S n _ act act' ∧ Results.Pairs acts acts'

variable {S n}

theorem Stmt.twin_withFollowers {s s' : Stmt} {fs fs' : List Stmt} (hs : Twin S .stmt s s')
    (hf : Forall₂ (Twin S .stmt) fs fs') :
    Twin S .stmt (Stmt.withFollowers s fs) (Stmt.withFollowers s' fs') := by
  have place : s'.mark.loc = s.mark.loc := by
    cases hs with
    | @node _ form marks ts ts' _ =>
      have mark := mark_renumber (f := S.map) S.zero (.node (c := .stmt) form marks ts)
      rw [renumber_node] at mark
      exact (congrArg Mark.loc mark).trans (Mark.renumber_loc _ _)
  cases hf with
  | nil => exact hs
  | cons head tail =>
    change Twin S .stmt (Stmt.block _ (Block.mk _ _)) (Stmt.block _ (Block.mk _ _))
    rw [place]
    exact S.congruent.node (.mark rfl) (.cons (S.congruent.node (.mark rfl)
      (.cons (S.congruent.many (.cons hs (.cons head tail))) .nil)) .nil)

variable {c : Category}

theorem Walk.Pairs.followed {act act' : Walk (Tree c × List Stmt)}
    (h : Walk.Pairs S n (GroupTwin S c) act act') :
    Walk.Pairs S n (Twin S c) (do let (t, fs) ← act; return t.followedBy fs)
      (do let (t, fs) ← act'; return t.followedBy fs) := by
  refine h.bind fun (_, _) (_, _) ⟨t, fs⟩ => .pure ?_
  cases c with
  | stmt => exact Stmt.twin_withFollowers t fs
  | _ => exact t

theorem Walk.Pairs.alone {act act' : Walk (Tree c)} (h : Walk.Pairs S n (Twin S c) act act') :
    Walk.Pairs S n (GroupTwin S c) act.alone act'.alone := by
  change Walk.Pairs S n _ (do return (← act, [])) (do return (← act', []))
  exact h.bind fun _ _ t => .pure ⟨t, .nil⟩

variable {act act' : Walked c} {brief : Brief}

theorem Walked.Pairs.each {acts acts' : List (Walked c)} (h : Forall₂ (Walked.Pairs S n c) acts acts')
    (hc : ∀ {act act'}, Walked.Pairs S n c act act' → ∀ brief, brief.suits c = true →
      Walk.Pairs S n (Twin S c) (Walked.told brief act) (Walked.told brief act'))
    (suits : brief.head.suits c = true) :
    Walk.Pairs S n (Forall₂ (Twin S c)) (Walked.each Walked.told brief acts)
      (Walked.each Walked.told brief acts') := by
  induction h generalizing brief with
  | nil => exact .pure .nil
  | cons h _ ih =>
    exact (hc h _ suits).bind fun _ _ t => (ih (Brief.suits_tail suits)).bind fun _ _ ts =>
      .pure (.cons t ts)

theorem Walked.Pairs.inits {acts acts'} (h : Forall₂ (Walked.Pairs S n .declarator) acts acts')
    {plans plans'} (related : Forall₂ InitPlan.SameFate plans plans') :
    Walk.Pairs S n (Forall₂ (Twin S .declarator))
      (Walked.each (c := .declarator) Walked.told (.eachInit plans) acts)
      (Walked.each (c := .declarator) Walked.told (.eachInit plans') acts') := by
  induction h generalizing plans plans' with
  | nil => exact .pure .nil
  | cons h _ ih =>
    cases related with
    | nil =>
      exact (h .keep .keep .rfl).followed.bind fun _ _ d => (ih .nil).bind fun _ _ ds => .pure (.cons d ds)
    | cons fate rest =>
      exact (h _ _ fate).followed.bind fun _ _ d => (ih rest).bind fun _ _ ds => .pure (.cons d ds)

theorem Walked.Pairs.told (h : Walked.Pairs S n c act act') (brief : Brief)
    (suits : brief.suits c = true) :
    Walk.Pairs S n (Twin S c) (Walked.told brief act) (Walked.told brief act') := by
  induction c generalizing brief with
  | many c ih => exact (Walked.Pairs.each h ih suits).bind fun _ _ ts => .pure (S.congruent.many ts)
  | maybe c ih =>
    cases h with
    | none => exact .pure S.congruent.absent
    | @some act act' h =>
      change Walk.Pairs S n _ (do return Tree.present (← Walked.told brief act))
        (do return Tree.present (← Walked.told brief act'))
      exact (ih h brief suits).bind fun _ _ t => .pure (S.congruent.present t)
  | declarator =>
    cases brief with
    | init plan => exact (h plan plan .rfl).followed
    | _ => nomatch suits
  | varDecl =>
    cases brief with
    | inits plans => exact (h plans plans (forall₂_same.2 fun _ _ => .rfl)).followed
    | _ => nomatch suits
  | _ => exact (h _ suits).followed

/-! ### Statement lists -/

theorem ImportDecl.bindings_renumber (f : Nat → Nat) : (decl : ImportDecl) →
    ImportDecl.bindings (decl.renumber f) = ImportDecl.bindings decl
  | ImportDecl.mk mark form default names => by
    have first : (default.renumber f).toOption.bind Binding.ident? =
        default.toOption.bind Binding.ident? := by
      rw [toOption_renumber]
      cases default.toOption with
      | none => rfl
      | some b => exact Binding.ident?_renumber b
    change ImportDecl.bindings (ImportDecl.mk (mark.renumber f) form (default.renumber f)
      (names.renumber f)) = _
    rw [ImportDecl.bindings, ImportDecl.bindings, first, toOption_renumber]
    refine congrArg (_ ++ ·) ?_
    match names.toOption with
    | none => rfl
    | some (ImportNames.all b) => exact congrArg Option.toList (Binding.ident?_renumber b)
    | some (ImportNames.specific ns) =>
      change (ns.renumber f).toList.filterMap _ = ns.toList.filterMap _
      rw [toList_renumber, filterMap_map]
      refine filterMap_congr fun name _ => ?_
      match name with
      | ImportName.mk _ _ b => exact Binding.ident?_renumber b

theorem Stmt.hoisted_renumber (f : Nat → Nat) (s : Stmt) :
    Stmt.hoisted (s.renumber f) = Stmt.hoisted s := by
  match s with
  | .node (c := .stmt) form marks ts =>
    cases form with
    | importing =>
      match marks, ts with
      | .one _, .cons decl .nil => exact ImportDecl.bindings_renumber f decl
    | funcDecl =>
      match marks, ts with
      | .one _, .cons (FuncDecl.mk _ _ name _) .nil =>
        change (name.renumber f).toOption.toList.map Name.text = name.toOption.toList.map Name.text
        rw [toOption_renumber]
        cases name.toOption with
        | none => rfl
        | some name => exact congrArg ([·]) (Name.text_renumber name)
    | _ => rfl

variable {walks walks' : List (Walk (Stmt × List Stmt))}

theorem walkList_pairs (stmts : List Stmt) (h : Forall₂ (Walked.Pairs S n .stmt) walks walks') :
    Pairs S n (Forall₂ (Twin S .stmt)) (walkList stmts walks)
      (walkList (stmts.map (Tree.renumber S.map)) walks') := by
  have names : (stmts.map (Tree.renumber S.map)).flatMap Stmt.hoisted =
      stmts.flatMap Stmt.hoisted := by
    rw [flatMap_map]
    exact congrArg (stmts.flatMap ·) (funext (Stmt.hoisted_renumber S.map))
  rw [walkList, walkList, names]
  refine .bind (.forM fun name => .declare name) fun _ _ _ => ?_
  refine Pairs.bind (A := Forall₂ (Forall₂ (Twin S .stmt))) (.mapM
    (h.imp fun walk walk' h => ?_)) fun _ _ groups => .pure (rel_flatten groups)
  exact (h .none rfl).bind fun (_, _) (_, _) ⟨s, fs⟩ => .pure (.cons s fs)

/-! ### Modes -/

theorem Walked.Pairs.mode {t : Tree c} (h : Walked.Pairs S n c act act') {mode : Mode}
    (suits : mode.suits c = true) :
    Walk.Pairs S n (Twin S c) (mode.walk t act) (mode.walk (t.renumber S.map) act') := by
  induction mode with
  | skip => exact .pure (.image t)
  | told brief => exact h.told brief suits
  | list =>
    match c, t, act, act', h with
    | .many .stmt, stmts, acts, acts', h =>
      change Walk.Pairs S n _ (walkInner stmts acts) (walkInner (stmts.renumber S.map) acts')
      rw [walkInner, walkInner, toList_renumber]
      refine .framed (.bind (walkList_pairs stmts.toList h) fun _ _ ss => ?_) stmts.toList
      exact .pure (S.congruent.many ss)
  | top =>
    match c, t, act, act', h with
    | .many .stmt, stmts, acts, acts', h =>
      have list := walkList_pairs stmts.toList h
      rw [← toList_renumber] at list
      exact list.bind fun _ _ ss => .pure (S.congruent.many ss)
  | inScope mode ih => exact (ih (Bool.and_eq_true_iff.1 suits).2).inScope
  | generic names access mode ih => exact (ih suits).withGenerics names access

theorem Results.Pairs.walkBy : {cs : List Category} → (ts : Children cs) →
    {acts acts' : Results Walked cs} → Results.Pairs S n acts acts' → {modes : List Mode} →
    Mode.suitAll cs modes = true → Walk.Pairs S n (Twinned S (.parts cs)) (ts.walkBy acts modes)
      ((ts.renumber S.map).walkBy acts' modes)
  | _, .nil, (), (), _, [], _ => by
    rw [Children.renumber_nil]
    exact .pure .nil
  | _, .cons t ts, (act, acts), (act', acts'), h, mode :: modes, suits => by
    obtain ⟨first, rest⟩ := Bool.and_eq_true_iff.1 suits
    rw [Children.renumber_cons]
    exact (h.1.mode first).bind fun _ _ t => (h.2.walkBy ts rest).bind fun _ _ ts =>
      .pure (.cons t ts)

theorem Form.modes_renumber (form : Form c) (marks : Marks form.width) (ts : Children form.arity)
    (brief : Brief) (f : Nat → Nat) :
    form.modes (marks.renumber f) (ts.renumber f) brief = form.modes marks ts brief := by
  cases c with
  | stmt | funcBody | forInit | memberVal => cases form <;> rfl
  | varDecl => cases brief <;> rfl
  | declarator =>
    cases brief with
    | init plan => cases plan <;> rfl
    | _ => rfl
  | objMember =>
    cases form with
    | valued =>
      match ts with
      | .cons _ (.cons val .nil) =>
        exact congrArg (fun role => [Mode.told .none, .told (.role role)])
          (MemberVal.role_renumber f val)
    | _ => rfl
  | classMember =>
    match marks, ts with
    | .one mark, .cons decorators (.cons key (.cons type (.cons val .nil))) =>
      let member := ClassMember.mk mark form decorators key type val
      cases brief with
      | member className names =>
        exact congrArg₂ (fun role access => [Mode.skip, .told .none, .skip,
          .generic names access (.told (.role role))]) (ClassMember.role_renumber f member)
            (ClassMember.access_renumber f className member)
      | _ => rfl
  | classDecl =>
    match marks, ts with
    | .one mark, .cons decorators (.cons name (.cons typeParams (.cons base (.cons baseArgs
        (.cons implemented (.cons members .nil)))))) =>
      have names : (typeParams.renumber f).toLists.map TypeParam.name =
          typeParams.toLists.map TypeParam.name := by
        rw [toLists_renumber, TypeParam.names_renumber]
      exact congrArg₂ (fun className names => [Mode.skip, .skip, .skip, .told .none, .skip, .skip,
        .told (.member className names)]) (ClassDecl.name?_renumber (ClassDecl.mk mark form
          decorators name typeParams base baseArgs implemented members)) names
  | _ => rfl

/-! ### Forms -/

theorem Tree.generics_renumber (t : Tree c) (f : Nat → Nat) :
    (t.renumber f).generics = t.generics := by
  cases c with
  | func => exact Func.typeParamNames_renumber t
  | _ => rfl

section

variable {form : Form c} (marks : Marks form.width) (ts : Children form.arity)
  {acts acts' : Results Walked form.arity} (h : Results.Pairs S n acts acts')

include h

theorem Form.walkInside_pairs (brief : Brief) (suits : brief.suitsInside form = true) :
    Walk.Pairs S n (Twin S c) (form.walkInside marks ts acts brief)
      (form.walkInside (marks.renumber S.map) (ts.renumber S.map) acts' brief) := by
  have parts := h.walkBy ts (form.modes_suit marks ts suits)
  have generics := (Tree.node form marks ts).generics_renumber S.map
  rw [renumber_node] at generics
  have inside : Walk.Pairs S n (Twin S c) (do return .node form marks (← ts.walkBy acts _))
      (do return .node form (marks.renumber S.map) (← (ts.renumber S.map).walkBy acts' _)) :=
    parts.bind fun _ _ ts => .pure (.node ts)
  have inside := inside.withGenerics (Tree.node form marks ts).generics .constant
  unfold Form.walkInside
  rw [generics, form.modes_renumber]
  cases form.opensScope with
  | false => exact inside
  | true => exact inside.inScope

variable {marks ts} in
theorem Form.walk_inert_pairs (left : (Tree.node form marks ts).isInert = true)
    (right : (Tree.node form (marks.renumber S.map) (ts.renumber S.map)).isInert = true)
    (suits : brief.suits c = true) (inside : brief.suitsInside form = true) :
    Walk.Pairs S n (GroupTwin S c) (Walked.node brief (Form.walk form marks ts acts))
      (Walked.node brief (Form.walk form (marks.renumber S.map) (ts.renumber S.map) acts')) := by
  rw [Form.walk_inert left suits, Form.walk_inert right suits]
  exact (Form.walkInside_pairs marks ts h brief inside).alone

end

theorem StmtForm.walkParts_pairs {form : StmtForm} {marks : Marks form.width}
    {acts acts' : Results Walked form.arity} (ts : Children form.arity)
    (h : Results.Pairs S n acts acts')
    {plans plans'} (hp : Forall₂ InitPlan.SameFate plans plans') :
    Walk.Pairs S n (Twin S .stmt) (StmtForm.walkParts plans form marks acts)
      (StmtForm.walkParts plans' form (marks.renumber S.map) acts') := by
  have inside := Form.walkInside_pairs (c := .stmt) marks ts h (.inits plans)
  cases form with
  | doWhile =>
    match marks, acts, acts', h with
    | .two site, (test, body, ()), (test', body', ()), h =>
      exact (h.2.1.told .none rfl).bind fun _ _ body =>
        (h.1.told .none rfl).bind fun _ _ test => .pure (.node (.cons test (.cons body .nil)))
  | varDecl =>
    match marks, acts, acts', h with
    | .one mark, (act, ()), (act', ()), h =>
      exact (h.1 plans plans' hp).followed.bind fun _ _ decl => .pure (.node (.cons decl .nil))
  | _ =>
    rw [StmtForm.walkParts_inside ts acts plans rfl,
      StmtForm.walkParts_inside (ts.renumber S.map) acts' plans' rfl]
    exact inside rfl

theorem Results.Pairs.toList {k} {acts acts' : Results Walked (List.replicate k c)}
    (h : Results.Pairs S n acts acts') :
    Forall₂ (Walked.Pairs S n c) (Results.toList acts) (Results.toList acts') := by
  induction k with
  | zero => exact .nil
  | succ k ih =>
    match acts, acts', h with
    | (_, _), (_, _), h => exact .cons h.1 (ih h.2)

theorem walkFunc_pairs {act act' : Walk Func} (role : Role) (f : Func)
    (h : Walk.Pairs S n (Twin S .func) act act') :
    Walk.Pairs S n (Twin S .func) (walkFunc role f act) (walkFunc role (f.renumber S.map) act') := by
  refine (planFuncOnce_pairs role f).bind fun r r' agree =>
    (Walk.Pairs.report agree).bind fun _ _ _ => h.bind fun _ _ func => ?_
  cases agree with
  | error _ => exact .pure func
  | ok related =>
    cases related with
    | none => exact .pure func
    | some plans => exact .pure (plans.apply func)

theorem InitPlan.Related.sameFate {p q : InitPlan} (h : p.Related S q) : p.SameFate q := by
  cases h with
  | drop => exact .rfl
  | _ => exact ⟨nofun, nofun⟩

theorem Form.walk_declarator {form marks ts acts} {plan plan' : InitPlan} (h : plan.SameFate plan') :
    Form.walk (c := .declarator) form marks ts acts plan =
      Form.walk (c := .declarator) form marks ts acts plan' := by
  match marks, ts, acts with
  | .one _, .cons _ (.cons _ (.cons _ .nil)), (_, _, _, ()) =>
    cases plan <;> cases plan' <;> first | rfl | nomatch h.1 rfl | nomatch h.2 rfl

theorem Form.walk_pairs {form marks ts acts acts'} (h : Results.Pairs S n acts acts') :
    Walked.Pairs S n c (Form.walk form marks ts acts)
      (Form.walk form (marks.renumber S.map) (ts.renumber S.map) acts') := by
  have inert := @Form.walk_inert_pairs S n c
  cases c with
  | stmt =>
    have planned := planStmtOnce_pairs (S := S) (n := n) (.node (c := .stmt) form marks ts)
    rw [renumber_node] at planned
    exact fun _ _ => planned.bind fun (plan, _) (plan', _) ⟨plans, followers⟩ =>
      (StmtForm.walkParts_pairs ts h (plans.initPlans.imp fun _ _ h => h.sameFate)).bind fun _ _ s =>
        .pure ⟨plans.apply s, followers⟩
  | func =>
    intro brief suits
    cases brief with
    | role role =>
      have walked := walkFunc_pairs role (.node (c := .func) form marks ts)
        (Form.walkInside_pairs marks ts h .none rfl)
      rw [renumber_node, ← Form.walk_func, ← Form.walk_func] at walked
      exact walked.alone
    | _ => nomatch suits
  | forInit =>
    cases form with
    | decl =>
      match marks, ts, acts, acts', h with
      | .none, .cons decl .nil, (w, ()), (w', ()), h =>
        refine fun _ _ => Walk.Pairs.alone (c := .forInit) ?_
        exact (planVarOnce_pairs decl).bind fun _ _ plans =>
          (h.1 _ _ (plans.imp fun _ _ h => h.sameFate)).followed.bind fun _ _ decl =>
            .pure (.node (.cons (VarDecl.twin_applyInits plans decl) .nil))
    | _ => exact fun brief suits => inert h rfl rfl suits rfl
  | varDecl =>
    intro plans plans' related
    match marks, ts, acts, acts', h with
    | .one mark, .cons ds .nil, (ws, ()), (ws', ()), h =>
      refine Walk.Pairs.alone (c := .varDecl) ?_
      have walked := Walked.Pairs.inits h.1 related
      rw [← Walked.each_inits, ← Walked.each_inits] at walked
      exact walked.bind fun _ _ ds => .pure (.node (.cons (S.congruent.many ds) .nil))
  | declarator =>
    intro plan plan' related
    rw [Form.walk_declarator related]
    exact @inert (.init plan') _ _ _ _ _ h rfl rfl rfl rfl
  | maybe c =>
    match form, marks, ts, acts, acts', h with
    | false, .none, .nil, (), (), _ => exact .none
    | true, .none, .cons t .nil, (w, ()), (w', ()), h => exact .some h.1
  | many c => exact h.toList
  | _ => exact fun brief suits => inert h rfl rfl suits suits

mutual

/-- **The walks over a tree and its copy** go side by side. -/
theorem Tree.walk_pairs : {c : Category} → (t : Tree c) →
    Walked.Pairs S n c (t.fold Form.walk) ((t.renumber S.map).fold Form.walk)
  | _, .node form marks ts => by
    rw [renumber_node, Tree.fold, Tree.fold]
    exact Form.walk_pairs ts.walk_pairs

theorem Children.walk_pairs : {cs : List Category} → (ts : Children cs) →
    Results.Pairs S n (ts.fold Form.walk) ((ts.renumber S.map).fold Form.walk)
  | _, .nil => by
    rw [Children.renumber_nil]
    trivial
  | _, .cons t ts => by
    rw [Children.renumber_cons]
    exact ⟨t.walk_pairs, ts.walk_pairs⟩

end

/-! ### Units -/

theorem SourceUnit.twin_withImports {unit unit' : SourceUnit} (h : Twin S .unit unit unit') :
    Twin S .unit (SourceUnit.withImports S.left unit) (SourceUnit.withImports S.right unit') := by
  cases h with
  | @node _ form marks ts ts' parts =>
    match marks, parts with
    | .one mark, .cons stmts .nil =>
      have same : libraryImports S.right mark.loc = libraryImports S.left mark.loc := by
        rw [libraryImports, libraryImports, S.twins.library_eq, S.twins.libraryModule,
          S.twins.moduleAliasing]
      refine .node (.cons (S.congruent.many (rel_append ?_ stmts.toList)) .nil)
      rw [Mark.renumber_loc, same]
      exact forall₂_same.2 fun s hs => .made (isAdded_libraryImports S.left mark.loc s hs).1

theorem instrument_pairs (unit : SourceUnit) :
    Pairs S n (Twin S .unit) (instrument unit) (instrument (unit.renumber S.map)) := by
  refine Pairs.bind (unit.walk_pairs.told .none rfl) fun out out' related w w' paired => ?_
  obtain ⟨context, log, errors⟩ := w
  obtain ⟨context', log', errors'⟩ := w'
  obtain ⟨options, same, same', logs⟩ := paired
  obtain rfl : context' = S.context n context := same
  obtain rfl : errors' = errors := same'
  cases errors' with
  | nil =>
    have count : (S.context n context).mutations.length = context.mutations.length :=
      length_map _
    refine ⟨?_, options, rfl, rfl, fun alike => congrArg₂ (· ++ ·) (logs alike)
      (congrArg (fun k => [Log.Line.event _ _ [("mutations", .int (k : Nat))]]) count)⟩
    change Twin S .unit (SourceUnit.withImports context.scope.options out)
      (SourceUnit.withImports S.right out')
    rw [options]
    exact SourceUnit.twin_withImports related
  | _ => exact ⟨related, options, rfl, rfl, logs⟩

theorem Context.start_renumber (r : Renumbering) (options : Options) : (unit : SourceUnit) →
    Context.start options (unit.renumber r.map) =
      (Context.start options unit).renumber r ((unit.renumber r.map).maxId + 1)
  | SourceUnit.mk mark stmts => by
    have frame : Frame.ofStmts (stmts.renumber r.map).toList = Frame.ofStmts stmts.toList := by
      rw [toList_renumber, Frame.ofStmts_renumber]
    exact congrArg (fun top => ({
      scope := { options }
      frames := ⟨top, []⟩
      nextId := ((SourceUnit.mk mark stmts).renumber r.map).maxId + 1 } : Context)) frame

/-- The runs over a unit and its copy start side by side. -/
theorem Walker.paired_start (unit : SourceUnit) :
    Walker.Paired S ((unit.renumber S.map).maxId + 1) { context := .start S.left unit }
      { context := .start S.right (unit.renumber S.map) } := by
  refine ⟨?_, ?_, rfl, fun _ => rfl⟩
  · match unit with
    | SourceUnit.mk _ _ => rfl
  · rw [Sides.context, ← Context.start_renumber]
    match unit with
    | SourceUnit.mk _ _ => rfl

end Reify
