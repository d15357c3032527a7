import Reify.Proofs.Check.Placement
import Reify.Proofs.Walk.Writing

/-!
# Access through an object stays inside the class

While the walk is inside an instance member of a generic class, the type parameters of the class are
reached through `this`.  So every access of this kind that the walk makes stands inside such a
member (`access_within_member`).  It need not be the member's own `this`: the type parameters stay
in reach in the functions and classes inside the member (`access_in_nested_function`).
-/

namespace Reify

open List Tree

/-! ### Points and surroundings -/

/-- At the point, the type parameter is reached through an object only inside a member. -/
def Point.Covered (a : Access) (p : Point) (around : List Around) : Prop :=
  ¬ a.Reached around →
    ∀ g ∈ p.generics, g.access = .ofInstance a.className → a.param ∉ g.names

namespace Point.Covered

variable {a : Access} {p q : Point} {around around' : List Around}

theorem mono (h : p.Covered a around) (more : around <:+ around') : p.Covered a around' :=
  fun outside => h fun inside => outside (inside.mono more)

theorem congr (h : p.Covered a around) (same : q.generics = p.generics) : q.Covered a around := by
  rwa [Point.Covered, same]

theorem aligned (h : p.Covered a around) (same : p.Aligned q) : q.Covered a around :=
  h.congr same.generics

theorem scope {options s} (h : p.Covered a around) (describes : p.Describes options s) :
    s.Covered a around := by
  intro outside
  rw [Scope.Quiet, describes.generics]
  exact h outside

theorem under (h : p.Covered a around) {names access}
    (new : access = .ofInstance a.className → a.param ∈ names → a.Reached around) :
    (p.under names access).Covered a around := by
  intro outside
  change ∀ g ∈ Generics.under names access p.generics, _
  rw [Generics.under]
  split
  · exact h outside
  · exact forall_mem_cons.2 ⟨fun instance' mem => outside (new instance' mem), h outside⟩

theorem inside {c} (h : p.Covered a around) (t : Tree c) : (t.inside p).Covered a around := by
  refine under ?_ nofun
  split
  · exact h.congr rfl
  · exact h

end Point.Covered

/-- A class whose members are walked is right around them. -/
def Brief.Fits (around : List Around) : Brief → Prop
  | member className names => className.isSome = true →
      ∃ outer, around = .ofClass className names :: outer
  | _ => True

variable {brief : Brief} {known : List Expr}

theorem Brief.Fits.head {around} (h : brief.Fits around) : brief.head.Fits around := by
  cases brief with
  | member => exact h
  | _ => trivial

theorem Brief.Fits.tail {around} (h : brief.Fits around) : brief.tail.Fits around := by
  cases brief with
  | member => exact h
  | _ => trivial

theorem Category.fits_brief (c : Category) (around : List Around) : c.brief.Fits around := by
  induction c with
  | many c ih | maybe c ih => exact ih
  | classMember => exact nofun
  | _ => trivial

/-- Type parameters that the mode brings into reach through an object are those of a member
around. -/
def Mode.Fits (a : Access) (c : Category) (around : List Around) : Mode → Prop
  | told brief => brief.Fits around
  | inScope mode => mode.Fits a c around
  | generic names access mode => mode.Fits a c around ∧
      (access = .ofInstance a.className → a.param ∈ names → a.Reached (c.standing around))
  | _ => True

def Mode.FitAll (a : Access) (around : List Around) : List Mode → List Category → Prop
  | mode :: modes, c :: cs => mode.Fits a c around ∧ FitAll a around modes cs
  | _, _ => True

theorem Mode.fitAll_told {a around} (cs : List Category) :
    FitAll a around (cs.map fun c => .told c.brief) cs := by
  induction cs with
  | nil => trivial
  | cons c cs ih => exact ⟨c.fits_brief around, ih⟩

theorem Mode.fitAll_skip {a around} (cs : List Category) :
    FitAll a around (cs.map fun _ => .skip) cs := by
  induction cs with
  | nil => trivial
  | cons c cs ih => exact ⟨trivial, ih⟩

/-- The parts of a tree are walked as the surroundings say. -/
theorem Form.fitAll_modes {a c} {form : Form c} (marks : Marks form.width)
    (ts : Children form.arity) {around} (h : brief.Fits around) :
    Mode.FitAll a ((Tree.node form marks ts).around around) (form.modes marks ts brief)
      form.arity := by
  cases c with
  | stmt =>
    cases form with
    | block | switch | trying => simp [Form.modes, Mode.FitAll, Mode.Fits, Brief.Fits]
    | varDecl => exact ⟨h, trivial⟩
    | _ => exact Mode.fitAll_told _
  | func | block | handler | branch =>
    simp [Form.modes, Mode.FitAll, Mode.Fits, Brief.Fits]
  | funcBody =>
    cases form with
    | block => exact ⟨trivial, trivial⟩
    | expr => exact Mode.fitAll_told _
  | forInit =>
    cases form with
    | decl => exact ⟨h, trivial⟩
    | _ => exact Mode.fitAll_told _
  | varDecl =>
    cases brief with
    | inits => exact ⟨trivial, trivial⟩
    | _ => trivial
  | declarator =>
    cases brief with
    | init plan => cases plan <;> simp [Form.modes, Mode.FitAll, Mode.Fits, Brief.Fits]
    | _ => simp [Form.modes, Mode.FitAll, Mode.Fits, Brief.Fits]
  | classDecl =>
    obtain _ | _ := marks
    obtain _ | ⟨_, _ | ⟨_, _ | ⟨_, _ | ⟨_, _ | ⟨_, _ | ⟨_, _ | ⟨_, _ | _⟩⟩⟩⟩⟩⟩⟩ := ts
    exact ⟨trivial, trivial, trivial, trivial, trivial, trivial, fun _ => ⟨around, rfl⟩, trivial⟩
  | classMember =>
    cases brief with
    | member className names =>
      refine ⟨trivial, trivial, trivial, ⟨trivial, fun instance' mem => ?_⟩, trivial⟩
      cases className with
      | none => cases instance'
      | _ =>
        obtain ⟨outer, rfl⟩ := h rfl
        exact Access.reached_of_instance instance' mem
    | _ => trivial
  | memberVal =>
    cases form with
    | function => exact ⟨h, trivial⟩
    | property => exact ⟨trivial, trivial⟩
    | index => exact Mode.fitAll_skip _
  | objMember =>
    cases form with
    | valued =>
      obtain _ | _ := marks
      obtain _ | ⟨_, _ | ⟨_, _ | _⟩⟩ := ts
      exact ⟨trivial, trivial, trivial⟩
    | _ => exact Mode.fitAll_told _
  | unit => exact ⟨trivial, trivial⟩
  | expr | pat | param | arg | arrayElem | memberKey | arrayPatElem | objPatProp | binding
  | forTarget | funcDecl => exact Mode.fitAll_told _
  | _ => exact Mode.fitAll_skip _

/-! ### Frames along the walk -/

section

variable {P : (c : Category) → Tree c → Prop}

mutual

theorem Tree.everywhere_after [Routine P] : {c : Category} → (t : Tree c) → {p : Point} → t.Everywhere P →
    p.frame.Everywhere P → (t.after p).frame.Everywhere P
  | c, .node form marks ts, p, h, frame => by
    have inner (p : Point) (frame : p.frame.Everywhere P) : (ts.after p).frame.Everywhere P :=
      ts.everywhere_after h.parts frame
    cases c with
    | stmt =>
      have passed : (p.passing (.node (c := .stmt) form marks ts)).frame.Everywhere P :=
        frame.passing h
      change (if StmtForm.holdsSingle form then ts.after (p.passing _)
        else p.passing _).frame.Everywhere P
      split
      · exact inner _ passed
      · exact passed
    | unit =>
      match marks, ts, inner with
      | .one _, .cons stmts .nil, inner => exact inner (p.opening stmts.toList) frame
    | many | maybe => exact inner p frame
    | _ =>
      rw [frame_after _ rfl]
      exact frame

theorem Children.everywhere_after [Routine P] : {cs : List Category} → (ts : Children cs) → {p : Point} →
    ts.Everywhere P → p.frame.Everywhere P → (ts.after p).frame.Everywhere P
  | _, .nil, _, _, frame => frame
  | _, .cons t ts, p, h, frame => by
    rw [Children.everywhere_cons] at h
    exact ts.everywhere_after h.2 (t.everywhere_after h.1 frame)

end

theorem Mode.everywhere_after [Routine P] {c} {t : Tree c} (h : t.Everywhere P) (mode : Mode) {p}
    (frame : p.frame.Everywhere P) : (mode.after t p).frame.Everywhere P := by
  induction mode with
  | told => exact t.everywhere_after h frame
  | top => exact t.everywhere_after h (p := p.opening t.stmts) frame
  | generic _ _ _ ih => exact ih
  | _ => exact frame

end

/-! ### What is written stands inside members -/

namespace Task

/-- The expressions of what is walked. -/
def exprs : Task → List Expr
  | node t _ | inner t _ | child _ t => t.exprs
  | parts _ ts => ts.exprs
  | each _ ts => ts.flatMap Tree.exprs
  | stmts rest => rest.flatMap Tree.exprs

/-- Where the task is done, the type parameter is reached through an object only inside a member. -/
def Bounded (a : Access) (p : Point) (around : List Around) : Task → Prop
  | @node c _ _ | @inner c _ _ | @child c _ _ | @each c _ _ => p.Covered a (c.standing around)
  | @parts cs _ _ => ∀ c ∈ cs, p.Covered a (c.standing around)
  | stmts _ => p.Covered a around

/-- The task is told what the surroundings say. -/
def Fits (a : Access) (around : List Around) : Task → Prop
  | node _ brief | inner _ brief | each brief _ => brief.Fits around
  | @parts cs modes _ => Mode.FitAll a around modes cs
  | @child c mode _ => mode.Fits a c around
  | stmts _ => True

/-- Everything that comes out of the task is settled. -/
def Settled (a : Access) (known : List Expr) (around : List Around) : (k : Task) → k.Out → Prop
  | node _ _, (t', fs) => t'.Settled a known around ∧ ∀ f ∈ fs, f.Settled a known around
  | inner _ _, t' | child _ _, t' => t'.Settled a known around
  | parts _ _, ts' => ∀ x ∈ ts'.placed around, a.Allows known x
  | each _ _, ts' => ∀ t ∈ ts', t.Settled a known around
  | stmts _, out => ∀ s ∈ out, s.Settled a known around

/-- What has to hold before a task that stands in the given surroundings. -/
structure Stands (a : Access) (source : List Expr) (p : Point) (around : List Around) (k : Task) :
    Prop where
  written : k.exprs ⊆ source
  covered : k.Bounded a p around
  fits : k.Fits a around
  frame : p.frame.Everywhere (a.Copied (source.map Tree.detach))

end Task

section

variable {a : Access} {source : List Expr} {c : Category}

/-- What is walked holds only accesses of the source. -/
theorem Tree.harmless_of_source {t : Tree c} (h : t.exprs ⊆ source) :
    t.Harmless a (source.map Tree.detach) :=
  harmless_iff.2 fun _ he _ => mem_map_of_mem (h he)

theorem Tree.frame_inside (t : Tree c) (p : Point) : (t.inside p).frame = p.frame := by
  rw [Tree.inside]
  split <;> rfl

theorem Tree.settled_followedBy {around} {t : Tree c} {fs} (ht : t.Settled a known around)
    (hf : ∀ f ∈ fs, f.Settled a known around) : (t.followedBy fs).Settled a known around := by
  cases c with
  | stmt =>
    cases fs with
    | nil => exact ht
    | cons f fs =>
      have stmts : (Tree.ofList (t :: f :: fs)).Settled a known around :=
        settled_ofList.2 (forall_mem_cons.2 ⟨ht, hf⟩)
      have block : (Block.mk (.synthetic (Tree.mark t).loc)
          (.ofList (t :: f :: fs))).Settled a known around :=
        (settled_of_own rfl).2 (Children.allowed_cons.2 ⟨stmts, nofun⟩)
      exact (settled_of_own rfl).2 (Children.allowed_cons.2 ⟨block, nofun⟩)
  | _ => exact ht

/-- **Every access that is written stands inside a member.** -/
theorem Writes.settled {options p k out vs} (original : ∀ e ∈ source, e.mark.id ≠ 0)
    (h : Writes options p k out vs) :
    ∀ around, k.Stands a source p around → k.Settled a (source.map Tree.detach) around out := by
  induction h with
  | inert _ _ ih =>
    intro around stands
    exact ⟨ih around ⟨stands.written, stands.covered, stands.fits, stands.frame⟩, nofun⟩
  | @stmt p w _ s s' plan fs _ tracks _ _ planned root inner ih =>
    intro around stands
    have harmless := harmless_of_source (a := a) stands.written
    have frame : w.context.frame.Everywhere (a.Copied (source.map Tree.detach)) :=
      tracks.frame ▸ stands.frame
    have covered := Point.Covered.scope stands.covered tracks.scope
    have walked := ih around ⟨stands.written, stands.covered, trivial, stands.frame.passing harmless⟩
    refine ⟨?_, planned.settled_followers harmless frame covered⟩
    exact ((planned.planted root harmless frame around).reworked_apply.mono
      fun _ _ _ h => h.settled covered).settled walked
  | @func p s f f' role plan _ scope planned _ _ ih =>
    intro around stands
    have walked := ih around ⟨stands.written, stands.covered, trivial, stands.frame⟩
    refine ⟨?_, nofun⟩
    cases plan with
    | none => exact walked
    | some plan =>
      have adds := FuncPlan.planted planned (harmless_of_source (a := a) stands.written)
        (.here : s.Reaches around s around)
      exact ((adds.reworked_apply f').mono fun _ _ _ h =>
        h.settled (Point.Covered.scope stands.covered scope)).settled walked
  | entered _ _ ih =>
    intro around stands
    exact ⟨ih around ⟨stands.written, stands.covered, trivial, stands.frame⟩, nofun⟩
  | @header p s mark form ds decl decl' plans _ hd scope planned _ _ ih =>
    intro around stands
    have harmless := harmless_of_source (a := a) stands.written
    have walked := ih around ⟨stands.written, stands.covered.aligned (after_aligned _ p),
      trivial, everywhere_after _ harmless stands.frame⟩
    have declarators : ds.Harmless a (source.map Tree.detach) := by
      subst hd
      exact harmless.2.1.2.1
    have adds := forall_of_mapM (fun d hd p hp => InitPlan.planted hp
      (Tree.Everywhere.toList declarators d hd) around) planned
    have reworked : Reworked (.settled a (source.map Tree.detach)) around (.tree .forInit)
        (ForInit.decl decl') (ForInit.decl (VarDecl.applyInits plans decl')) :=
      .node rfl rfl (.partsCons ((VarDecl.reworked_applyInits adds decl').mono fun _ _ _ h =>
        h.settled (stands.covered.scope scope)) .refl)
    exact ⟨reworked.settled walked, nofun⟩
  | @inner p c _ form marks brief ts ts' _ parts ih =>
    intro around stands
    have written : ts.exprs ⊆ source := fun e he => stands.written (mem_exprs_of_parts he)
    have covered : ∀ d ∈ form.arity, ((Tree.node form marks ts).inside p).Covered a
        (d.standing ((Tree.node form marks ts).around around)) := fun d hd =>
      (Point.Covered.mono stands.covered (Form.suffix_standing marks ts hd around)).inside _
    have inside := ih _ ⟨written, covered, Form.fitAll_modes marks ts stands.fits,
      frame_inside _ p ▸ stands.frame⟩
    have root : SameRoot (Tree.node form marks ts) (Tree.node form marks ts') := .mk parts.outlined
    refine forall_mem_append.2 ⟨?_, ?_⟩
    · -- The tree itself was there before.
      cases c with
      | expr =>
        refine forall_mem_map.2 fun e he made => ?_
        obtain rfl := mem_singleton.1 he
        exact (original _ (stands.written (Expr.mem_exprs_self (Tree.node form marks ts))) made).elim
      | _ => exact nofun
    · rw [root.around_eq]
      exact inside
  | @doWhile p site test test' body body' brief _ _ _ _ ihFirst ihSecond =>
    intro around stands
    have parts : test.exprs ++ (body.exprs ++ []) ⊆ source := stands.written
    rw [append_nil, append_subset] at parts
    obtain ⟨first, second⟩ := parts
    have written := ihFirst around ⟨second, stands.covered, trivial, stands.frame⟩
    have tested := ihSecond around ⟨first, stands.covered.aligned (body.after_aligned p), trivial,
      body.everywhere_after (harmless_of_source second) stands.frame⟩
    exact (settled_of_own rfl).2 (Children.allowed_cons.2 ⟨tested,
      Children.allowed_cons.2 ⟨written, nofun⟩⟩)
  | @partsCons p mode modes c cs _ _ t t' ts ts' _ _ ihHead ihTail =>
    intro around stands
    obtain ⟨first, rest⟩ := append_subset.1 stands.written
    obtain ⟨here, after⟩ := forall_mem_cons.1 stands.covered
    refine Children.allowed_cons.2 ⟨ihHead around ⟨first, here, stands.fits.1, stands.frame⟩,
      ihTail around ⟨rest, fun d hd => (after d hd).aligned (mode.after_aligned t p), stands.fits.2,
        mode.everywhere_after (harmless_of_source first) stands.frame⟩⟩
  | skip =>
    intro around stands
    exact settled_of_marks fun e he => original e (stands.written he)
  | told _ ih =>
    intro around stands
    obtain ⟨tree, followers⟩ := ih around ⟨stands.written, stands.covered, stands.fits, stands.frame⟩
    exact settled_followedBy tree followers
  | @toldMany p c brief _ ts' t _ ih =>
    intro around stands
    refine settled_ofList.2 (ih around ⟨?_, stands.covered, stands.fits, stands.frame⟩)
    rw [Task.exprs, exprs_toList]
    exact stands.written
  | @toldPresent p c brief _ t t' _ ih =>
    intro around stands
    refine settled_present.2 (ih around ⟨?_, stands.covered, stands.fits, stands.frame⟩)
    rw [Task.exprs, ← exprs_present]
    exact stands.written
  | @list p stmts out _ _ ih =>
    intro around stands
    have written : stmts.toList.flatMap Tree.exprs ⊆ source := by
      rw [exprs_toList]
      exact stands.written
    refine settled_ofList.2 (ih around ⟨written, stands.covered.congr rfl, trivial, ?_⟩)
    exact Frame.everywhere_ofStmts fun s hs => harmless_of_source fun e he =>
      written (mem_flatMap.2 ⟨s, hs, he⟩)
  | @top p stmts out _ _ ih =>
    intro around stands
    refine settled_ofList.2 (ih around ⟨?_, stands.covered.congr rfl, trivial, stands.frame⟩)
    rw [Task.exprs, exprs_toList]
    exact stands.written
  | inScope _ ih =>
    intro around stands
    exact ih around ⟨stands.written, stands.covered.congr rfl, stands.fits, stands.frame⟩
  | generic _ ih =>
    intro around stands
    exact ih around ⟨stands.written, stands.covered.under stands.fits.2, stands.fits.1, stands.frame⟩
  | @eachCons p c brief _ _ ts ts' t t' _ _ ihHead ihTail =>
    intro around stands
    obtain ⟨first, rest⟩ := append_subset.1 stands.written
    exact forall_mem_cons.2 ⟨ihHead around ⟨first, stands.covered, stands.fits.head,
      stands.frame⟩, ihTail around ⟨rest, stands.covered.aligned (t.after_aligned p),
        stands.fits.tail, t.everywhere_after (harmless_of_source first) stands.frame⟩⟩
  | @stmtsCons p s s' fs rest out _ _ _ _ ihHead ihTail =>
    intro around stands
    obtain ⟨first, rest⟩ := append_subset.1 stands.written
    obtain ⟨stmt, followers⟩ := ihHead around ⟨first, stands.covered, trivial, stands.frame⟩
    exact forall_mem_cons.2 ⟨stmt, forall_mem_append.2 ⟨followers, ihTail around
      ⟨rest, stands.covered.aligned (s.after_aligned p), trivial,
        s.everywhere_after (harmless_of_source first) stands.frame⟩⟩⟩
  | _ => exact fun _ _ => nofun

end

/-! ### Units -/

mutual

theorem Tree.mark_mem_marks : {c : Category} → (t : Tree c) → {e : Expr} → e ∈ t.exprs →
    e.mark ∈ t.marks
  | c, .node form marks ts, e, h => by
    rw [Tree.marks]
    rcases mem_append.1 h with own | inner
    · cases c with
      | expr =>
        obtain rfl := mem_singleton.1 own
        exact mem_append_left _ (marks.first_mem Nat.zero_lt_two)
      | _ => cases own
    · exact mem_append_right _ (ts.mark_mem_marks inner)

theorem Children.mark_mem_marks : {cs : List Category} → (ts : Children cs) → {e : Expr} →
    e ∈ ts.exprs → e.mark ∈ ts.marks
  | _, .cons t ts, e, h => by
    rw [Children.marks, mem_append]
    exact (mem_append.1 h).imp t.mark_mem_marks ts.mark_mem_marks

end

theorem harmless_importStmt {a loc name source} :
    (Synthetic.importStmt loc name source).Harmless a known :=
  harmless_iff.2 (by cases name <;> exact nofun)

theorem harmless_libraryImports {a} (options : Options) (loc : Loc) :
    ∀ s ∈ libraryImports options loc, s.Harmless a known := by
  rw [libraryImports]
  split <;> simp [harmless_importStmt]

/-- **Type parameters are reached through an object inside the members of their class only.**  Take
an expression `this[C[lib.TypeParametersSymbol]].T` that instrumenting a unit has made and that is
no copy of an expression of the unit.  It stands inside a member of a class `C` with a type
parameter `T`, in a member that is neither static nor the constructor, and not in its key. -/
theorem access_within_member (options : Options) (unit : SourceUnit) {out : SourceUnit} {w : Walker}
    (original : unit.Original) (distinct : (unit.marks.map Mark.id).Nodup)
    (run : (instrument unit).run { context := .start options unit } = (out, w))
    (clean : w.errors = []) {className param : String} {around : List Around} {e : Expr}
    (here : (around, e) ∈ out.placed [])
    (access : Access.isAt ⟨options.library, className, param⟩ e = true) (made : e.mark.id = 0)
    (new : ∀ e₀ ∈ unit.exprs, e₀.detach ≠ e.detach) :
    ∃ names, [.ofMember false false, .ofClass (some className) names] <:+: around ∧
      param ∈ names := by
  let a : Access := ⟨options.library, className, param⟩
  obtain ⟨out', vs, writes, -, rfl⟩ := instrument_writes original distinct run clean
  have marked : ∀ e ∈ unit.exprs, e.mark.id ≠ 0 :=
    fun e he => original e.mark (unit.mark_mem_marks he)
  have written : unit.stmtList.flatMap Tree.exprs ⊆ unit.exprs := by
    match unit with
    | SourceUnit.mk mark stmts =>
      change stmts.toList.flatMap Tree.exprs ⊆ stmts.exprs ++ []
      rw [Tree.exprs_toList, List.append_nil]
      exact List.Subset.refl _
  have frame : (Point.start unit).frame.Everywhere (a.Copied (unit.exprs.map Tree.detach)) := by
    have stmts : ∀ s ∈ unit.stmtList, s.Harmless a (unit.exprs.map Tree.detach) :=
      fun s hs => Tree.harmless_of_source fun e he => written (List.mem_flatMap.2 ⟨s, hs, he⟩)
    match unit, stmts with
    | SourceUnit.mk mark stmts, harmless => exact Frame.everywhere_ofStmts harmless
  have covered : ((Point.start unit).opening unit.stmtList).Covered a [] := by
    match unit with
    | SourceUnit.mk mark stmts => exact fun _ => nofun
  have settled := writes.settled marked [] ⟨written, covered, trivial, frame⟩
  have all : Tree.Settled a (unit.exprs.map Tree.detach) [] (SourceUnit.mk unit.mark
      (.ofList (libraryImports options unit.mark.loc ++ out'))) := by
    refine (Tree.settled_of_own rfl).2 (Children.allowed_cons.2 ⟨Tree.settled_ofList.2 ?_, nofun⟩)
    exact List.forall_mem_append.2
      ⟨fun s hs => Tree.Harmless.settled (harmless_libraryImports options unit.mark.loc s hs),
        settled⟩
  rcases all _ here made access with known | inside
  · obtain ⟨e₀, he₀, same⟩ := List.mem_map.1 known
    exact (new e₀ he₀ same).elim
  · exact inside

/-- `y: T` as a parameter -/
def outerParam : Param :=
  .mk { id := 12 } ⟨false, false, none, false⟩ (.ofList [])
    (Binding.mk { id := 13 } (Pat.ident ⟨{ id := 14 }, { id := 15 }⟩ "y"))
    (.present (TypeExpr.reference ⟨{ id := 16 }, { id := 17 }⟩ (.ident "T") .absent)) .absent

/-- `function f(x: T) {}` -/
def innerFunction : Stmt :=
  .funcDecl { id := 18 } (FuncDecl.mk { id := 19 } ⟨false, false⟩
    (.present (Name.mk { id := 20 } "f"))
    (.mk { id := 21 } ⟨false, false, false⟩ .absent
      (.ofList [Param.mk { id := 22 } ⟨false, false, none, false⟩ (.ofList [])
        (Binding.mk { id := 23 } (Pat.ident ⟨{ id := 24 }, { id := 25 }⟩ "x"))
        (.present (TypeExpr.reference ⟨{ id := 26 }, { id := 27 }⟩ (.ident "T") .absent)) .absent])
      .absent (.present (FuncBody.block (.ofList [])))))

/-- `class C<T> { m(y: T) { function f(x: T) {} } }` -/
def nestedAccess : SourceUnit :=
  .mk { id := 1 } (.ofList [
    Stmt.classDecl { id := 2 } (ClassDecl.mk { id := 3 } ⟨false, false, false, false⟩ (.ofList [])
      (.present (Name.mk { id := 4 } "C"))
      (.present (.ofList [TypeParam.mk { id := 5 } "T" .absent .absent])) .absent .absent
      (.ofList [])
      (.ofList [ClassMember.mk { id := 8 } ⟨false, false, false, none⟩ (.ofList [])
        (MemberKey.direct { id := 9 } "m") .absent
        (MemberVal.function { id := 10 } .method
          (.mk { id := 11 } ⟨false, false, false⟩ .absent (.ofList [outerParam]) .absent
            (.present (FuncBody.block (.ofList [innerFunction])))))]))])

/-- What the unit becomes, and the state that this leads to. -/
def nestedAccessOut : SourceUnit × Walker :=
  (instrument nestedAccess).run { context := .start {} nestedAccess }

theorem access_within_member_nestedFunction :
    nestedAccess.Original ∧ (nestedAccess.marks.map Mark.id).Nodup ∧
      nestedAccessOut.2.errors = [] ∧ nestedAccess.exprs = [] ∧
      ∃ x ∈ nestedAccessOut.1.placed [], Access.isAt ⟨"_t", "C", "T"⟩ x.2 = true ∧
        x.2.mark.id = 0 ∧
        ∃ names, [.ofMember false false, .ofClass (some "C") names] <:+: x.1 ∧ "T" ∈ names := by
  have original : nestedAccess.Original := by decide +kernel
  have distinct : (nestedAccess.marks.map Mark.id).Nodup := by decide +kernel
  have clean : nestedAccessOut.2.errors = [] := List.isEmpty_iff.1 (by decide +kernel)
  have run : nestedAccessOut = (nestedAccessOut.1, nestedAccessOut.2) :=
    (Prod.eta nestedAccessOut).symm
  have found : (nestedAccessOut.1.placed []).any (fun x =>
      Access.isAt ⟨"_t", "C", "T"⟩ x.2 && x.2.mark.id == 0) = true := by decide +kernel
  obtain ⟨⟨around, e⟩, here, h⟩ := List.any_eq_true.1 found
  rw [Bool.and_eq_true, beq_iff_eq] at h
  refine ⟨original, distinct, clean, rfl, (around, e), here, h.1, h.2, ?_⟩
  exact access_within_member {} nestedAccess original distinct run clean here h.1 h.2 nofun

/-- The function of a function declaration. -/
def FuncDecl.func : FuncDecl → Func
  | FuncDecl.mk _ _ _ f => f

/-- Whether a function has the `this` of the function around it. -/
def Func.isArrow : Func → Bool
  | Func.mk _ form _ _ _ _ => form.arrow

/-- The access is made in the body of a function declaration, a function that has a `this` of its
own and in which no other function stands. -/
theorem access_in_nested_function :
    nestedAccess.Original ∧ (nestedAccess.marks.map Mark.id).Nodup ∧
      nestedAccessOut.2.errors = [] ∧ nestedAccess.exprs = [] ∧
      ∃ d ∈ nestedAccessOut.1.subtrees Category.none .funcDecl,
        Func.isArrow (FuncDecl.func d) = false ∧ (FuncDecl.func d).funcs.length = 1 ∧
        ∃ e ∈ (FuncDecl.func d).exprs, Access.isAt ⟨"_t", "C", "T"⟩ e = true := by
  refine ⟨by decide +kernel, by decide +kernel, List.isEmpty_iff.1 (by decide +kernel), rfl, ?_⟩
  have found : (nestedAccessOut.1.subtrees Category.none .funcDecl).any (fun d =>
      !Func.isArrow (FuncDecl.func d) && (FuncDecl.func d).funcs.length == 1 &&
        (FuncDecl.func d).exprs.any (Access.isAt ⟨"_t", "C", "T"⟩)) = true := by decide +kernel
  simpa [and_assoc] using List.any_eq_true.1 found

end Reify
