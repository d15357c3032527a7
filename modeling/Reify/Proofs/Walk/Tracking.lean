import Reify.Proofs.Walk.Once

/-!
# The state follows the points

The state of a walk without errors knows what the point says, before every task and after it
(`Point.Tracks`): the same names have been declared, scope by scope, the same type parameters are
in reach and the frame is the same.  Only statements and loop headers that have not been visited
before declare anything; on a unit with distinct numbers all of them are fresh when the walk comes
to them, since nothing but functions is entered early (`Task.Ready`).
-/

namespace Reify

open List Children

/-! ### The point after a task -/

/-- The point after the parts of a tree. -/
def Tree.afterParts : {c : Category} → Tree c → Point → Point
  | .stmt, .node form _ ts, p => if StmtForm.holdsSingle form then ts.after p else p
  | .forInit, _, p => p
  | _, t, p => t.after p

/-- The point after parts that are walked in some modes. -/
def Children.afterBy : {cs : List Category} → List Mode → Children cs → Point → Point
  | _, _, .nil, p => p
  | _, modes, .cons t ts, p => ts.afterBy modes.tail ((modes.headD .skip).after t p)

/-- The point after a task. -/
def Task.after : Task → Point → Point
  | node t _, p => t.after p
  | inner t _, p => t.afterParts p
  | parts modes ts, p => ts.afterBy modes p
  | child mode t, p => mode.after t p
  | each _ ts, p => afterAll ts p
  | stmts rest, p => afterAll rest p

variable {cs : List Category} {c : Category} {modes : List Mode} {gs : List Generics}
  {mark m : Mark} {decorators : Many .decorator} {f : Func} {name : Maybe .name}

theorem Children.afterBy_told (ts : Children cs) (p : Point) :
    ts.afterBy (cs.map fun c => .told c.brief) p = ts.after p := by
  induction cs generalizing p with
  | nil =>
    cases ts
    rfl
  | cons c cs ih =>
    match ts with
    | .cons t ts => exact ih ts (t.after p)

theorem Children.afterBy_skip (ts : Children cs) (p : Point) :
    ts.afterBy (cs.map fun _ => .skip) p = p := by
  induction cs generalizing p with
  | nil =>
    cases ts
    rfl
  | cons c cs ih =>
    match ts with
    | .cons t ts => exact ih ts p

theorem Children.afterBy_nil (ts : Children cs) (p : Point) : ts.afterBy [] p = p := by
  induction cs generalizing p with
  | nil =>
    cases ts
    rfl
  | cons c cs ih =>
    match ts with
    | .cons t ts => exact ih ts p

/-- Where a tree opens no scope, its parts lead to where the tree leads. -/
theorem Form.afterBy_modes (hs : c.isSeries = false) (form : Form c) (marks : Marks form.width)
    (ts : Children form.arity) (ho : form.opensScope = false) (brief : Brief) (p : Point) :
    ts.afterBy (form.modes marks ts brief) p = (Tree.node form marks ts).afterParts p := by
  have told := ts.afterBy_told p
  have skip := ts.afterBy_skip p
  cases c with
  | stmt =>
    cases form with
    | block =>
      match ts with
      | .cons _ .nil => rfl
    | switch =>
      match ts with
      | .cons e (.cons _ .nil) => exact e.after_still rfl p
    | trying =>
      match ts with
      | .cons _ (.cons handler (.cons _ .nil)) => exact handler.after_still rfl p
    | varDecl =>
      match ts with
      | .cons decl .nil => exact decl.after_still rfl p
    | forIn | forOf | forLoop => cases ho
    | doWhile | ifElse | labeled | whileLoop => exact told
    | _ => exact told.trans (ts.after_still (by simp [Category.moves]) p)
  | func | handler => cases ho
  | funcBody =>
    match form, marks, ts with
    | .block, .none, .cons stmts .nil => rfl
    | .expr, .none, .cons e .nil => exact e.after_still rfl p
  | block | unit =>
    match marks, ts with
    | .one _, .cons stmts .nil => rfl
  | branch =>
    match marks, ts with
    | .one _, .cons test (.cons stmts .nil) =>
      change (test.after p).within stmts.toList stmts.after = _
      rw [test.after_still rfl]
      rfl
  | forInit =>
    match form, marks, ts with
    | .decl, .none, .cons decl .nil => exact decl.after_still rfl p
    | .expr, .none, .cons e .nil => exact e.after_still rfl p
    | .absent, .none, .nil => rfl
  | varDecl =>
    cases brief with
    | inits plans =>
      match ts with
      | .cons ds .nil => exact ds.after_still rfl p
    | _ => exact ts.afterBy_nil p
  | declarator =>
    match ts with
    | .cons binding (.cons _ (.cons init .nil)) =>
      have first := binding.after_still rfl p
      have last := init.after_still rfl p
      cases brief with
      | init plan =>
        cases plan with
        | drop => exact first
        | _ =>
          change init.after (binding.after p) = p
          rw [first, last]
      | _ =>
        change init.after (binding.after p) = p
        rw [first, last]
  | classDecl =>
    match ts with
    | .cons _ (.cons _ (.cons _ (.cons base (.cons _ (.cons _ (.cons members .nil)))))) =>
      change members.after (base.after p) = p
      rw [base.after_still rfl, members.after_still rfl]
  | classMember =>
    cases brief with
    | member =>
      match ts with
      | .cons _ (.cons key (.cons _ (.cons val .nil))) =>
        change val.after (key.after p) = p
        rw [key.after_still rfl, val.after_still rfl]
    | _ => exact ts.afterBy_nil p
  | memberVal =>
    match form, marks, ts with
    | .function _, .one _, .cons f .nil => exact f.after_still rfl p
    | .property, .none, .cons value .nil => exact value.after_still rfl p
    | .index _, _, .cons _ (.cons _ .nil) => rfl
  | objMember =>
    cases form with
    | valued =>
      match ts with
      | .cons key (.cons val .nil) =>
        change val.after (key.after p) = p
        rw [key.after_still rfl, val.after_still rfl]
    | _ => exact told.trans (ts.after_still (by simp [Category.moves]) p)
  | many c | maybe c => cases hs
  | expr | pat | memberKey | arrayElem | forTarget | arrayPatElem | objPatProp =>
    exact told.trans (ts.after_still (by cases form <;> simp [Category.moves]) p)
  | param | arg | binding | funcDecl =>
    exact told.trans (ts.after_still (by simp [Category.moves]) p)
  | _ => exact skip

/-! ### What a task leaves alone -/

theorem Mode.after_aligned {c} (t : Tree c) (mode : Mode) (p : Point) :
    p.Aligned (mode.after t p) := by
  induction mode with
  | told => exact t.after_aligned p
  | list => exact p.aligned_within _ _
  | top => exact (p.aligned_opening _).trans (t.after_aligned _)
  | generic _ _ _ ih => exact ih
  | _ => exact .refl p

theorem Children.afterBy_aligned (modes : List Mode) (ts : Children cs) (p : Point) :
    p.Aligned (ts.afterBy modes p) := by
  induction cs generalizing modes p with
  | nil =>
    cases ts
    exact .refl p
  | cons c cs ih =>
    match ts with
    | .cons t ts => exact (Mode.after_aligned t _ p).trans (ih modes.tail ts _)

/-- Whether the frame around a tree of a category is kept where the tree is walked in a mode. -/
def Mode.keepsFrame (c : Category) : Mode → Bool
  | skip | inScope _ | list => true
  | told _ => !c.changesFrame
  | top => false
  | generic _ _ mode => mode.keepsFrame c

theorem Mode.frame_after {c} (t : Tree c) {mode : Mode} (h : mode.keepsFrame c = true) (p : Point) :
    (mode.after t p).frame = p.frame := by
  induction mode with
  | told => exact t.frame_after (by simpa [keepsFrame] using h) p
  | top => cases h
  | generic _ _ _ ih => exact ih h
  | _ => rfl

theorem Children.frame_afterBy (h : ∀ q ∈ modes.zip cs, q.1.keepsFrame q.2 = true)
    (ts : Children cs) (p : Point) : (ts.afterBy modes p).frame = p.frame := by
  induction cs generalizing modes p with
  | nil =>
    cases ts
    rfl
  | cons c cs ih =>
    match ts with
    | .cons t ts =>
      cases modes with
      | nil => exact congrArg Point.frame ((Children.cons t ts).afterBy_nil p)
      | _ =>
        rw [zip_cons_cons, forall_mem_cons] at h
        exact (ih h.2 ts _).trans (Mode.frame_after t h.1 p)

/-- A tree with a scope of its own keeps the frame around it. -/
theorem Form.modes_keepFrame {form : Form c} (h : form.opensScope = true) (marks : Marks form.width)
    (ts : Children form.arity) (brief : Brief) :
    ∀ q ∈ (form.modes marks ts brief).zip form.arity, q.1.keepsFrame q.2 = true := by
  cases c with
  | stmt =>
    cases form with
    | forIn | forOf | forLoop => simp [Form.modes, Mode.keepsFrame, Category.changesFrame]
    | _ => cases h
  | func | handler => simp [Form.modes, Mode.keepsFrame, Category.changesFrame]
  | _ => cases h

/-- A tree with a scope of its own leads nowhere. -/
theorem Tree.afterParts_of_opens {t : Tree c} (h : t.form.opensScope = true) (p : Point) :
    t.afterParts p = p := by
  match t, h with
  | .node form marks ts, h =>
    cases c with
    | stmt =>
      cases form with
      | forIn | forOf | forLoop => rfl
      | _ => cases h
    | func | handler => exact Tree.after_still _ rfl p
    | _ => cases h

/-- The point with other type parameters in reach. -/
def Point.reaching (p : Point) (generics : List Generics) : Point := { p with generics }

theorem Point.within_reaching {p : Point} {stmts run}
    (h : run ((p.entering stmts).reaching gs) = (run (p.entering stmts)).reaching gs) :
    (p.reaching gs).within stmts run = (p.within stmts run).reaching gs := by
  change (p.reaching gs).resuming (run ((p.entering stmts).reaching gs)) = _
  rw [h]
  rfl

mutual

/-- Where a tree leads does not depend on the type parameters in reach. -/
theorem Tree.after_reaching : {c : Category} → (t : Tree c) → (p : Point) → (gs : List Generics) →
    t.after (p.reaching gs) = (t.after p).reaching gs
  | c, .node form marks ts, p, gs => by
    have parts := ts.after_reaching
    cases c with
    | stmt =>
      change (if StmtForm.holdsSingle form then ts.after ((p.passing _).reaching gs)
        else (p.passing _).reaching gs) =
        (if StmtForm.holdsSingle form then ts.after (p.passing _) else p.passing _).reaching gs
      split
      · exact parts _ gs
      · rfl
    | forInit =>
      match form, marks, ts with
      | .decl, .none, .cons (VarDecl.mk _ _ _) .nil => rfl
      | .expr, .none, .cons _ .nil => rfl
      | .absent, .none, .nil => rfl
    | funcBody =>
      match form, marks, ts, parts with
      | .block, .none, .cons stmts .nil, parts =>
        exact Point.within_reaching (parts (p.entering stmts.toList) gs)
      | .expr, .none, .cons _ .nil, _ => rfl
    | block =>
      match marks, ts, parts with
      | .one _, .cons stmts .nil, parts =>
        exact Point.within_reaching (parts (p.entering stmts.toList) gs)
    | branch =>
      match marks, ts, parts with
      | .one _, .cons test (.cons stmts .nil), parts =>
        have both := parts (p.entering stmts.toList) gs
        simp only [after_cons, test.after_still rfl] at both
        exact Point.within_reaching both
    | unit =>
      match marks, ts, parts with
      | .one _, .cons stmts .nil, parts => exact parts (p.opening stmts.toList) gs
    | many c | maybe c => exact parts p gs
    | _ => rfl

theorem Children.after_reaching : {cs : List Category} → (ts : Children cs) → (p : Point) →
    (gs : List Generics) → ts.after (p.reaching gs) = (ts.after p).reaching gs
  | _, .nil, _, _ => rfl
  | _, .cons t ts, p, gs => by
    rw [after_cons, after_cons, t.after_reaching, ts.after_reaching]

end

theorem Mode.after_reaching {c} (t : Tree c) (mode : Mode) (p : Point) (gs : List Generics) :
    mode.after t (p.reaching gs) = (mode.after t p).reaching gs := by
  induction mode with
  | told => exact t.after_reaching p gs
  | list => exact Point.within_reaching (t.after_reaching (p.entering t.stmts) gs)
  | top => exact t.after_reaching (p.opening t.stmts) gs
  | generic _ _ _ ih => exact ih
  | _ => rfl

/-! ### The state at a point -/

/-- The scope knows what the point says. -/
structure Point.Describes (p : Point) (options : Options) (s : Scope) : Prop where
  options : s.options = options
  declared : Forall₂ (fun names (r : Region) => ∀ x, x ∈ names ↔ x ∈ r.names)
    s.declared.toList p.regions.toList
  generics : s.generics = p.generics

/-- The state knows what the point says. -/
structure Point.Tracks (p : Point) (options : Options) (w : Walker) : Prop where
  scope : p.Describes options w.context.scope
  frame : w.context.frame = p.frame

theorem Scope.foldl_declare (names : List String) (s : Scope) :
    ∃ top, names.foldl Scope.declare s = { s with declared := ⟨top, s.declared.below⟩ } ∧
      ∀ x, x ∈ top ↔ x ∈ s.declared.top ∨ x ∈ names := by
  induction names generalizing s with
  | nil => exact ⟨s.declared.top, rfl, by simp⟩
  | cons name names ih =>
    obtain ⟨top, same, mem⟩ := ih (s.declare name)
    refine ⟨top, same, fun x => ?_⟩
    rw [mem, mem_cons]
    change x ∈ s.declared.top.insert name ∨ _ ↔ _
    rw [mem_insert_iff]
    tauto

namespace Point.Describes

variable {p q : Point} {options : Options} {s : Scope}

/-- What the walk calls declared is what the point says has been declared. -/
theorem wasDeclared (h : p.Describes options s) (name : String) :
    s.wasDeclared name = p.has name := by
  rw [Bool.eq_iff_iff, Scope.wasDeclared, Point.has, any_eq_true, any_eq_true]
  simp only [contains_iff_mem]
  have same := h.declared
  generalize s.declared.toList = scopes at same
  generalize p.regions.toList = regions at same
  induction same with
  | nil => simp
  | cons head _ ih => simp [head, ih]

theorem declaring (h : p.Describes options s) (names : List String) :
    (p.declaring names).Describes options (names.foldl Scope.declare s) := by
  obtain ⟨top, same, mem⟩ := s.foldl_declare names
  obtain ⟨head, below⟩ := forall₂_cons.1 h.declared
  rw [same]
  refine ⟨h.options, .cons (fun x => ?_) below, h.generics⟩
  rw [mem, head]
  exact mem_append.symm

/-- Only the names of the scopes around matter. -/
theorem congr (h : p.Describes options s)
    (regions : p.regions.toList.map Region.names = q.regions.toList.map Region.names)
    (generics : p.generics = q.generics) : q.Describes options s := by
  refine ⟨h.options, ?_, h.generics.trans generics⟩
  have same := h.declared
  rw [← forall₂_map_right_iff (R := fun (names : List String) (names' : List String) =>
    ∀ x, x ∈ names ↔ x ∈ names') (f := Region.names)] at same ⊢
  rwa [← regions]

end Point.Describes

namespace Point.Tracks

variable {p q : Point} {options : Options} {w w' : Walker}

variable {names : List String}

theorem passes {frame : Frame → Frame} (h : p.Tracks options w) (passes : Passes w w' names frame) :
    Point.Tracks { p.declaring names with frame := frame p.frame } options w' where
  scope := by
    rw [passes.scope]
    exact (h.scope.declaring names).congr rfl rfl
  frame := by
    rw [← h.frame, Context.frame, passes.frames]
    rfl

theorem declareAll (h : p.Tracks options w) (names : List String) :
    (p.declaring names).Tracks options (w.declareAll names) :=
  h.passes (.of_effect (.of_declareAll w names))

theorem under (h : p.Tracks options w) (names : List String) (access : ParamAccess) :
    (p.under names access).Tracks options (w.pushGenerics names access) := by
  rw [Walker.pushGenerics]
  split
  case isTrue none =>
    have same : p.under names access = p := by rw [Point.under, Generics.under, if_pos none]
    rwa [same]
  case isFalse some =>
    have same : p.under names access = p.reaching (⟨names, access⟩ :: p.generics) := by
      rw [Point.under, Generics.under, if_neg some]
      rfl
    rw [same]
    exact ⟨⟨h.scope.options, h.scope.declared, congrArg (_ :: ·) h.scope.generics⟩, h.frame⟩

theorem popGenerics {access} (h : (p.reaching (Generics.under names access gs)).Tracks options w) :
    (p.reaching gs).Tracks options (w.popGenerics names) := by
  rw [Walker.popGenerics]
  split
  case isTrue none => rwa [Generics.under, if_pos none] at h
  case isFalse some =>
    rw [Generics.under, if_neg some] at h
    refine ⟨⟨h.scope.options, h.scope.declared, ?_⟩, h.frame⟩
    exact congrArg List.tail h.scope.generics

theorem inner (h : p.Tracks options w) : p.inner.Tracks options (w.map Context.pushScope) :=
  ⟨⟨h.scope.options, .cons (fun _ => Iff.rfl) h.scope.declared, h.scope.generics⟩, h.frame⟩

theorem popScope {top} (h : Point.Tracks { p with regions := p.regions.push top } options w) :
    p.Tracks options (w.map Context.popScope) := by
  obtain ⟨_, below⟩ := forall₂_cons.1 h.scope.declared
  refine ⟨⟨h.scope.options, ?_, h.scope.generics⟩, h.frame⟩
  change Forall₂ _ (Stack.pop _).toList _
  rw [Stack.pop]
  cases scopes : w.context.scope.declared.below with
  | nil =>
    rw [scopes] at below
    cases below
  | _ => rwa [scopes] at below

/-- The state at the parts of a tree. -/
theorem enter (t : Tree c) (h : p.Tracks options w) : (t.inside p).Tracks options (t.enter w) := by
  rw [Tree.inside, Tree.enter]
  split
  · exact h.inner.under _ _
  · exact h.under _ _

end Point.Tracks

theorem Tree.generics_of_open {t : Tree c} (h : t.form.opensScope = false) : t.generics = [] := by
  match t, h with
  | .node form marks ts, h =>
    cases c with
    | func => cases h
    | _ => rfl

/-- The state after the parts of a tree. -/
theorem Point.Tracks.leave {c} (hs : c.isSeries = false) {form : Form c}
    {marks ts brief p options w}
    (h : (ts.afterBy (form.modes marks ts brief) ((Tree.node form marks ts).inside p)).Tracks
      options w) :
    ((Tree.node form marks ts).afterParts p).Tracks options ((Tree.node form marks ts).leave w) := by
  let t : Tree c := .node form marks ts
  cases ho : t.form.opensScope with
  | false =>
    have none : t.generics = [] := Tree.generics_of_open ho
    have inside : t.inside p = p := by
      rw [Tree.inside, if_neg (by simp [ho]), none]
      rfl
    have leave : t.leave w = w := by
      rw [Tree.leave, none]
      exact if_neg (by simp [ho])
    rw [leave, ← form.afterBy_modes hs marks ts ho brief]
    rwa [inside] at h
  | _ =>
    rw [Tree.afterParts_of_opens (t := t) ho]
    have inside : t.inside p = p.inner.under t.generics .constant := by
      rw [Tree.inside, if_pos ho]
    have aligned := ts.afterBy_aligned (form.modes marks ts brief) (t.inside p)
    have frame := ts.frame_afterBy (form.modes_keepFrame ho marks ts brief) (t.inside p)
    rw [inside] at aligned frame
    change (ts.afterBy (form.modes marks ts brief) (t.inside p)).Tracks options w at h
    rw [inside] at h
    generalize ts.afterBy _ _ = q at aligned frame h
    -- What is left of the parts is the scope that was opened for them.
    have same : q = Point.reaching { p with regions := p.regions.push q.regions.top }
        (Generics.under t.generics .constant p.generics) := by
      obtain ⟨⟨top, below⟩, gs, f⟩ := q
      obtain ⟨rfl, rfl⟩ := aligned
      obtain rfl := frame
      rfl
    rw [same] at h
    rw [Tree.leave, if_pos ho]
    exact h.popGenerics.popScope

/-! ### Tasks that can be done -/

/-- The walk can do the task: no initializer is dropped, the nodes have distinct numbers, none of
them is synthetic, and only functions at the head of the task have been entered early. -/
structure Task.Ready (k : Task) (w : Walker) : Prop where
  keeps : k.Keeps
  nodup : k.counted.Nodup
  zero : 0 ∉ k.counted
  fresh : ∀ i ∈ k.counted, i ∈ w.context.visited → i ∈ k.heads

namespace Task.Ready

variable {k k₁ k₂ : Task} {w w₁ : Walker}

theorem of_ids (h : k.Ready w) (keeps : k₁.Keeps) (same : k.counted = k₁.counted)
    (heads : ∀ i ∈ k₁.counted, i ∈ k.heads → i ∈ k₁.heads)
    (visited : w₁.ledger = w.ledger) : k₁.Ready w₁ where
  keeps := keeps
  nodup := same ▸ h.nodup
  zero := same ▸ h.zero
  fresh i hi seen := by
    rw [show w₁.context.visited = w.context.visited from congrArg Ledger.visited visited] at seen
    exact heads i hi (h.fresh i (same ▸ hi) seen)

theorem of_same (h : k.Ready w) (keeps : k₁.Keeps) (same : k.SameIds k₁)
    (visited : w₁.ledger = w.ledger) : k₁.Ready w₁ := by
  have heads : k.heads = k₁.heads := same _ Category.skips_heads
  exact h.of_ids keeps (same.left _) (fun _ _ hi => heads ▸ hi) visited

section

variable (split : k.Splits k₁ k₂)

include split

/-- The first of two tasks. -/
theorem first (h : k.Ready w) (keeps : k₁.Keeps) : k₁.Ready w := by
  have same := split (fun _ _ => true) Category.skips_left
  have heads := (split Form.isFunc Category.skips_heads).subset
  obtain ⟨nodup, -, apart⟩ := nodup_append.1 (same.nodup_iff.1 h.nodup)
  refine ⟨keeps, nodup, fun hz => h.zero (same.mem_iff.2 (mem_append_left _ hz)), ?_⟩
  intro i hi seen
  have early := heads (h.fresh i (same.mem_iff.2 (mem_append_left _ hi)) seen)
  refine (mem_append.1 early).resolve_right fun later => ?_
  exact apart i hi i (k₂.heads_sublist.subset later) rfl

/-- The second of two tasks, once the first is done. -/
theorem second {vs} (h : k.Ready w) (keeps : k₂.Keeps)
    (done : k₁.Covered w.ledger w₁.ledger vs) : k₂.Ready w₁ := by
  have same := split (fun _ _ => true) Category.skips_left
  have heads := (split Form.isFunc Category.skips_heads).subset
  obtain ⟨nodup₁, nodup₂, apart⟩ := nodup_append.1 (same.nodup_iff.1 h.nodup)
  have zero : 0 ∉ k₁.counted ++ k₂.counted := fun hz => h.zero (same.mem_iff.2 hz)
  rw [mem_append, not_or] at zero
  refine ⟨keeps, nodup₂, zero.2, fun i hi seen => ?_⟩
  rcases ((done nodup₁ zero.1).visited i).1 seen with seen | counted
  · have early := heads (h.fresh i (same.mem_iff.2 (mem_append_right _ hi)) seen)
    refine (mem_append.1 early).resolve_left fun before => ?_
    exact apart i (k₁.heads_sublist.subset before) i hi rfl
  · exact (apart i counted i hi rfl).elim

end

variable {d : Category} {t : Tree d} {brief brief' : Brief} {id : Nat}

/-- The parts of a node, once the node itself and functions at the head of its parts have been
entered. -/
theorem parts (h : (Task.node t brief).Ready w) (keeps : (Task.inner t brief').Keeps)
    (own : t.GoesBy id)
    (heads : ∀ i ∈ t.heads, i = id) {early} (inside : early ⊆ (Task.inner t brief').heads)
    (visited : ∀ i ∈ w₁.context.visited, i ∈ w.context.visited ∨ i = id ∨ i ∈ early) :
    (Task.inner t brief').Ready w₁ := by
  have own : (Task.node t brief).counted = id :: (Task.inner t brief').counted := own _
  have nodup := h.nodup
  have zero := h.zero
  rw [own] at nodup zero
  obtain ⟨outside, nodup⟩ := nodup_cons.1 nodup
  refine ⟨keeps, nodup, fun hz => zero (mem_cons_of_mem _ hz), fun i hi seen => ?_⟩
  rcases visited i seen with seen | rfl | entered
  · have early := h.fresh i (own ▸ mem_cons_of_mem _ hi) seen
    exact (outside (heads i early ▸ hi)).elim
  · exact (outside hi).elim
  · exact inside entered

end Task.Ready

end Reify
