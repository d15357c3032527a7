import Reify.Proofs.Check.Passing

/-!
# Where the walk stands

A `Point` says what is known where the walk stands: the names declared so far in each of the scopes
around, the type parameters in reach and what is left of the innermost statement list.  It is read
off the tree alone.  `Tree.after` takes the point before a tree to the point after it, and no state
of the walk takes part in it.
-/

namespace Reify

open List

/-! ### Points -/

/-- A scope around the current tree. -/
structure Region where
  /-- The statement list walked in it. -/
  list : List Stmt := []
  /-- The names declared in it so far. -/
  names : List String := []

/-- What is known where the walk stands. -/
structure Point where
  /-- The scopes around, the innermost on top. -/
  regions : Stack Region := ⟨{}, []⟩
  generics : List Generics := []
  /-- The classes and interfaces of the innermost statement list. -/
  frame : Frame := {}

namespace Point

/-- The point once names have been declared. -/
def declaring (p : Point) (names : List String) : Point :=
  { p with regions := p.regions.modify fun r => { r with names := r.names ++ names } }

/-- The point once a statement has been dealt with. -/
def passing (p : Point) (s : Stmt) : Point :=
  { p.declaring (p.frame.declared s) with frame := p.frame.passing s }

/-- The point at the start of a scope. -/
def inner (p : Point) : Point := { p with regions := p.regions.push {} }

/-- The point with type parameters in reach. -/
def under (p : Point) (names : List String) (access : ParamAccess) : Point :=
  { p with generics := Generics.under names access p.generics }

/-- The point at the start of a statement list.  What it hoists is declared at once. -/
def opening (p : Point) (stmts : List Stmt) : Point :=
  { p with regions := p.regions.modify fun r =>
      { list := stmts, names := r.names ++ stmts.flatMap Stmt.hoisted } }

/-- The point at the start of a statement list with a frame of its own. -/
def entering (p : Point) (stmts : List Stmt) : Point :=
  { p.opening stmts with frame := Frame.ofStmts stmts }

/-- The point after a statement list that ended at `q`. -/
def resuming (p q : Point) : Point :=
  { p with regions := p.regions.modify fun r => { r with names := q.regions.top.names } }

/-- The point after a statement list, given what its statements do. -/
def within (p : Point) (stmts : List Stmt) (run : Point → Point) : Point :=
  p.resuming (run (p.entering stmts))

/-- The point at the start of a unit. -/
def start : SourceUnit → Point
  | SourceUnit.mk _ stmts => { frame := Frame.ofStmts stmts.toList }

/-- Whether a name has been declared in one of the scopes around. -/
def has (p : Point) (name : String) : Bool := p.regions.toList.any (·.names.contains name)

end Point

/-! ### The point after a tree -/

/-- Whether the bodies of a statement are single statements in its own scope. -/
def StmtForm.holdsSingle : StmtForm → Bool
  | .doWhile | .ifElse | .labeled _ | .whileLoop => true
  | _ => false

/-- The point after several trees. -/
def Results.after {cs : List Category} (rs : Results (fun _ => Point → Point) cs) (p : Point) :
    Point :=
  rs.values.foldl (fun p after => after p) p

/-- The point after a form, given what its parts do.  A part with a scope of its own does
nothing. -/
def Form.after : {c : Category} → (form : Form c) → Marks form.width → Children form.arity →
    Results (fun _ => Point → Point) form.arity → Point → Point
  | .stmt, form, marks, ts, rs, p =>
    let q := p.passing (.node (c := .stmt) form marks ts)
    if StmtForm.holdsSingle form then rs.after q else q
  | .forInit, .decl, _, .cons (VarDecl.mk _ _ ds) .nil, _, p =>
    p.declaring (ds.toList.flatMap Declarator.boundNames)
  | .funcBody, .block, _, .cons stmts .nil, (run, ()), p => p.within stmts.toList run
  | .block, _, _, .cons stmts .nil, (run, ()), p => p.within stmts.toList run
  | .branch, _, _, .cons _ (.cons stmts .nil), (_, run, ()), p => p.within stmts.toList run
  | .unit, _, _, .cons stmts .nil, (run, ()), p => run (p.opening stmts.toList)
  | .many _, _, _, _, rs, p | .maybe _, _, _, _, rs, p => rs.after p
  | _, _, _, _, _, p => p

/-- The point after a tree. -/
def Tree.after {c : Category} (t : Tree c) : Point → Point :=
  t.fold (X := fun _ => Point → Point) Form.after

/-- The point after trees one after another. -/
def Children.after {cs : List Category} (ts : Children cs) (p : Point) : Point :=
  Results.after (ts.fold (X := fun _ => Point → Point) Form.after) p

/-- The point after the trees of a list. -/
def afterAll {c : Category} (ts : List (Tree c)) (p : Point) : Point :=
  ts.foldl (fun p t => t.after p) p

variable {c d : Category}

@[simp] theorem Children.after_cons {cs} (t : Tree c) (ts : Children cs) (p : Point) :
    (Children.cons t ts).after p = ts.after (t.after p) := rfl

@[simp] theorem afterAll_nil (p : Point) : afterAll ([] : List (Tree c)) p = p := rfl

@[simp] theorem afterAll_cons (t : Tree c) (ts : List (Tree c)) (p : Point) :
    afterAll (t :: ts) p = afterAll ts (t.after p) := rfl

theorem Children.after_toList {n} (ts : Children (List.replicate n c)) (p : Point) :
    ts.after p = afterAll ts.toList p := by
  induction n generalizing p with
  | zero =>
    cases ts
    rfl
  | succ n ih =>
    match ts with
    | .cons t ts => exact ih ts (t.after p)

theorem Tree.after_many (ts : Many c) (p : Point) : ts.after p = afterAll ts.toList p := by
  match ts with
  | .node (c := .many _) n .none ts => exact ts.after_toList p

/-! ### What a tree leaves alone -/

/-- Categories whose trees may declare names in the scope around them. -/
def Category.moves : Category → Bool
  | .stmt | .forInit | .funcBody | .block | .branch | .unit => true
  | .many c | .maybe c => c.moves
  | _ => false

/-- Categories whose trees may change the frame around them. -/
def Category.changesFrame : Category → Bool
  | .stmt | .unit => true
  | .many c | .maybe c => c.changesFrame
  | _ => false

theorem Form.mem_arity_many {form : Form (.many c)} (h : d ∈ form.arity) : d = c :=
  eq_of_mem_replicate h

theorem Form.mem_arity_maybe {form : Form (.maybe c)} (h : d ∈ form.arity) : d = c := by
  cases form with
  | false => cases h
  | true => exact mem_singleton.1 h

mutual

theorem Tree.after_still : {c : Category} → (t : Tree c) → c.moves = false → (p : Point) →
    t.after p = p
  | c, .node form marks ts, h, p => by
    have parts := ts.after_still
    cases c with
    | stmt | forInit | funcBody | block | branch | unit => cases h
    | many c => exact parts (fun d hd => Form.mem_arity_many hd ▸ h) p
    | maybe c => exact parts (fun d hd => Form.mem_arity_maybe hd ▸ h) p
    | _ => rfl

theorem Children.after_still : {cs : List Category} → (ts : Children cs) →
    (∀ c ∈ cs, c.moves = false) → (p : Point) → ts.after p = p
  | _, .nil, _, _ => rfl
  | _, .cons t ts, h, p => by
    rw [forall_mem_cons] at h
    rw [Children.after_cons, t.after_still h.1, ts.after_still h.2]

end

namespace Point

/-- The points differ at most in the innermost scope and in the frame. -/
structure Aligned (p q : Point) : Prop where
  generics : q.generics = p.generics
  below : q.regions.below = p.regions.below

theorem Aligned.refl (p : Point) : p.Aligned p := ⟨rfl, rfl⟩

theorem Aligned.trans {p q r : Point} (h : p.Aligned q) (h' : q.Aligned r) : p.Aligned r :=
  ⟨h'.generics.trans h.generics, h'.below.trans h.below⟩

theorem aligned_declaring (p : Point) (names : List String) : p.Aligned (p.declaring names) :=
  ⟨rfl, rfl⟩

theorem aligned_passing (p : Point) (s : Stmt) : p.Aligned (p.passing s) := ⟨rfl, rfl⟩

theorem aligned_opening (p : Point) (stmts : List Stmt) : p.Aligned (p.opening stmts) := ⟨rfl, rfl⟩

theorem aligned_within (p : Point) (stmts : List Stmt) (run : Point → Point) :
    p.Aligned (p.within stmts run) :=
  ⟨rfl, rfl⟩

end Point

mutual

/-- A tree declares names in the scope around it at most. -/
theorem Tree.after_aligned : {c : Category} → (t : Tree c) → (p : Point) → p.Aligned (t.after p)
  | c, .node form marks ts, p => by
    have parts := ts.after_aligned
    cases c with
    | stmt =>
      change p.Aligned (if StmtForm.holdsSingle form then ts.after (p.passing _) else p.passing _)
      split
      · exact (p.aligned_passing _).trans (parts _)
      · exact p.aligned_passing _
    | forInit =>
      match form, marks, ts with
      | .decl, .none, .cons (VarDecl.mk _ _ _) .nil => exact p.aligned_declaring _
      | .expr, .none, .cons _ .nil => exact .refl p
      | .absent, .none, .nil => exact .refl p
    | funcBody =>
      match form, marks, ts with
      | .block, .none, .cons stmts .nil => exact p.aligned_within _ _
      | .expr, .none, .cons _ .nil => exact .refl p
    | block =>
      match marks, ts with
      | .one _, .cons stmts .nil => exact p.aligned_within _ _
    | branch =>
      match marks, ts with
      | .one _, .cons _ (.cons stmts .nil) => exact p.aligned_within _ _
    | unit =>
      match marks, ts, parts with
      | .one _, .cons stmts .nil, parts => exact (p.aligned_opening _).trans (parts _)
    | many c | maybe c => exact parts p
    | _ => exact .refl p

theorem Children.after_aligned : {cs : List Category} → (ts : Children cs) → (p : Point) →
    p.Aligned (ts.after p)
  | _, .nil, p => .refl p
  | _, .cons t ts, p => (t.after_aligned p).trans (ts.after_aligned _)

end

mutual

theorem Tree.frame_after : {c : Category} → (t : Tree c) → c.changesFrame = false → (p : Point) →
    (t.after p).frame = p.frame
  | c, .node form marks ts, h, p => by
    have parts := ts.frame_after
    cases c with
    | stmt | unit => cases h
    | forInit =>
      match form, marks, ts with
      | .decl, .none, .cons (VarDecl.mk _ _ _) .nil => rfl
      | .expr, .none, .cons _ .nil => rfl
      | .absent, .none, .nil => rfl
    | funcBody =>
      match form, marks, ts with
      | .block, .none, .cons stmts .nil => rfl
      | .expr, .none, .cons _ .nil => rfl
    | block =>
      match marks, ts with
      | .one _, .cons stmts .nil => rfl
    | branch =>
      match marks, ts with
      | .one _, .cons _ (.cons stmts .nil) => rfl
    | many c => exact parts (fun d hd => Form.mem_arity_many hd ▸ h) p
    | maybe c => exact parts (fun d hd => Form.mem_arity_maybe hd ▸ h) p
    | _ => rfl

theorem Children.frame_after : {cs : List Category} → (ts : Children cs) →
    (∀ c ∈ cs, c.changesFrame = false) → (p : Point) → (ts.after p).frame = p.frame
  | _, .nil, _, _ => rfl
  | _, .cons t ts, h, p => by
    rw [forall_mem_cons] at h
    rw [Children.after_cons, ts.frame_after h.2, t.frame_after h.1]

end

end Reify
