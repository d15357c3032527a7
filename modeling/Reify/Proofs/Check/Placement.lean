import Reify.Proofs.Check.Planted
import Reify.Proofs.Check.Request
import Reify.Proofs.Reflection.Access

/-!
# Where expressions stand

`Tree.placed` lists the expressions of a tree, each with the classes, members and entries around
it.  A made access to a type parameter is settled if it stands inside an instance member of the
class, and plans add nothing that is not (`Planted.settled`).
-/

namespace Reify

open List Tree

/-! ### Expressions and what surrounds them -/

/-- An expression with what surrounds it, from the inside out. -/
abbrev Placed := List Around × Expr

/-- What `Tree.placed` does at a form. -/
def Form.placed {c : Category} (form : Form c) (marks : Marks form.width) (ts : Children form.arity)
    (rs : Results (fun _ => List Around → List Placed) form.arity) (around : List Around) :
    List Placed :=
  (Tree.node form marks ts).ownExprs.map (around, ·) ++
    rs.values.flatMap (· ((Tree.node form marks ts).around around))

/-- The expressions of a tree that stands in the given surroundings, in source order. -/
def Tree.placed {c : Category} (t : Tree c) : List Around → List Placed :=
  t.fold (X := fun _ => List Around → List Placed) Form.placed

/-- The expressions of trees that stand in the given surroundings. -/
def Children.placed {cs : List Category} (ts : Children cs) (around : List Around) : List Placed :=
  (ts.fold (X := fun _ => List Around → List Placed) Form.placed).values.flatMap (· around)

/-- The expressions of a thing of a shape. -/
def Shape.placed : (k : Shape) → k.Of → List Around → List Placed
  | .tree _, t, around => t.placed around
  | .parts _, ts, around => ts.placed around
  | .list _, ts, around => ts.flatMap (Tree.placed · around)

variable {cs : List Category} {around' : List Around} {d : Category} {e : Expr}
  {className : Option String} {names : List String}

section

variable {c : Category} {around : List Around}

theorem Tree.placed_node (form : Form c) (marks : Marks form.width) (ts : Children form.arity) :
    (Tree.node form marks ts).placed around = (Tree.node form marks ts).ownExprs.map (around, ·) ++
      ts.placed ((Tree.node form marks ts).around around) := rfl

@[simp] theorem Children.placed_cons (t : Tree c) (ts : Children cs) :
    (Children.cons t ts).placed around = t.placed around ++ ts.placed around := rfl

theorem Children.placed_ofList (ts : List (Tree c)) :
    (Children.ofList ts).placed around = ts.flatMap (Tree.placed · around) := by
  induction ts with
  | nil => rfl
  | cons t ts ih =>
    rw [flatMap_cons, ← ih]
    rfl

@[simp] theorem Tree.placed_ofList (ts : List (Tree c)) :
    (Tree.ofList ts).placed around = ts.flatMap (Tree.placed · around) :=
  Children.placed_ofList ts

mutual

/-- Every expression of a tree is placed, and nothing else. -/
theorem Tree.map_placed : {c : Category} → (t : Tree c) → (around : List Around) →
    (t.placed around).map Prod.snd = t.exprs
  | _, .node form marks ts, around => by
    rw [placed_node, exprs_node, map_append, ts.map_placed, map_map]
    exact congrArg (· ++ ts.exprs) (map_id _)

theorem Children.map_placed : {cs : List Category} → (ts : Children cs) → (around : List Around) →
    (ts.placed around).map Prod.snd = ts.exprs
  | _, .nil, _ => rfl
  | _, .cons t ts, around => by
    rw [Children.placed_cons, Children.exprs_cons, map_append, t.map_placed, ts.map_placed]

end

theorem Tree.mem_exprs_of_placed {t : Tree c} {x} (h : x ∈ t.placed around) : x.2 ∈ t.exprs := by
  rw [← t.map_placed around]
  exact mem_map_of_mem h

end

/-! ### Inside the members of a class -/

/-- What surrounds a tree of a category, if it stands at the given place.  A key stands outside its
member. -/
def Category.standing : Category → List Around → List Around
  | .memberKey, around => around.tail
  | .many c, around | .maybe c, around => c.standing around
  | _, around => around

/-- Inside an instance member of a class of the given name and with the type parameter. -/
def Access.Reached (a : Access) (around : List Around) : Prop :=
  ∃ names, [.ofMember false false, .ofClass (some a.className) names] <:+: around ∧
    a.param ∈ names

theorem Access.Reached.mono {a : Access} {around} (h : a.Reached around)
    (more : around <:+ around') : a.Reached around' := by
  obtain ⟨names, inside, mem⟩ := h
  exact ⟨names, inside.trans more.isInfix, mem⟩

/-- Categories of keys, and of sequences and options of them. -/
def Category.isKey : Category → Bool
  | .memberKey => true
  | .many c | .maybe c => c.isKey
  | _ => false

theorem Category.standing_of_other {c : Category} (h : c.isKey = false) (around : List Around) :
    c.standing around = around := by
  induction c with
  | memberKey => cases h
  | many c ih | maybe c ih => exact ih h
  | _ => rfl

/-- Categories of trees that may have keys. -/
def Category.hasKey : Category → Bool
  | .classMember | .objMember | .objPatProp | .many _ | .maybe _ => true
  | _ => false

theorem Form.isKey_arity {c} {form : Form c} (hc : c.hasKey = false) (hd : d ∈ form.arity) :
    d.isKey = false := by
  revert d
  cases c with
  | many | maybe | classMember | objMember | objPatProp => cases hc
  | expr | stmt | pat | type | typeMember | typeKey | arrayElem | memberKey | memberVal | forInit
  | forTarget | importNames | funcBody => cases form <;> simp [Category.isKey]
  | _ => simp [Category.isKey]

theorem Category.suffix_standing_cons (d : Category) (x : Around) (around : List Around) :
    around <:+ d.standing (x :: around) := by
  induction d with
  | memberKey => exact suffix_rfl
  | many d ih | maybe d ih => exact ih
  | _ => exact suffix_cons x around

/-- What surrounds a tree surrounds its parts. -/
theorem Form.suffix_standing {c} {form : Form c} (marks : Marks form.width)
    (ts : Children form.arity) (hd : d ∈ form.arity) (around : List Around) :
    c.standing around <:+ d.standing ((Tree.node form marks ts).around around) := by
  have part (hc : c.hasKey = false) (around : List Around) : d.standing around = around :=
    Category.standing_of_other (Form.isKey_arity hc hd) around
  cases c with
  | many c =>
    obtain rfl := eq_of_mem_replicate hd
    exact suffix_rfl
  | maybe c =>
    cases form with
    | false => cases hd
    | true =>
      obtain rfl := mem_singleton.1 hd
      exact suffix_rfl
  | classMember | objMember | objPatProp => exact d.suffix_standing_cons _ around
  | classDecl =>
    rw [part rfl]
    match marks, ts with
    | .one _, .cons _ (.cons _ (.cons _ (.cons _ (.cons _ (.cons _ (.cons _ .nil)))))) =>
      exact suffix_cons _ around
  | expr =>
    rw [part rfl]
    cases form with
    | classExpr =>
      match marks, ts with
      | .two _, .cons _ (.cons _ (.cons _ (.cons _ .nil))) => exact suffix_cons _ around
    | _ => exact suffix_rfl
  | _ =>
    rw [part rfl]
    exact suffix_rfl

mutual

/-- Inside a member everything is. -/
theorem Tree.reached_placed {a : Access} : {c : Category} → (t : Tree c) → {around : List Around} →
    a.Reached (c.standing around) → ∀ x ∈ t.placed around, a.Reached x.1
  | c, .node form marks ts, around, h => by
    rw [placed_node]
    refine forall_mem_append.2 ⟨?_, ?_⟩
    · cases c with
      | expr => exact forall_mem_map.2 fun _ _ => h
      | _ => exact nofun
    · exact ts.reached_placed fun d hd => h.mono (Form.suffix_standing marks ts hd around)

theorem Children.reached_placed {a : Access} : {cs : List Category} → (ts : Children cs) →
    {around : List Around} → (∀ c ∈ cs, a.Reached (c.standing around)) →
      ∀ x ∈ ts.placed around, a.Reached x.1
  | _, .nil, _, _ => nofun
  | _, .cons t ts, _, h => by
    rw [forall_mem_cons] at h
    exact forall_mem_append.2 ⟨t.reached_placed h.1, ts.reached_placed h.2⟩

end

/-! ### Settled code -/

section

variable (a : Access) (known : List Expr)

/-- If the expression is an access that was made, it is a copy of a known one or stands inside an
instance member of the class. -/
def Access.Allows (x : Placed) : Prop :=
  x.2.mark.id = 0 → a.isAt x.2 = true → x.2.detach ∈ known ∨ a.Reached x.1

/-- Every access made in the tree is allowed, in the given surroundings. -/
def Tree.Settled {c : Category} (around : List Around) (t : Tree c) : Prop :=
  ∀ x ∈ t.placed around, a.Allows known x

/-- What may be added: settled code, and no expression in brackets. -/
def Addition.settled : Addition
  | around, .expr, e => Expr.isIndex e = false ∧ Tree.Settled a known around e
  | around, _, t => t.Settled a known around

end

section

variable {a : Access} {known : List Expr} {c : Category} {around : List Around}

theorem Tree.Harmless.settled {t : Tree c} (h : t.Harmless a known) : t.Settled a known around :=
  fun _ hx _ at' => .inl (harmless_iff.1 h _ (mem_exprs_of_placed hx) at')

theorem Tree.settled_of_reached (t : Tree c) (h : a.Reached (c.standing around)) :
    t.Settled a known around :=
  fun x hx _ _ => .inr (t.reached_placed h x hx)

/-- What was not made is settled. -/
theorem Tree.settled_of_marks {t : Tree c} (h : ∀ e ∈ t.exprs, e.mark.id ≠ 0) :
    t.Settled a known around :=
  fun _ hx made => (h _ (mem_exprs_of_placed hx) made).elim

@[simp] theorem Tree.settled_ofList {ts : List (Tree c)} :
    (Tree.ofList ts).Settled a known around ↔ ∀ t ∈ ts, t.Settled a known around := by
  simp only [Tree.Settled, placed_ofList, mem_flatMap]
  grind

theorem Tree.settled_of_own {form : Form c} {marks ts}
    (own : (Tree.node form marks ts).ownExprs = []) :
    (Tree.node form marks ts).Settled a known around ↔
      ∀ x ∈ ts.placed ((Tree.node form marks ts).around around), a.Allows known x := by
  rw [Tree.Settled, placed_node, own, map_nil, nil_append]

theorem Expr.settled_of_not {form marks ts} (h : a.isAt (.node form marks ts) = false) :
    (Tree.node form marks ts).Settled a known around ↔
      ∀ x ∈ ts.placed ((Tree.node form marks ts).around around), a.Allows known x := by
  have own : a.Allows known (around, Tree.node form marks ts) := fun _ at' => by
    rw [h] at at'
    cases at'
  change (∀ x ∈ (around, Tree.node form marks ts) :: ts.placed _, _) ↔ _
  rw [forall_mem_cons, and_iff_right own]

theorem Children.allowed_cons {t : Tree c} {ts : Children cs} :
    (∀ x ∈ (Children.cons t ts).placed around, a.Allows known x) ↔
      t.Settled a known around ∧ ∀ x ∈ ts.placed around, a.Allows known x :=
  forall_mem_append

theorem Tree.settled_present {t : Tree c} :
    (Tree.present t).Settled a known around ↔ t.Settled a known around :=
  (settled_of_own rfl).trans (Children.allowed_cons.trans (and_iff_left nofun))

/-- A check stands where the checked value stood. -/
theorem settled_assertion {loc r} (plain : r.isIndex = false) (hr : r.Settled a known around)
    (he : e.Settled a known around) : (assertion loc r [e]).Settled a known around := by
  have callee : (Synthetic.member loc r "assert").Settled a known around := by
    refine (Expr.settled_of_not ?_).2 (Children.allowed_cons.2 ⟨hr, nofun⟩)
    change (_ && a.isHolder r) = false
    rw [Access.isHolder_of_not_index plain, Bool.and_false]
  have arg : (Synthetic.arg e).Settled a known around :=
    (settled_of_own rfl).2 (Children.allowed_cons.2 ⟨he, nofun⟩)
  refine (Expr.settled_of_not rfl).2 (Children.allowed_cons.2 ⟨callee, Children.allowed_cons.2
    ⟨settled_ofList.2 ?_, nofun⟩⟩)
  exact forall_mem_singleton.2 arg

theorem settled_returning {site value} :
    (Stmt.returning site value).Settled a known around ↔ value.Settled a known around :=
  (settled_of_own rfl).trans (Children.allowed_cons.trans (and_iff_left nofun))

end

/-! ### Reworked code -/

theorem Category.around_of_stmts {c} (hc : c.holdsStmts = true) {form : Form c} {marks ts}
    (around : List Around) :
    (Tree.node form marks ts).ownExprs = [] ∧ (Tree.node form marks ts).around around = around := by
  cases c with
  | stmt | block | handler | branch | many _ | maybe _ => exact ⟨rfl, rfl⟩
  | _ => cases hc

section

variable {a : Access} {known : List Expr}

theorem Children.Related.settled {around cs} {ts ts' : Children cs}
    (h : ts.Related (fun _ t t' => t.Settled a known around → t'.Settled a known around) ts')
    (settled : ∀ x ∈ ts.placed around, a.Allows known x) :
    ∀ x ∈ ts'.placed around, a.Allows known x := by
  induction h with
  | nil => nofun
  | cons head _ ih =>
    obtain ⟨first, rest⟩ := Children.allowed_cons.1 settled
    exact Children.allowed_cons.2 ⟨head first, ih rest⟩

/-- Checks of returned values are settled. -/
theorem relatesReturns_settled {name : String} {around : List Around} : RelatesReturns (checkedBy name)
    (fun _ t t' => t.Settled a known around → t'.Settled a known around) where
  same _ := id
  value site e settled := by
    have value := settled_present.1 (settled_returning.1 settled)
    refine settled_returning.2 (settled_present.2 ?_)
    exact settled_assertion rfl (Tree.Harmless.settled everywhere_ident) value
  node hc parts settled := by
    rw [settled_of_own (Category.around_of_stmts hc around).1,
      (Category.around_of_stmts hc around).2] at settled ⊢
    exact parts.settled settled

/-- **Settled code that is reworked stays settled**, if what is added is settled. -/
theorem Reworked.settled {around k x x'} (h : Reworked (.settled a known) around k x x') :
    (∀ y ∈ k.placed x around, a.Allows known y) → ∀ y ∈ k.placed x' around, a.Allows known y := by
  induction h with
  | refl => exact id
  | trans _ _ ih ih' => exact ih' ∘ ih
  | @node around c form marks ts ts' hc same _ ih =>
    intro settled
    have own (ts : Children form.arity) : (Tree.node form marks ts).ownExprs = [] := by
      cases c with
      | expr => cases hc
      | _ => rfl
    refine (settled_of_own (own ts')).2 ?_
    rw [same]
    exact ih ((settled_of_own (own ts)).1 settled)
  | @many around c ts ts' _ _ ih =>
    intro settled
    have before : ∀ y ∈ ts.flatMap (Tree.placed · around), a.Allows known y := by
      rw [← placed_ofList]
      exact settled
    change ∀ y ∈ (Tree.ofList ts').placed around, _
    rw [placed_ofList]
    exact ih before
  | @inserted around ss ts zs gap added =>
    intro settled
    obtain ⟨before, after⟩ := forall_mem_append.1 (settled_ofList.1 settled)
    exact settled_ofList.2 (forall_mem_append.2
      ⟨forall_mem_append.2 ⟨before, added⟩, after⟩)
  | @front around c t ts _ added =>
    intro settled
    have first : t.Settled a known around := by
      cases c with
      | expr => exact added.2
      | _ => exact added
    exact settled_ofList.2 (forall_mem_cons.2 ⟨first, settled_ofList.1 settled⟩)
  | @checked around loc r e added => exact fun settled => settled_assertion added.1 added.2 settled
  | @returned around loc e =>
    intro settled
    have value : e.Settled a known around :=
      (Children.allowed_cons.1 ((settled_of_own rfl).1 settled)).1
    refine (settled_of_own rfl).2 (Children.allowed_cons.2 ⟨settled_ofList.2 ?_, nofun⟩)
    exact forall_mem_singleton.2 (settled_returning.2 (settled_present.2 value))
  | partsCons _ _ ihHead ihTail =>
    intro settled
    obtain ⟨head, tail⟩ := Children.allowed_cons.1 settled
    exact Children.allowed_cons.2 ⟨ihHead head, ihTail tail⟩
  | listCons _ _ ihHead ihTail =>
    intro settled
    obtain ⟨head, tail⟩ := forall_mem_append.1 settled
    exact forall_mem_append.2 ⟨ihHead head, ihTail tail⟩
  | _ =>
    intro settled
    refine settled_ofList.2 (forall_mem_map.2 fun s hs => ?_)
    exact relatesReturns_settled.tree s rfl (settled_ofList.1 settled s hs)

end

/-! ### What functions get -/

section

variable {a : Access} {known : List Expr} {c : Category} {around : List Around} {s : Scope}

/-- In the surroundings, the type parameter is reached through an object only inside a member. -/
def Scope.Covered (a : Access) (s : Scope) (around : List Around) : Prop :=
  ¬ a.Reached around → s.Quiet a

theorem Scope.Covered.mono (h : s.Covered a around) (more : around <:+ around') :
    s.Covered a around' :=
  fun outside => h fun inside => outside (inside.mono more)

theorem Addition.settled_of_harmless {t} (hc : c ≠ .expr) (hk : c.isKey = false)
    (covered : ¬ a.Reached around → t.Harmless a known) : Addition.settled a known around c t := by
  have settled : t.Settled a known around := by
    by_cases inside : a.Reached around
    · exact t.settled_of_reached (by rwa [Category.standing_of_other hk])
    · exact (covered inside).settled
  cases c with
  | expr => exact (hc rfl).elim
  | _ => exact settled

theorem Addition.settled_expr (plain : e.isIndex = false)
    (covered : ¬ a.Reached around → e.Harmless a known) :
    Addition.settled a known around .expr e := by
  refine ⟨plain, ?_⟩
  by_cases inside : a.Reached around
  · exact settled_of_reached e inside
  · exact (covered inside).settled

/-! ### What classes get -/

theorem Access.reached_of_instance {a : Access} {static constructor}
    (instance' : memberAccess className static constructor = .ofInstance a.className)
    (mem : a.param ∈ names) :
    a.Reached (.ofMember static constructor :: .ofClass className names :: around) := by
  obtain ⟨rfl, rfl, rfl⟩ :
      className = some a.className ∧ static = false ∧ constructor = false := by
    cases className with
    | none => cases instance'
    | some name =>
      cases constructor <;> cases static <;> simp_all [memberAccess]
  exact ⟨names, ⟨[], around, rfl⟩, mem⟩

/-- A member sees its class. -/
theorem Scope.Covered.member (h : s.Covered a around) (static constructor : Bool) :
    (s.withGenerics names (memberAccess className static constructor)).Covered a
      (.ofMember static constructor :: .ofClass className names :: around) := by
  intro outside
  refine (h.mono ⟨[.ofMember static constructor, .ofClass className names], rfl⟩
    outside).withGenerics names fun instance' mem => ?_
  exact outside (Access.reached_of_instance instance' mem)

theorem Scope.Quiet.suitsBeside (quiet : s.Quiet a) (known : List Expr) :
    s.SuitsBeside (a.Copied known) :=
  fun names _ other => (quiet.withGenerics names fun instance' => (other _ instance').elim).suits known

/-! ### What statements get -/

theorem Scope.Covered.reaches {s'} (h : s.Covered a around) (scope : s.Reaches around s' around') :
    s'.Covered a around' := by
  induction scope with
  | here => exact h
  | func _ ih => exact fun outside => (ih outside).withGenerics _ nofun
  | member _ ih => exact ih.member _ _
  | inside _ ih => exact ih.mono (suffix_cons _ _)

/-- **Plans add settled code only.** -/
theorem Planted.settled {t} (h : Planted s (a.Copied known) around around' c t)
    (covered : s.Covered a around) : Addition.settled a known around' c t := by
  have harmless (outside : ¬ a.Reached around') : t.Harmless a known := by
    refine h.everywhere fun s' scope => ?_
    have quiet := covered.reaches scope outside
    exact ⟨quiet.suits known, quiet.suitsBeside known⟩
  cases h with
  | check _ h => exact Addition.settled_expr h.plain harmless
  | result => exact Addition.settled_expr rfl harmless
  | _ =>
    exact Addition.settled_of_harmless nofun rfl harmless

/-- What is put behind a statement is settled. -/
theorem Planned.settled_followers {w w' stmt plan fs} (h : Planned w stmt plan fs w')
    (hs : stmt.Harmless a known) (frame : w.context.frame.Everywhere (a.Copied known))
    (covered : w.context.scope.Covered a around) : ∀ f ∈ fs, f.Settled a known around := by
  by_cases inside : a.Reached around
  · exact fun f _ => f.settled_of_reached inside
  exact fun f hf =>
    Tree.Harmless.settled (h.everywhere_followers hs frame ((covered inside).suits known) f hf)

end

end Reify
