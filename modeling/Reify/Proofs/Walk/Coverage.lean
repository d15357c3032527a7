import Reify.Proofs.Syntax.Nodes
import Reify.Proofs.Walk.Rules

/-!
# What the walk comes to

Outside types, decorators, enum members and imports the walk leaves out no part of a tree in which
there is something to keep count of (`Form.idsBy_modes`).  The one exception is an initializer that
is to be dropped, and a walk without errors drops none (`Brief.Keeps`).
-/

namespace Reify

open List

/-! ### No initializer is dropped -/

/-- What is told does not drop an initializer. -/
def Brief.Keeps : Brief → Prop
  | init plan => plan ≠ .drop
  | inits plans | eachInit plans => ∀ p ∈ plans, p ≠ .drop
  | _ => True

namespace Brief.Keeps

variable {b : Brief}

theorem head (h : b.Keeps) : b.head.Keeps := by
  cases b with
  | eachInit plans =>
    cases plans with
    | nil => exact nofun
    | cons p plans => exact h p (by simp)
  | _ => exact h

theorem tail (h : b.Keeps) : b.tail.Keeps := by
  cases b with
  | eachInit plans => exact fun p hp => h p (mem_of_mem_tail hp)
  | _ => exact h

end Brief.Keeps

theorem Category.brief_keeps (c : Category) : c.brief.Keeps := by
  induction c with
  | many c ih | maybe c ih => exact ih
  | declarator => exact nofun
  | varDecl => simp [brief, Brief.Keeps]
  | _ => trivial

variable {names : List String} {cs : List Category} {modes : List Mode}

namespace Mode

/-- The mode does not drop an initializer. -/
def Keeps : Mode → Prop
  | told brief => brief.Keeps
  | inScope mode | generic _ _ mode => mode.Keeps
  | _ => True

/-- Whether the mode leaves the part as it is. -/
def isSkip : Mode → Bool
  | skip => true
  | inScope mode | generic _ _ mode => mode.isSkip
  | _ => false

/-- The mode of a part leaves it as it is only if there is nothing in it to keep count of, and it
drops no initializer. -/
def Covers (mode : Mode) (c : Category) : Prop :=
  mode.Keeps ∧ (mode.isSkip = true → c.isQuiet = true)

variable {c : Category} {brief : Brief} {mode : Mode}

@[simp] theorem covers_skip : skip.Covers c ↔ c.isQuiet = true := by
  simp [Covers, Keeps, isSkip]

@[simp] theorem covers_told : (told brief).Covers c ↔ brief.Keeps := by
  simp [Covers, Keeps, isSkip]

@[simp] theorem covers_list : list.Covers c := ⟨trivial, nofun⟩

@[simp] theorem covers_top : top.Covers c := ⟨trivial, nofun⟩

@[simp] theorem covers_inScope : (inScope mode).Covers c ↔ mode.Covers c := Iff.rfl

@[simp] theorem covers_generic {access} :
    (generic names access mode).Covers c ↔ mode.Covers c := Iff.rfl

/-- The modes of parts leave none of them as it is in which there is something to keep count
of. -/
def CoverAll : List Mode → List Category → Prop
  | mode :: modes, c :: cs => mode.Covers c ∧ CoverAll modes cs
  | _, _ => True

theorem coverAll_told (cs : List Category) : CoverAll (cs.map fun c => told c.brief) cs := by
  induction cs with
  | nil => trivial
  | cons c cs ih => exact ⟨covers_told.2 c.brief_keeps, ih⟩

theorem coverAll_skip (h : ∀ c ∈ cs, c.isQuiet = true) : CoverAll (cs.map fun _ => skip) cs := by
  induction cs with
  | nil => trivial
  | cons c cs ih =>
    rw [forall_mem_cons] at h
    exact ⟨covers_skip.2 h.1, ih h.2⟩

end Mode

@[simp] theorem Brief.none_keeps : Brief.none.Keeps := trivial

@[simp] theorem Brief.role_keeps {role} : (Brief.role role).Keeps := trivial

@[simp] theorem Brief.member_keeps {className} : (Brief.member className names).Keeps := trivial

/-- Categories of sequences and optional trees. -/
def Category.isSeries : Category → Bool
  | .many _ | .maybe _ => true
  | _ => false

/-- The walk leaves out no part in which there is something to keep count of. -/
theorem Form.coverAll_modes {c} (hl : c.isLeft = false) (hs : c.isSeries = false) (form : Form c)
    (marks : Marks form.width) (ts : Children form.arity) {brief} (hb : brief.Keeps) :
    Mode.CoverAll (form.modes marks ts brief) form.arity := by
  have told : Mode.CoverAll (form.arity.map fun c => .told c.brief) form.arity :=
    Mode.coverAll_told _
  have skip (hq : c.isQuiet = true) :
      Mode.CoverAll (form.arity.map fun _ => .skip) form.arity :=
    Mode.coverAll_skip (form.isQuiet_arity hq hl)
  cases c with
  | stmt =>
    cases form with
    | block | switch | trying => simp [Form.modes, Mode.CoverAll]
    | varDecl => simpa [Form.modes, Mode.CoverAll] using hb
    | _ => exact told
  | func | block | handler | branch | unit =>
    simp [Form.modes, Mode.CoverAll, Category.isQuiet, Category.isLeft]
  | funcBody =>
    cases form with
    | block => simp [Form.modes, Mode.CoverAll]
    | expr => exact told
  | forInit =>
    cases form with
    | decl => simpa [Form.modes, Mode.CoverAll] using hb
    | _ => exact told
  | varDecl =>
    cases brief with
    | inits plans => exact ⟨Mode.covers_told.2 hb, trivial⟩
    | _ => trivial
  | declarator =>
    -- Only here does the plan decide: an initializer that is dropped is not walked.
    cases brief with
    | init plan =>
      cases plan with
      | drop => exact (hb rfl).elim
      | _ => simp [Form.modes, Mode.CoverAll, Category.isQuiet, Category.isLeft]
    | _ => simp [Form.modes, Mode.CoverAll, Category.isQuiet, Category.isLeft]
  | classDecl =>
    obtain _ | ⟨_, _ | ⟨_, _ | ⟨_, _⟩⟩⟩ := ts
    simp [Form.modes, Mode.CoverAll, Category.isQuiet, Category.isLeft]
  | classMember =>
    cases brief with
    | member => simp [Form.modes, Mode.CoverAll, Category.isQuiet, Category.isLeft]
    | _ => trivial
  | memberVal =>
    cases form with
    | function => simpa [Form.modes, Mode.CoverAll] using hb
    | property => simp [Form.modes, Mode.CoverAll]
    | index => exact Mode.coverAll_skip (by simp [Category.isQuiet, Category.isLeft])
  | objMember =>
    cases form with
    | valued =>
      obtain _ | ⟨_, _ | ⟨_, _ | _⟩⟩ := ts
      exact ⟨Mode.covers_told.2 trivial, Mode.covers_told.2 trivial, trivial⟩
    | _ => exact told
  | expr | pat | param | arg | arrayElem | memberKey | arrayPatElem | objPatProp | binding
  | forTarget | funcDecl => exact told
  | name | interfaceDecl | aliasDecl | enumDecl => exact skip rfl
  | many c | maybe c => cases hs
  | _ => cases hl

theorem Form.modes_of_left {c} (hl : c.isLeft = true) (form : Form c) {marks ts brief} :
    form.modes marks ts brief = form.arity.map fun _ => .skip := by
  cases c with
  | type | typeMember | typeKey | typeParam | sigParam | decorator | enumMember | importDecl
  | importNames | importName => rfl
  | _ => cases hl

/-! ### What a task comes to -/

/-- Categories that are left out of a count: all that a walk leaves alone, and no sequences. -/
structure Category.Skips (skip : Category → Bool) : Prop where
  left : ∀ c, c.isLeft = true → skip c = true
  many : ∀ c, skip (.many c) = false
  maybe : ∀ c, skip (.maybe c) = false

theorem Category.skips_left : Skips isLeft := ⟨fun _ => id, fun _ => rfl, fun _ => rfl⟩

section

variable (keep : (c : Category) → Form c → Bool) (skip : Category → Bool)

/-- The numbers of the forms `keep` in the parts of a tree, outside the categories `skip`. -/
def Tree.partIds {c : Category} : Tree c → List Nat
  | .node _ _ ts => if c.isLeft then [] else ts.idsOf keep skip

/-- The numbers of the forms `keep` in the parts that are walked. -/
def Children.idsBy : {cs : List Category} → List Mode → Children cs → List Nat
  | _, _, .nil => []
  | _, modes, .cons t ts =>
    (if (modes.headD .list).isSkip then [] else t.idsOf keep skip) ++ ts.idsBy modes.tail

/-- The numbers of the forms `keep` in what a task walks. -/
def Task.ids : Task → List Nat
  | node t _ => t.idsOf keep skip
  | inner t _ => t.partIds keep skip
  | parts modes ts => ts.idsBy keep skip modes
  | child mode t => if mode.isSkip then [] else t.idsOf keep skip
  | each _ ts => ts.flatMap (Tree.idsOf keep skip)
  | stmts rest => rest.flatMap (Tree.idsOf keep skip)

variable {skip}

theorem Children.idsBy_of_cover (skips : Category.Skips skip) (h : Mode.CoverAll modes cs)
    (ts : Children cs) : ts.idsBy keep skip modes = ts.idsOf keep skip := by
  induction cs generalizing modes with
  | nil =>
    cases ts
    rfl
  | cons c cs ih =>
    match ts with
    | .cons t ts =>
      rw [Children.idsBy, Children.idsOf_cons]
      cases modes with
      | nil =>
        have none : Mode.CoverAll [] cs := by cases cs <;> trivial
        rw [tail_nil, ih none]
        rfl
      | _ =>
        obtain ⟨⟨-, quiet⟩, rest⟩ := h
        rw [tail_cons, ih rest, headD_cons]
        split
        case isTrue skipped => rw [t.idsOf_of_quiet keep skips.left (quiet skipped)]
        case isFalse => rfl

theorem Children.idsBy_skip (ts : Children cs) :
    ts.idsBy keep skip (cs.map fun _ => .skip) = [] := by
  induction cs with
  | nil =>
    cases ts
    rfl
  | cons c cs ih =>
    match ts with
    | .cons t ts => exact ih ts

end

/-- Two tasks keep the same count. -/
def Task.SameIds (k k' : Task) : Prop :=
  ∀ keep {skip}, Category.Skips skip → k.ids keep skip = k'.ids keep skip

theorem Task.SameIds.left {k k' : Task} (h : k.SameIds k') (keep : (c : Category) → Form c → Bool) :
    k.ids keep Category.isLeft = k'.ids keep Category.isLeft :=
  h keep Category.skips_left

/-- What a task keeps count of is divided between two tasks. -/
def Task.Splits (k k₁ k₂ : Task) : Prop :=
  ∀ keep {skip}, Category.Skips skip → (k.ids keep skip).Perm (k₁.ids keep skip ++ k₂.ids keep skip)

/-- The walk comes to everything in the parts of a tree that it keeps count of. -/
theorem Form.sameIds_modes {c} (hs : c.isSeries = false) (form : Form c) (marks : Marks form.width)
    (ts : Children form.arity) {brief : Brief} (hb : brief.Keeps) :
    (Task.inner (.node form marks ts) brief).SameIds (.parts (form.modes marks ts brief) ts) := by
  intro keep skip skips
  rw [Task.ids, Tree.partIds, Task.ids]
  cases hl : c.isLeft with
  | false =>
    rw [ts.idsBy_of_cover keep skips (form.coverAll_modes hl hs marks ts hb)]
    rfl
  | true =>
    rw [form.modes_of_left hl, Children.idsBy_skip]
    rfl

theorem Task.sameIds_many {c} (brief : Brief) (t : Many c) :
    (Task.child (.told brief) t).SameIds (.each brief t.toList) :=
  fun _ _ skips => (Tree.idsOf_toList (skips.many c) t).symm

theorem Task.sameIds_present {c} (brief : Brief) (t : Tree c) :
    (Task.child (.told brief) (.present t)).SameIds (.child (.told brief) t) :=
  fun _ _ skips => Tree.idsOf_present (skips.maybe c) t

theorem Task.sameIds_stmts {mode : Mode} (h : mode.isSkip = false) (stmts : Many .stmt) :
    (Task.child mode stmts).SameIds (.stmts stmts.toList) := by
  intro keep skip skips
  rw [Task.ids, h]
  exact (Tree.idsOf_toList (skips.many _) stmts).symm

/-- The body of a `do` loop is walked before its test. -/
theorem Task.splits_doWhile {site test body} (brief : Brief) :
    (Task.inner (Stmt.doWhile site test body) brief).Splits (.child (.told .none) body)
      (.child (.told .none) test) := by
  intro keep skip _
  change (test.idsOf keep skip ++ (body.idsOf keep skip ++ [])).Perm
    (body.idsOf keep skip ++ test.idsOf keep skip)
  rw [append_nil]
  exact perm_append_comm

/-- The task drops no initializer. -/
def Task.Keeps : Task → Prop
  | node _ brief | each brief _ => brief.Keeps
  | @inner c _ brief => c.isSeries = false ∧ brief.Keeps
  | @parts cs modes _ => ∀ p ∈ modes.zip cs, p.1.Keeps
  | child mode _ => mode.Keeps
  | stmts _ => True

theorem Mode.CoverAll.keeps (h : CoverAll modes cs) : ∀ p ∈ modes.zip cs, p.1.Keeps := by
  induction cs generalizing modes with
  | nil => simp
  | cons c cs ih =>
    cases modes with
    | nil => simp
    | _ => exact forall_mem_cons.2 ⟨h.1.1, ih h.2⟩

/-- No part of a tree is walked in a mode that drops an initializer, unless the tree is. -/
theorem Form.modes_keep {c} (hs : c.isSeries = false) (form : Form c) (marks : Marks form.width)
    (ts : Children form.arity) {brief} (hb : brief.Keeps) :
    ∀ p ∈ (form.modes marks ts brief).zip form.arity, p.1.Keeps := by
  cases hl : c.isLeft with
  | false => exact (form.coverAll_modes hl hs marks ts hb).keeps
  | true =>
    rw [form.modes_of_left hl]
    intro p hp
    obtain ⟨_, _, same⟩ := mem_map.1 (of_mem_zip hp).1
    rw [← same]
    trivial

end Reify
