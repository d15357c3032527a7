import Reify.Proofs.Check.Request
import Reify.Proofs.Walk.Erasure
import Reify.Proofs.Walk.Writing

/-!
# The statement lists of the result

Every statement list that the walk comes to is written statement by statement, and then reworked
along with the function around it.  `Writes.lists` finds the outcome in the result.
-/

namespace Reify

open List Tree

/-! ### Where statement lists stand -/

/-- Categories of statement lists and of what is walked as one, and of sequences and options of
them. -/
def Category.holdsList : Category → Bool
  | .many .stmt | .unit => true
  | .many c | .maybe c => c.holdsList
  | _ => false

variable {c d : Category}

theorem Category.holdsList_of_many (h : (Category.many c).holdsList = false) :
    c ≠ .stmt ∧ c.holdsList = false := by
  cases c with
  | stmt => cases h
  | _ => exact ⟨by rintro ⟨⟩, h⟩

/-- Whether the mode is that of a statement list inside a unit. -/
def Mode.isList : Mode → Bool
  | list => true
  | inScope mode | generic _ _ mode => mode.isList
  | _ => false

/-- Statement lists are walked as such. -/
def Mode.Lists (mode : Mode) (c : Category) : Prop := c.holdsList = true → mode.isList = true

def Mode.ListAll : List Mode → List Category → Prop
  | mode :: modes, c :: cs => mode.Lists c ∧ ListAll modes cs
  | _, _ => True

theorem Mode.listAll_of_free {modes cs} (h : ∀ c ∈ cs, c.holdsList = false) : ListAll modes cs := by
  induction cs generalizing modes with
  | nil => cases modes <;> trivial
  | cons c cs ih =>
    rw [forall_mem_cons] at h
    cases modes with
    | nil => trivial
    | _ => exact ⟨fun hc => by simp [h.1] at hc, ih h.2⟩

theorem Form.listAll_modes (hs : c.isSeries = false) (hu : c ≠ .unit) (form : Form c)
    (marks : Marks form.width) (ts : Children form.arity) (brief : Brief) :
    Mode.ListAll (form.modes marks ts brief) form.arity := by
  cases c with
  | many | maybe => cases hs
  | unit => exact (hu rfl).elim
  | block | handler | branch =>
    simp [Form.modes, Mode.ListAll, Mode.Lists, Mode.isList, Category.holdsList]
  | funcBody =>
    cases form with
    | block => simp [Form.modes, Mode.ListAll, Mode.Lists, Mode.isList]
    | expr => exact Mode.listAll_of_free (by simp [Category.holdsList])
  | expr | stmt | pat | type | typeMember | typeKey | arrayElem | objMember | memberKey | memberVal
  | forInit | forTarget | importNames =>
    exact Mode.listAll_of_free (by cases form <;> simp [Category.holdsList])
  | _ => exact Mode.listAll_of_free (by simp [Category.holdsList])

mutual

theorem Tree.subtrees_of_quiet {d : Category} (hd : d.isQuiet = false) :
    {c : Category} → (t : Tree c) → c.isQuiet = true → t.subtrees Category.isLeft d = []
  | c, .node form marks ts, hq => by
    rw [subtrees_node]
    split
    case isTrue => rfl
    case isFalse hl =>
      have other : c ≠ d := by
        rintro rfl
        cases hq.symm.trans hd
      rw [ofCategory_of_ne other,
        ts.subtrees_of_quiet hd (form.isQuiet_arity hq (by simpa using hl))]
      rfl

theorem Children.subtrees_of_quiet {d : Category} (hd : d.isQuiet = false) :
    {cs : List Category} → (ts : Children cs) → (∀ c ∈ cs, c.isQuiet = true) →
      ts.subtrees Category.isLeft d = []
  | _, .nil, _ => rfl
  | _, .cons t ts, hq => by
    rw [forall_mem_cons] at hq
    rw [Children.subtrees_cons, t.subtrees_of_quiet hd hq.1, ts.subtrees_of_quiet hd hq.2]
    rfl

end

/-! ### Statement lists are written and reworked -/

/-- The second list is what is written for the first, reworked. -/
def Rendered (options : Options) (ss ss' : Many .stmt) : Prop :=
  ∃ p out vs, p.frame = Frame.ofStmts ss.toList ∧ Writes options p (.stmts ss.toList) out vs ∧
    Reworked (.made options) [] (.tree (.many .stmt)) (.ofList out) ss'

/-- Each list of the first ones is rendered as one of the second. -/
def RenderedAll (options : Options) (us us' : List (Many .stmt)) : Prop :=
  ∀ u ∈ us, ∃ u' ∈ us', Rendered options u u'

namespace RenderedAll

variable {options : Options} {us us' vs vs' : List (Many .stmt)}

theorem nil : RenderedAll options [] us := by simp [RenderedAll]

theorem mono (h : RenderedAll options us us') (more : us' ⊆ vs) : RenderedAll options us vs := by
  intro u hu
  obtain ⟨u', hu', rendered⟩ := h u hu
  exact ⟨u', more hu', rendered⟩

theorem append (h : RenderedAll options us us') (h' : RenderedAll options vs vs') :
    RenderedAll options (us ++ vs) (us' ++ vs') := by
  intro u hu
  rcases mem_append.1 hu with hu | hu
  · exact h.mono (subset_append_left _ _) u hu
  · exact h'.mono (subset_append_right _ _) u hu

theorem carry (h : RenderedAll options us us') (carried : Carried (.made options) us' vs) :
    RenderedAll options us vs := by
  intro u hu
  obtain ⟨u', hu', p, out, ws, frame, writes, reworked⟩ := h u hu
  obtain ⟨v, hv, again⟩ := carried u' hu'
  exact ⟨v, hv, p, out, ws, frame, writes, reworked.trans again⟩

end RenderedAll

/-- The trees of a category that a task comes to. -/
def Task.subtrees (d : Category) : Task → List (Tree d)
  | node t _ | child _ t => t.subtrees Category.isLeft d
  | @inner c (.node _ _ ts) _ => if c.isLeft then [] else ts.subtrees Category.isLeft d
  | parts _ ts => ts.subtrees Category.isLeft d
  | each _ ts => ts.flatMap (Tree.subtrees Category.isLeft d)
  | stmts rest => rest.flatMap (Tree.subtrees Category.isLeft d)

/-- The trees of a category in what comes out of a task. -/
def Task.outSubtrees (d : Category) : (k : Task) → k.Out → List (Tree d)
  | node _ _, (t', _) | inner _ _, t' | child _ _, t' => t'.subtrees Category.none d
  | parts _ _, ts' => ts'.subtrees Category.none d
  | each _ _, ts' => ts'.flatMap (Tree.subtrees Category.none d)
  | stmts _, out => out.flatMap (Tree.subtrees Category.none d)

/-- The task leaves out no statement list, and is not that of a unit. -/
def Task.Comes : Task → Prop
  | @node c _ brief | @each c brief _ => brief.Keeps ∧ c.holdsList = false
  | @inner c _ brief => brief.Keeps ∧ c.isSeries = false ∧ c ≠ .unit
  | @parts cs modes _ => Mode.CoverAll modes cs ∧ Mode.ListAll modes cs
  | @child c mode _ => mode.Covers c ∧ mode.Lists c
  | stmts _ => True

theorem Tree.subtrees_followedBy (t : Tree c) (fs : List Stmt) :
    t.subtrees Category.none d ⊆ (t.followedBy fs).subtrees Category.none d := by
  cases c with
  | stmt =>
    cases fs with
    | nil => exact List.Subset.refl _
    | cons f fs =>
      intro u hu
      exact mem_subtrees_of_parts rfl (mem_append_left _ (mem_subtrees_of_parts rfl
        (mem_append_left _ (mem_subtrees_ofList rfl mem_cons_self hu))))
  | _ => exact List.Subset.refl _

/-- The trees of another category in a tree are those in its parts. -/
theorem Task.subtrees_node {c d} (hc : c ≠ d) (t : Tree c) (brief brief' : Brief) :
    (Task.node t brief).subtrees d = (Task.inner t brief').subtrees d := by
  match t with
  | .node form marks ts =>
    change Tree.subtrees _ _ _ = if c.isLeft then [] else _
    rw [Tree.subtrees_node, Tree.ofCategory_of_ne hc]
    rfl

theorem Tree.subtrees_present {skip} (h : skip (.maybe c) = false) (hd : .maybe c ≠ d)
    (t : Tree c) : (Tree.present t).subtrees skip d = t.subtrees skip d := by
  rw [subtrees_node, h, ofCategory_of_ne hd]
  exact append_nil _

/-- **Every statement list that the walk comes to is rendered** in the result. -/
theorem Writes.lists {options p k out vs} (h : Writes options p k out vs) :
    k.Comes → RenderedAll options (k.subtrees (.many .stmt)) (k.outSubtrees (.many .stmt) out) := by
  have steady := Addition.made_isSteady options
  have listed : Category.holdsStmts (.many .stmt) = true → Category.many .stmt = .many .stmt :=
    fun _ => rfl
  induction h with
  | @inert _ c _ t t' brief hi inner ih =>
    rintro ⟨keeps, free⟩
    rw [Task.subtrees_node (by rintro rfl; cases free) t brief brief]
    exact ih ⟨keeps, isSeries_of_inert hi, by rintro rfl; cases free⟩
  | @stmt _ w _ s s' plan _ _ tracks _ _ planned root inner ih =>
    intro _
    rw [Task.subtrees_node (by decide) s .none (.inits plan.initPlans)]
    have reworked := planned.reworked_made root []
    rw [tracks.scope.options] at reworked
    exact (ih ⟨planned.keeps, rfl, by decide⟩).carry (reworked.subtrees steady listed)
  | @func _ s f f' role plan _ scope planned _ inner ih =>
    intro _
    rw [Task.subtrees_node (by decide) f _ .none]
    have parts := ih ⟨trivial, rfl, by decide⟩
    cases plan with
    | none => exact parts
    | some plan =>
      have reworked := FuncPlan.reworked_made planned [] f'
      rw [scope.options] at reworked
      exact parts.carry (reworked.subtrees steady listed)
  | @entered _ f _ _ _ _ _ ih =>
    intro _
    rw [Task.subtrees_node (by decide) f _ .none]
    exact ih ⟨trivial, rfl, by decide⟩
  | @header _ s _ _ _ decl decl' plans _ _ scope planned _ inner ih =>
    intro _
    rw [Task.subtrees_node (by decide) (ForInit.decl decl) .none (.inits plans)]
    have reworked := ForInit.reworked_made planned [] decl'
    rw [scope.options] at reworked
    exact (ih ⟨keeps_of_inits planned, rfl, by decide⟩).carry (reworked.subtrees steady listed)
  | @inner _ c _ form marks brief ts ts' _ _ ih =>
    rintro ⟨keeps, series, unit⟩
    change RenderedAll _ (if c.isLeft then [] else _) _
    split
    · exact .nil
    case isFalse hl =>
      have left : c.isLeft = false := by simpa using hl
      refine (ih ⟨form.coverAll_modes left series marks ts keeps,
        form.listAll_modes series unit marks ts brief⟩).mono fun u hu => ?_
      exact mem_subtrees_of_parts rfl hu
  | @doWhile _ site test test' body body' brief _ _ _ _ ihFirst ihSecond =>
    intro _
    have first := ihFirst ⟨Mode.covers_told.2 trivial, nofun⟩
    have second := ihSecond ⟨Mode.covers_told.2 trivial, nofun⟩
    exact (second.append (first.append .nil)).mono fun u hu => mem_subtrees_of_parts rfl hu
  | partsCons _ _ ihHead ihTail =>
    rintro ⟨⟨first, covers⟩, ⟨lists, rest⟩⟩
    exact (ihHead ⟨first, lists⟩).append (ihTail ⟨covers, rest⟩)
  | @skip _ c t =>
    rintro ⟨covers, -⟩
    change RenderedAll _ (Tree.subtrees _ _ t) _
    rw [t.subtrees_of_quiet rfl (Mode.covers_skip.1 covers)]
    exact .nil
  | @told _ c brief fs _ t t' _ ih =>
    rintro ⟨covers, lists⟩
    have free : c.holdsList = false := by
      rw [← Bool.not_eq_true]
      exact fun hc => nomatch lists hc
    exact (ih ⟨Mode.covers_told.1 covers, free⟩).mono (t'.subtrees_followedBy fs)
  | @toldMany _ c brief _ ts' t _ ih =>
    rintro ⟨covers, lists⟩
    obtain ⟨other, free⟩ := Category.holdsList_of_many (c := c) (by
      rw [← Bool.not_eq_true]
      exact fun hc => nomatch lists hc)
    have parts := ih ⟨Mode.covers_told.1 covers, free⟩
    change RenderedAll _ (Tree.subtrees _ _ t) (Tree.subtrees _ _ (Tree.ofList ts'))
    rw [← ofList_toList t, subtrees_ofList, subtrees_ofList,
      ofCategory_of_ne (by rintro ⟨⟩; exact other rfl),
      ofCategory_of_ne (by rintro ⟨⟩; exact other rfl)]
    exact parts
  | @toldPresent _ c brief _ t t' _ ih =>
    rintro ⟨covers, lists⟩
    change RenderedAll _ (Tree.subtrees _ _ (Tree.present t)) (Tree.subtrees _ _ (Tree.present t'))
    rw [subtrees_present rfl (by rintro ⟨⟩), subtrees_present rfl (by rintro ⟨⟩)]
    exact ih ⟨Mode.covers_told.2 (Mode.covers_told.1 covers), lists⟩
  | @list p stmts out vs writes ih =>
    intro _
    change RenderedAll _ (Tree.subtrees _ _ stmts) (Tree.subtrees _ _ (Tree.ofList out))
    rw [← ofList_toList stmts, subtrees_ofList, subtrees_ofList]
    refine .append ?_ (ih trivial)
    intro u hu
    rw [ofCategory_self, mem_singleton, ofList_toList] at hu
    subst hu
    exact ⟨_, by simp, _, out, vs, rfl, writes, .refl⟩
  | top =>
    rintro ⟨-, lists⟩
    cases lists rfl
  | inScope _ ih | generic _ ih => exact ih
  | eachCons _ _ ihHead ihTail =>
    rintro ⟨keeps, free⟩
    exact (ihHead ⟨Mode.covers_told.2 keeps.head, fun hc => nomatch hc.symm.trans free⟩).append
      (ihTail ⟨keeps.tail, free⟩)
  | @stmtsCons _ _ s' fs rest out _ _ _ _ ihHead ihTail =>
    intro _
    refine ((ihHead ⟨trivial, rfl⟩).append (ihTail trivial)).mono ?_
    change Tree.subtrees _ _ s' ++ out.flatMap _ ⊆ (s' :: (fs ++ out)).flatMap _
    rw [flatMap_cons, flatMap_append]
    refine append_subset.2 ⟨subset_append_left _ _, ?_⟩
    exact subset_append_of_subset_right _ (subset_append_right _ _)
  | _ => exact fun _ => .nil

theorem Addition.made_libraryImports (options : Options) (loc : Loc) :
    ∀ s ∈ libraryImports options loc, Addition.made options [] .stmt s := by
  intro s hs
  refine ⟨isAdded_libraryImports options loc s hs, ?_⟩
  rw [libraryImports] at hs
  split at hs
  · rcases mem_append.1 hs with hs | hs <;> rw [mem_singleton.1 hs] <;> rfl
  · rw [mem_singleton.1 hs]
    rfl

/-- **Every statement list outside types, decorators and enum members is rendered** in what comes
out.  The imports are put in front of that of the unit. -/
theorem instrument_renders {options unit out w} (original : unit.Original)
    (distinct : (unit.marks.map Mark.id).Nodup)
    (run : (instrument unit).run { context := .start options unit } = (out, w))
    (clean : w.errors = []) :
    RenderedAll options (unit.subtrees Category.isLeft (.many .stmt))
      (out.subtrees Category.none (.many .stmt)) := by
  obtain ⟨out', vs, writes, -, rfl⟩ := instrument_writes original distinct run clean
  match unit with
  | SourceUnit.mk mark stmts =>
    let imports := libraryImports options mark.loc
    have reworked : Reworked (.made options) [] (.tree (.many .stmt)) (.ofList out')
        (.ofList (imports ++ out')) :=
      .inserted .start (Addition.made_libraryImports options mark.loc)
    have inside : (Tree.ofList (imports ++ out')).subtrees Category.none (.many .stmt) ⊆
        (SourceUnit.mk mark (.ofList (imports ++ out'))).subtrees Category.none (.many .stmt) :=
      fun u hu => mem_subtrees_of_parts rfl (mem_append_left _ hu)
    refine RenderedAll.mono ?_ inside
    change RenderedAll options (stmts.subtrees _ _ ++ []) _
    rw [append_nil, ← ofList_toList stmts, subtrees_ofList, subtrees_ofList]
    refine .append ?_ ((writes.lists trivial).mono ?_)
    · intro u hu
      rw [ofCategory_self, mem_singleton, ofList_toList] at hu
      subst hu
      exact ⟨_, by simp, _, out', vs, rfl, writes, reworked⟩
    · change out'.flatMap _ ⊆ _
      rw [flatMap_append]
      exact subset_append_right _ _

end Reify
