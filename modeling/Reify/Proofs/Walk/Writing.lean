import Reify.Proofs.Walk.Tracking

/-!
# What a walk writes

On a unit whose nodes have distinct numbers, a walk without errors comes to every statement and
every loop header for the first time, and knows there what the point says.  So what it writes can be
told without its state: `Writes` has the rules of the walk, with every plan worked out from the
scope and the frame that the point describes.  `Walks.writes` is the one place where freshness and
the state are looked at; what holds of the code that comes out is shown by induction on `Writes`.
-/

namespace Reify

open List Tree

/-! ### The rules -/

/-- **Writing.**  `Writes options p k out vs`: at the point `p` the task `k` is written as `out`,
with the visits `vs`. -/
inductive Writes (options : Options) : Point → (k : Task) → k.Out → List Visit → Prop where
  | inert {p c vs} {t t' : Tree c} {brief : Brief} (h : t.isInert = true)
      (inner : Writes options p (.inner t brief) t' vs) :
      Writes options p (.node t brief) (t', []) vs
  | stmt {p w w' s s' plan fs vs} (tracks : p.Tracks options w) (nodup : s.counted.Nodup)
      (fresh : ∀ i ∈ s.counted, w.context.wasVisited i = false) (planned : Planned w s plan fs w')
      (root : SameRoot s s')
      (inner : Writes options (p.passing s) (.inner s (.inits plan.initPlans)) s' vs) :
      Writes options p (.node s .none) (plan.apply s', fs) (s.visits p ++ vs)
  | func {p s f f' role plan vs} (scope : p.Describes options s)
      (planned : funcPlanOf s role f = .ok plan) (root : SameRoot f f')
      (inner : Writes options p (.inner f .none) f' vs) :
      Writes options p (.node f (.role role)) (applyFuncPlan (.ok plan) f', [])
        (⟨p, .func role f⟩ :: vs)
  /-- A function that was dealt with along with its declaration. -/
  | entered {p} {f f' : Func} {role vs} (root : SameRoot f f')
      (inner : Writes options p (.inner f .none) f' vs) :
      Writes options p (.node f (.role role)) (f', []) vs
  | header {p s mark form ds decl decl' plans vs} (hd : decl = VarDecl.mk mark form ds)
      (scope : p.Describes options s) (planned : ds.toList.mapM (initPlanOf s) = .ok plans)
      (alike : Alike (.tree .varDecl) decl decl')
      (inner : Writes options ((ForInit.decl decl).after p)
        (.inner (ForInit.decl decl) (.inits plans)) (ForInit.decl decl') vs) :
      Writes options p (.node (ForInit.decl decl) .none)
        (ForInit.decl (VarDecl.applyInits plans decl'), []) (⟨p, .header decl⟩ :: vs)
  | inner {p c vs} {form : Form c} {marks : Marks form.width} {brief : Brief}
      {ts ts' : Children form.arity} (h : form.isDoWhile = false)
      (parts : Writes options ((Tree.node form marks ts).inside p)
        (.parts (form.modes marks ts brief) ts) ts' vs) :
      Writes options p (.inner (.node form marks ts) brief) (.node form marks ts') vs
  | doWhile {p site test test' body body' brief vs us}
      (first : Writes options p (.child (.told .none) body) body' vs)
      (second : Writes options (body.after p) (.child (.told .none) test) test' us) :
      Writes options p (.inner (Stmt.doWhile site test body) brief) (Stmt.doWhile site test' body')
        (vs ++ us)
  | partsNil {p} : Writes options p (.parts [] .nil) .nil []
  | partsCons {p mode modes c cs vs us} {t t' : Tree c} {ts ts' : Children cs}
      (head : Writes options p (.child mode t) t' vs)
      (tail : Writes options (mode.after t p) (.parts modes ts) ts' us) :
      Writes options p (.parts (mode :: modes) (.cons t ts)) (.cons t' ts') (vs ++ us)
  | skip {p c} {t : Tree c} : Writes options p (.child .skip t) t []
  | told {p c brief fs vs} {t t' : Tree c} (node : Writes options p (.node t brief) (t', fs) vs) :
      Writes options p (.child (.told brief) t) (t'.followedBy fs) vs
  | toldMany {p c brief vs ts'} {t : Many c}
      (each : Writes options p (.each brief t.toList) ts' vs) :
      Writes options p (.child (.told brief) t) (.ofList ts') vs
  | toldAbsent {p c brief} :
      Writes options p (.child (.told brief) (Tree.absent (c := c))) .absent []
  | toldPresent {p c brief vs} {t t' : Tree c}
      (present : Writes options p (.child (.told brief) t) t' vs) :
      Writes options p (.child (.told brief) (.present t)) (.present t') vs
  | list {p stmts out vs}
      (stmts' : Writes options (p.entering stmts.toList) (.stmts stmts.toList) out vs) :
      Writes options p (.child .list stmts) (.ofList out) vs
  | top {p stmts out vs}
      (stmts' : Writes options (p.opening stmts.toList) (.stmts stmts.toList) out vs) :
      Writes options p (.child .top stmts) (.ofList out) vs
  | inScope {p c mode vs} {t t' : Tree c} (child : Writes options p.inner (.child mode t) t' vs) :
      Writes options p (.child (.inScope mode) t) t' vs
  | generic {p c names access mode vs} {t t' : Tree c}
      (child : Writes options (p.under names access) (.child mode t) t' vs) :
      Writes options p (.child (.generic names access mode) t) t' vs
  | eachNil {p c brief} : Writes options p (.each (c := c) brief []) [] []
  | eachCons {p c brief vs us ts ts'} {t t' : Tree c}
      (head : Writes options p (.child (.told brief.head) t) t' vs)
      (tail : Writes options (t.after p) (.each brief.tail ts) ts' us) :
      Writes options p (.each brief (t :: ts)) (t' :: ts') (vs ++ us)
  | stmtsNil {p} : Writes options p (.stmts []) [] []
  | stmtsCons {p s s' fs rest out vs us} (head : Writes options p (.node s .none) (s', fs) vs)
      (tail : Writes options (s.after p) (.stmts rest) out us) :
      Writes options p (.stmts (s :: rest)) (s' :: fs ++ out) (vs ++ us)

/-! ### From the state to the point -/

/-- The frames below the innermost one. -/
def Walker.outerFrames (w : Walker) : List Frame := w.context.frames.below

namespace Walker

variable (w : Walker)

@[simp] theorem frames_pushGenerics (names : List String) (access : ParamAccess) :
    (w.pushGenerics names access).context.frames = w.context.frames := by
  unfold pushGenerics
  split <;> rfl

@[simp] theorem frames_popGenerics (names : List String) :
    (w.popGenerics names).context.frames = w.context.frames := by
  unfold popGenerics
  split <;> rfl

@[simp] theorem frames_declareAll (names : List String) :
    (w.declareAll names).context.frames = w.context.frames :=
  (Effect.of_declareAll w names).frames

end Walker

namespace Tree

variable {c : Category} (t : Tree c) (w : Walker)

@[simp] theorem frames_enter : (t.enter w).context.frames = w.context.frames := by
  rw [enter, Walker.frames_pushGenerics]
  split <;> rfl

@[simp] theorem frames_leave : (t.leave w).context.frames = w.context.frames := by
  rw [← w.frames_popGenerics t.generics, leave]
  split <;> rfl

end Tree

theorem Tree.after_of_inert {c} {t : Tree c} (h : t.isInert = true) (p : Point) :
    t.after p = t.afterParts p := by
  match t, h with
  | .node form marks ts, h =>
    cases c with
    | stmt => cases h
    | forInit =>
      match form, marks, ts, h with
      | .absent, .none, .nil, _ | .expr, .none, .cons _ .nil, _ => rfl
      | .decl, .none, .cons _ .nil, h => cases h
    | _ => rfl

theorem Mode.frame_after_of_still {c} (h : c.changesFrame = false) (t : Tree c) (mode : Mode)
    (p : Point) : (mode.after t p).frame = p.frame := by
  induction mode with
  | told => exact t.frame_after h p
  | top => exact t.frame_after h _
  | generic _ _ _ ih => exact ih
  | _ => rfl

theorem Walker.wasVisited_recordStmt (w : Walker) (s : Stmt) :
    (w.recordStmt s).context.wasVisited = w.context.wasVisited := by
  rw [recordStmt]
  split <;> rfl

theorem Point.Tracks.recordStmt {p : Point} {options w} (h : p.Tracks options w) (s : Stmt) :
    p.Tracks options (w.recordStmt s) := by
  rw [Walker.recordStmt]
  split
  · exact ⟨h.scope, h.frame⟩
  · exact h

theorem Walker.outerFrames_recordStmt (w : Walker) (s : Stmt) :
    (w.recordStmt s).outerFrames = w.outerFrames := by
  rw [recordStmt]
  split <;> rfl

/-- Nothing has been entered that a statement keeps count of. -/
theorem Task.Ready.unvisited {s : Stmt} {w} (h : (Task.node s .none).Ready w) :
    ∀ i ∈ s.counted, w.context.wasVisited i = false := by
  intro i hi
  rw [← Bool.not_eq_true, Context.wasVisited_iff]
  rintro (rfl | seen)
  · exact h.zero hi
  · have none : s.heads = [] := s.heads_of_closed rfl
    have early : i ∈ s.heads := h.fresh i hi seen
    rw [none] at early
    cases early

/-- Where nothing in a statement has been entered, all of its functions are visited with it. -/
theorem stmtVisits_of_fresh {p w} {s : Stmt} (own : w.context.wasVisited s.mark.id = false)
    (heads : ∀ i ∈ (Task.inner s .none).heads, w.context.wasVisited i = false) :
    stmtVisits p w s = s.visits p := by
  rw [stmtVisits_eq own, Walker.news, filter_eq_self.2 fun v hv => ?_]
  · rfl
  · simp [heads _ ((s.visits_sublist _).of_cons_cons.subset (mem_map_of_mem hv))]

theorem Stmt.counted_eq (s : Stmt) (brief : Brief) :
    s.counted = s.mark.id :: (Task.inner s brief).counted :=
  s.goesBy _

theorem Stmt.heads_unvisited {s : Stmt} {w : Walker}
    (fresh : ∀ i ∈ s.counted, w.context.wasVisited i = false) :
    ∀ i ∈ (Task.inner s .none).heads, w.context.wasVisited i = false := by
  intro i hi
  refine fresh i ?_
  rw [Stmt.counted_eq s .none]
  exact mem_cons_of_mem _ ((Task.heads_sublist _).subset hi)

theorem Stmt.after_eq (s : Stmt) (p : Point) : s.after p = s.afterParts (p.passing s) := by
  match s with
  | .node (c := .stmt) form marks ts => rfl

/-- The parts of a tree for which nothing is worked out have the functions of the tree at their
head. -/
theorem Tree.heads_of_inert {c} {t : Tree c} (h : t.isInert = true) (brief : Brief) :
    ∀ i ∈ (Task.inner t brief).counted, i ∈ t.heads → i ∈ (Task.inner t brief).heads := by
  match t, h with
  | .node form marks ts, h =>
    intro i hi early
    have own : form.nodeIds marks ts = [] ∨ Form.isFunc c form = false := by
      cases c with
      | func => cases h
      | _ => exact .inr rfl
    change i ∈ if c.isLeft then [] else ts.heads
    change i ∈ if c.isLeft then [] else ts.idsOf _ _ at hi
    split at hi
    · cases hi
    case isFalse entered =>
      rw [if_neg entered]
      rw [Tree.heads, idsOf_node] at early
      split at early
      · cases early
      · rcases own with none | none <;> simpa [Children.heads, none] using early

/-- What is shown of a walk without errors: what it writes, and the state that it leads to. -/
def Task.Written (options : Options) (p : Point) (k : Task) (w : Walker) (out : k.Out) (w' : Walker)
    (vs : List Visit) : Prop :=
  w'.errors = [] → k.Ready w → p.Tracks options w → Writes options p k out vs ∧
    (k.after p).Tracks options w' ∧ w'.outerFrames = w.outerFrames

/-- A task that is two tasks, one after the other. -/
theorem Task.Ready.inTurn {options p} {k k₁ k₂ : Task} {w w₁ w₂ out₁ out₂ vs₁ vs₂}
    (ready : k.Ready w) (head : Walks p k₁ w out₁ w₁ vs₁)
    (tail : Walks (k₁.after p) k₂ w₁ out₂ w₂ vs₂) (ihHead : k₁.Written options p w out₁ w₁ vs₁)
    (ihTail : k₂.Written options (k₁.after p) w₁ out₂ w₂ vs₂)
    (split : k.Splits k₁ k₂) (keeps : k₁.Keeps ∧ k₂.Keeps) (clean : w₂.errors = []) (tracks : p.Tracks options w) :
    Writes options p k₁ out₁ vs₁ ∧ Writes options (k₁.after p) k₂ out₂ vs₂ ∧
      (k₂.after (k₁.after p)).Tracks options w₂ ∧ w₂.outerFrames = w.outerFrames := by
  have between := tail.clean clean
  obtain ⟨writes₁, after₁, below₁⟩ := ihHead between (ready.first split keeps.1) tracks
  obtain ⟨writes₂, after₂, below₂⟩ := ihTail clean
    (ready.second split keeps.2 (head.covers between keeps.1)) after₁
  exact ⟨writes₁, writes₂, after₂, below₂.trans below₁⟩

/-- **What a walk without errors writes**, and the state that it leads to. -/
theorem Walks.writes {options p k w w' out vs} (h : Walks p k w out w' vs) :
    k.Written options p w out w' vs := by
  induction h with
  | @inert p _ _ c _ t _ brief hi inner ih =>
    intro clean ready tracks
    have keeps : (Task.inner t brief).Keeps := ⟨isSeries_of_inert hi, ready.keeps⟩
    have counted : t.counted = (Task.inner t brief).counted := idsOf_of_inert hi _
    obtain ⟨writes, after, frames⟩ :=
      ih clean (ready.of_ids keeps counted (heads_of_inert hi brief) rfl) tracks
    refine ⟨.inert hi writes, ?_, frames⟩
    change (t.after p).Tracks options _
    rw [after_of_inert hi]
    exact after
  | @stmt p w w₁ _ s _ plan _ _ run inner ih =>
    intro clean ready tracks
    obtain ⟨-, once⟩ := planStmtOnce_clean run (inner.clean clean)
    have unvisited := ready.unvisited
    have own : w.context.wasVisited s.mark.id = false :=
      unvisited _ (by rw [Stmt.counted_eq s .none]; exact mem_cons_self)
    cases once with
    | visited hv =>
      rw [own] at hv
      cases hv
    | @fresh _ _ w₂ _ planned =>
      obtain ⟨scope, frames⟩ := w₂.map_markVisited s.mark.id
      have passed := (tracks.recordStmt s).passes planned.passes
      rw [(tracks.recordStmt s).frame] at passed
      have there : (p.passing s).Tracks options (w₂.map (·.markVisited s.mark.id)) :=
        ⟨scope ▸ passed.scope, (congrArg Stack.top frames).trans passed.frame⟩
      have nodup : ((s.visits p).map Visit.id).Nodup := by
        have counted : s.counted.Nodup := ready.nodup
        rw [s.counted_eq .none] at counted
        exact counted.sublist ((s.visits_sublist _).trans ((Task.heads_sublist _).cons_cons _))
      have id_ne : s.mark.id ≠ 0 := fun zero => by
        rw [Context.wasVisited_iff.2 (.inl zero)] at own
        cases own
      have partsReady : (Task.inner s (.inits plan.initPlans)).Ready
          (w₂.map (·.markVisited s.mark.id)) := by
        refine ready.parts ⟨rfl, planned.keeps⟩ s.goesBy ?_
          (s.news_subset (p := p) (w := w.recordStmt s) _) ?_
        · intro i hi
          rw [heads_of_closed s rfl] at hi
          cases hi
        · intro i hi
          rw [(Effect.of_mark w₂ id_ne).visited, (planned.notes nodup).visited, mem_singleton] at hi
          rw [show (w.recordStmt s).context.visited = w.context.visited by
            rw [Walker.recordStmt]; split <;> rfl] at hi
          tauto
      obtain ⟨writes, after, below⟩ := ih clean partsReady there
      refine ⟨?_, ?_, ?_⟩
      · rw [stmtVisits_of_fresh own (Stmt.heads_unvisited unvisited)]
        refine .stmt (tracks.recordStmt s) ready.nodup ?_ planned inner.outlined writes
        rwa [w.wasVisited_recordStmt]
      · change (s.after p).Tracks options _
        rw [Stmt.after_eq]
        exact after
      · rw [below, ← w.outerFrames_recordStmt s, Walker.outerFrames, frames, planned.passes.frames]
        rfl
  | @func p w w₁ _ f _ role r _ planned inner ih =>
    intro clean ready tracks
    have still : f.after p = p := f.after_still rfl p
    obtain ⟨plan, rfl, same, ⟨hv, rfl, rfl⟩ | ⟨hv, hp, effect⟩⟩ :=
      planFuncOnce_clean planned (inner.clean clean)
    · have partsReady : (Task.inner f .none).Ready w₁ := by
        refine ready.parts ⟨rfl, trivial⟩ f.goesBy ?_ (nil_subset _) ?_
        · simp [Func.heads_eq]
        · exact fun i hi => .inl hi
      obtain ⟨writes, after, below⟩ := ih clean partsReady tracks
      refine ⟨?_, after, below⟩
      rw [funcVisits, if_pos hv]
      exact .entered inner.outlined writes
    · have partsReady : (Task.inner f .none).Ready w₁ := by
        refine ready.parts ⟨rfl, trivial⟩ f.goesBy ?_ (nil_subset _) ?_
        · simp [Func.heads_eq]
        · intro i hi
          rw [effect.visited, mem_singleton] at hi
          exact hi.imp_right .inl
      have there : p.Tracks options w₁ := ⟨effect.scope ▸ tracks.scope, by
        rw [← tracks.frame, Context.frame, effect.frames]
        rfl⟩
      rw [same] at ih
      obtain ⟨writes, after, below⟩ := ih clean partsReady there
      refine ⟨?_, after, ?_⟩
      · rw [funcVisits, if_neg (by simp [hv])]
        exact .func tracks.scope hp inner.outlined writes
      · rw [below, Walker.outerFrames, effect.frames]
        rfl
  | @header p w w₁ _ decl decl' plans _ planned inner ih =>
    intro clean ready tracks
    obtain ⟨form, _ | mark, _ | ⟨ds, _ | _⟩⟩ := decl
    have own : mark.id ∈ (Task.node (ForInit.decl (VarDecl.mk mark form ds)) .none).counted :=
      mem_cons_self
    obtain ⟨-, ⟨hv, -, -⟩ | ⟨hv, hp, effect⟩⟩ :=
      planVarOnce_clean rfl planned (inner.clean clean)
    · rcases Context.wasVisited_iff.1 hv with zero | seen
      · rw [show mark.id = 0 from zero] at own
        exact (ready.zero own).elim
      · exact (not_mem_nil (ready.fresh mark.id own seen)).elim
    · have partsReady : (Task.inner (ForInit.decl (VarDecl.mk mark form ds)) (.inits plans)).Ready
          w₁ := by
        refine ready.parts ⟨rfl, keeps_of_inits hp⟩ (fun _ => rfl) (fun i hi => (not_mem_nil hi).elim)
          (nil_subset _) ?_
        intro i hi
        rw [effect.visited, mem_singleton] at hi
        exact hi.imp_right .inl
      obtain ⟨writes, after, below⟩ := ih clean partsReady (tracks.passes (.of_effect effect))
      refine ⟨?_, after, ?_⟩
      · have alike : Alike (.tree .varDecl) (VarDecl.mk mark form ds) decl' := by
          cases inner.outlined with
          | mk parts =>
          cases parts with
          | partsCons head _ => exact head
        rw [headerVisits, if_neg (by simp [hv])]
        exact .header rfl tracks.scope hp alike writes
      · rw [below, Walker.outerFrames, effect.frames]
        rfl
  | @inner p w _ c _ form marks brief ts _ hd parts ih =>
    rintro clean ready tracks
    obtain ⟨series, keeps⟩ := ready.keeps
    have partsReady : (Task.parts (form.modes marks ts brief) ts).Ready
        ((Tree.node form marks ts).enter w) :=
      ready.of_same (form.modes_keep series marks ts keeps)
        (form.sameIds_modes series marks ts keeps) (by simp)
    obtain ⟨writes, after, below⟩ := ih (by simpa using clean) partsReady (tracks.enter _)
    refine ⟨.inner hd writes, after.leave series, ?_⟩
    rw [Walker.outerFrames, Walker.outerFrames, frames_leave] at *
    simpa [Walker.outerFrames] using below
  | @doWhile p _ _ _ site test _ body _ brief _ _ first second ihFirst ihSecond =>
    intro clean ready tracks
    obtain ⟨writes₁, writes₂, after, below⟩ := ready.inTurn first second ihFirst ihSecond
      (Task.splits_doWhile _) ⟨trivial, trivial⟩ clean tracks
    refine ⟨.doWhile writes₁ writes₂, ?_, below⟩
    change (body.after (test.after p)).Tracks options _
    rw [test.after_still rfl]
    change (test.after (body.after p)).Tracks options _ at after
    rwa [test.after_still rfl] at after
  | partsNil => exact fun _ _ tracks => ⟨.partsNil, tracks, rfl⟩
  | skip => exact fun _ _ tracks => ⟨.skip, tracks, rfl⟩
  | eachNil => exact fun _ _ tracks => ⟨.eachNil, tracks, rfl⟩
  | stmtsNil => exact fun _ _ tracks => ⟨.stmtsNil, tracks, rfl⟩
  | partsCons head tail ihHead ihTail =>
    intro clean ready tracks
    obtain ⟨writes₁, writes₂, after⟩ := ready.inTurn head tail ihHead ihTail
      (fun _ _ _ => .refl _) (forall_mem_cons.1 ready.keeps) clean tracks
    exact ⟨.partsCons writes₁ writes₂, after⟩
  | told _ ih =>
    intro clean ready tracks
    obtain ⟨writes, after⟩ := ih clean (ready.of_ids ready.keeps rfl (fun _ _ hi => hi) rfl) tracks
    exact ⟨.told writes, after⟩
  | @toldMany p _ _ _ brief _ _ t _ ih =>
    intro clean ready tracks
    obtain ⟨writes, after, below⟩ :=
      ih clean (ready.of_same ready.keeps (Task.sameIds_many brief t) rfl) tracks
    refine ⟨.toldMany writes, ?_, below⟩
    change (t.after p).Tracks options _
    rw [after_many]
    exact after
  | @toldPresent p _ _ _ brief _ t _ _ ih =>
    intro clean ready tracks
    obtain ⟨writes, after⟩ :=
      ih clean (ready.of_same ready.keeps (Task.sameIds_present brief t) rfl) tracks
    exact ⟨.toldPresent writes, after⟩
  | @list p w w₁ stmts out _ _ ih =>
    intro clean ready tracks
    have there : (p.entering stmts.toList).Tracks options
        ((w.map (·.pushFrame stmts.toList)).declareAll (stmts.toList.flatMap Stmt.hoisted)) := by
      have pushed : Point.Tracks { p with frame := Frame.ofStmts stmts.toList } options
          (w.map (·.pushFrame stmts.toList)) := ⟨tracks.scope.congr rfl rfl, rfl⟩
      have declared := pushed.declareAll (stmts.toList.flatMap Stmt.hoisted)
      exact ⟨declared.scope.congr rfl rfl, declared.frame⟩
    obtain ⟨writes, after, below⟩ := ih clean (ready.of_same trivial
      (Task.sameIds_stmts rfl stmts) (by simp; rfl)) there
    have frames : (w₁.map Context.popFrame).context.frames = w.context.frames := by
      change w₁.context.frames.pop = _
      rw [Walker.outerFrames, Walker.outerFrames, Walker.frames_declareAll] at below
      rw [Stack.pop, show w₁.context.frames.below = w.context.frames.toList from below]
      rfl
    refine ⟨.list writes, ⟨?_, ?_⟩, congrArg Stack.below frames⟩
    · change (p.resuming (stmts.after (p.entering stmts.toList))).Describes options _
      have aligned := stmts.after_aligned (p.entering stmts.toList)
      rw [after_many] at aligned ⊢
      refine after.scope.congr ?_ aligned.generics
      exact congrArg (fun below => _ :: below.map Region.names) aligned.below
    · exact (congrArg Stack.top frames).trans tracks.frame
  | @top p w _ stmts out _ _ ih =>
    intro clean ready tracks
    have there : (p.opening stmts.toList).Tracks options
        (w.declareAll (stmts.toList.flatMap Stmt.hoisted)) := by
      have declared := tracks.declareAll (stmts.toList.flatMap Stmt.hoisted)
      exact ⟨declared.scope.congr rfl rfl, declared.frame⟩
    obtain ⟨writes, after, below⟩ := ih clean (ready.of_same trivial
      (Task.sameIds_stmts rfl stmts) (by simp)) there
    refine ⟨.top writes, ?_, ?_⟩
    · change (stmts.after (p.opening stmts.toList)).Tracks options _
      rw [after_many]
      exact after
    · rw [below, Walker.outerFrames, Walker.frames_declareAll]
      rfl
  | @inScope p w _ c mode _ t _ still _ ih =>
    intro clean ready tracks
    obtain ⟨writes, after, below⟩ :=
      ih clean (ready.of_ids ready.keeps rfl (fun _ _ hi => hi) rfl) tracks.inner
    refine ⟨.inScope writes, ?_, below⟩
    have aligned := Mode.after_aligned t mode p.inner
    have frame := Mode.frame_after_of_still still t mode p.inner
    change (mode.after t p.inner).Tracks options _ at after
    change p.Tracks options _
    generalize mode.after t p.inner = q at aligned frame after
    obtain ⟨⟨top, below⟩, gs, f⟩ := q
    obtain ⟨rfl, rfl⟩ := aligned
    obtain rfl := frame
    exact after.popScope
  | @generic p w _ c names access mode _ t _ _ ih =>
    intro clean ready tracks
    obtain ⟨writes, after, below⟩ := ih (by simpa using clean)
      (ready.of_ids ready.keeps rfl (fun _ _ hi => hi) (by simp)) (tracks.under names access)
    refine ⟨.generic writes, ?_, ?_⟩
    · change (mode.after t (p.reaching (Generics.under names access p.generics))).Tracks options _
        at after
      rw [Mode.after_reaching] at after
      have same : (mode.after t p).reaching p.generics = mode.after t p := by
        rw [← (Mode.after_aligned t mode p).generics]
        rfl
      change (mode.after t p).Tracks options _
      rw [← same]
      exact after.popGenerics
    · rw [Walker.outerFrames, Walker.frames_popGenerics]
      refine below.trans ?_
      rw [Walker.outerFrames, Walker.frames_pushGenerics]
      rfl
  | eachCons head tail ihHead ihTail =>
    intro clean ready tracks
    obtain ⟨writes₁, writes₂, after⟩ := ready.inTurn head tail ihHead ihTail
      (fun _ _ _ => .refl _) ⟨Brief.Keeps.head ready.keeps, Brief.Keeps.tail ready.keeps⟩ clean tracks
    exact ⟨.eachCons writes₁ writes₂, after⟩
  | stmtsCons head tail ihHead ihTail =>
    intro clean ready tracks
    obtain ⟨writes₁, writes₂, after⟩ := ready.inTurn head tail ihHead ihTail
      (fun _ _ _ => .refl _) ⟨trivial, trivial⟩ clean tracks
    exact ⟨.stmtsCons writes₁ writes₂, after⟩
  | _ => exact fun _ _ tracks => ⟨.toldAbsent, tracks, rfl⟩

/-- What is written has the outline of what is walked. -/
theorem Writes.outlined {options p k out vs} (h : Writes options p k out vs) : k.Outlined out := by
  induction h with
  | inert _ _ ih => exact .of_root ih
  | func _ _ _ _ ih => exact applyFuncPlan_alike _ ih
  | entered _ _ ih => exact .of_root ih
  | inner _ _ ih => exact .mk ih
  | doWhile _ _ first second => exact .mk (.partsCons second (.partsCons first .partsNil))
  | partsNil => exact .partsNil
  | partsCons _ _ head tail => exact .partsCons head tail
  | skip | toldAbsent => exact .refl _
  | @told _ c _ _ _ _ _ _ ih =>
    cases c with
    | stmt => exact .loose rfl
    | _ => exact ih
  | toldMany _ ih =>
    have whole := Alike.many ih
    rwa [ofList_toList] at whole
  | toldPresent _ ih => exact .of_parts (.partsCons ih .partsNil)
  | inScope _ ih | generic _ ih => exact ih
  | eachNil => exact .listNil
  | eachCons _ _ head tail => exact .listCons head tail
  | stmtsNil | stmtsCons => trivial
  | _ => exact .loose rfl

/-! ### Statements of a list -/

namespace Writes

variable {options : Options} {p : Point} {vs : List Visit}

/-- What is written for a statement: its plan, on what is written for its parts. -/
theorem stmt_inv {s s' : Stmt} {fs} (h : Writes options p (.node s .none) (s', fs) vs) :
    ∃ w w' s'' plan us, p.Tracks options w ∧ s.counted.Nodup ∧
      (∀ i ∈ s.counted, w.context.wasVisited i = false) ∧ Planned w s plan fs w' ∧
      SameRoot s s'' ∧ Writes options (p.passing s) (.inner s (.inits plan.initPlans)) s'' us ∧
      s' = plan.apply s'' ∧ vs = s.visits p ++ us := by
  cases h with
  | inert h => cases h
  | stmt tracks nodup fresh planned root inner =>
    exact ⟨_, _, _, _, _, tracks, nodup, fresh, planned, root, inner, rfl, rfl⟩

/-- What is written for a statement of a list stands between what is written for those before it and
what is written for those after it. -/
theorem stmts_split {before after out} {s : Stmt}
    (h : Writes options p (.stmts (before ++ s :: after)) out vs) :
    ∃ pre s' fs post us, out = pre ++ (s' :: fs) ++ post ∧
      Writes options (afterAll before p) (.node s .none) (s', fs) us := by
  induction before generalizing p out vs with
  | nil =>
    cases h with
    | stmtsCons head tail => exact ⟨[], _, _, _, _, rfl, head⟩
  | cons b before ih =>
    cases h with
    | @stmtsCons _ _ b' fs' _ _ _ _ head tail =>
      obtain ⟨pre, s', fs, post, us, rfl, writes⟩ := ih tail
      exact ⟨b' :: fs' ++ pre, s', fs, post, us, by simp, writes⟩

end Writes

theorem StmtPlan.mark_apply (plan : StmtPlan) (s : Stmt) : (plan.apply s).mark = s.mark := by
  match s with
  | .node (c := .stmt) form marks ts =>
    cases form with
    | classDecl | funcDecl | varDecl =>
      match marks, ts with
      | .one _, .cons _ .nil => cases plan <;> rfl
    | _ => cases plan <;> rfl

theorem SameRoot.mark_eq {c} {t t' : Tree c} (h : SameRoot t t') : t'.mark = t.mark := by
  cases h
  rfl

theorem Point.tracks_start (options : Options) (unit : SourceUnit) :
    (Point.start unit).Tracks options { context := .start options unit } := by
  match unit with
  | SourceUnit.mk _ _ => exact ⟨⟨rfl, .cons (fun _ => Iff.rfl) .nil, rfl⟩, rfl⟩

/-- A walk over a unit whose nodes have distinct numbers can be done. -/
theorem SourceUnit.ready (options : Options) {unit : SourceUnit} (original : unit.Original)
    (distinct : (unit.marks.map Mark.id).Nodup) :
    (Task.node unit .none).Ready { context := .start options unit } where
  keeps := trivial
  nodup := distinct.sublist (unit.idsOf_sublist _ _)
  zero hz := by
    obtain ⟨m, hm, h0⟩ := mem_map.1 ((unit.idsOf_sublist _ _).subset hz)
    exact original m hm h0
  fresh i _ seen := by
    have none : ({ context := .start options unit } : Walker).context.visited = [] :=
      congrArg Ledger.visited (ledger_start options unit)
    rw [none] at seen
    cases seen

/-- The statements of a unit are written one after another. -/
theorem Writes.unit_inv {options p mark stmts} {walked : SourceUnit} {vs}
    (h : Writes options p (.node (SourceUnit.mk mark stmts) .none) (walked, []) vs) :
    ∃ out, Writes options (p.opening stmts.toList) (.stmts stmts.toList) out vs ∧
      walked = SourceUnit.mk mark (.ofList out) := by
  cases h with
  | inert _ inner =>
  cases inner with
  | inner _ parts =>
  cases parts with
  | partsCons head tail =>
  cases tail
  cases head with
  | @top _ _ out _ writes =>
    rw [append_nil]
    exact ⟨out, writes, rfl⟩

/-- The statements of a unit. -/
def SourceUnit.stmtList : SourceUnit → List Stmt
  | SourceUnit.mk _ stmts => stmts.toList

/-- **The walk over a unit**, where instrumenting it reports nothing: it visits exactly the nodes that
it keeps count of. -/
theorem instrument_visits {options unit out w} (original : unit.Original)
    (distinct : (unit.marks.map Mark.id).Nodup)
    (run : (instrument unit).run { context := .start options unit } = (out, w))
    (clean : w.errors = []) :
    ∃ walked w' vs,
      Walks (.start unit) (.node unit .none) { context := .start options unit } (walked, []) w' vs ∧
      Writes options (.start unit) (.node unit .none) (walked, []) vs ∧
      out = SourceUnit.withImports options walked ∧ (vs.map Visit.id).Perm unit.counted ∧
      w.context.mutations.Perm (unit.recorded Category.isLeft) := by
  obtain ⟨walked, w', walk, clean', same, rfl⟩ := instrument_clean run clean
  obtain ⟨vs, walks⟩ := SourceUnit.walks unit { context := .start options unit }
  rw [walk] at walks
  obtain ⟨writes, tracks, -⟩ := walks.writes clean' (SourceUnit.ready options original distinct)
    (Point.tracks_start options unit)
  obtain ⟨-, visits, recorded⟩ := SourceUnit.covered original distinct walks clean'
  exact ⟨walked, w', vs, walks, writes, by rw [tracks.scope.options], visits,
    same ▸ recorded⟩

/-- **What instrumenting a unit without errors writes**: its statements, with the imports in
front. -/
theorem instrument_writes {options unit out w} (original : unit.Original)
    (distinct : (unit.marks.map Mark.id).Nodup)
    (run : (instrument unit).run { context := .start options unit } = (out, w))
    (clean : w.errors = []) :
    ∃ out' vs, Writes options ((Point.start unit).opening unit.stmtList) (.stmts unit.stmtList)
        out' vs ∧ (vs.map Visit.id).Perm unit.counted ∧
      out = SourceUnit.mk unit.mark (.ofList (libraryImports options unit.mark.loc ++ out')) := by
  obtain ⟨_, _, vs, -, writes, rfl, visits, -⟩ := instrument_visits original distinct run clean
  obtain ⟨_, _ | mark, _ | ⟨stmts, _ | _⟩⟩ := unit
  obtain ⟨out', inside, rfl⟩ := writes.unit_inv
  refine ⟨out', vs, inside, visits, ?_⟩
  rw [SourceUnit.withImports, toList_ofList]
  rfl

end Reify
