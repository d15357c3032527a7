import Reify.Instrument
import Reify.Proofs.Check.Function

/-!
# What is worked out for a statement

`Planned w s plan fs w'` says what the walk can work out for the statement `s` in the state `w`:
the plan for the statement itself, the statements that follow it and the state afterwards.  It has
one rule for each kind of declaration and each way it can be dealt with, and covers every
computation that succeeds (`planStmt_ok`), so that no later proof opens the planning functions.
-/

namespace Reify

/-! ### Members of a class -/

/-- What can be worked out for a member of a class. -/
inductive PlansMember (className : Option String) (names : List String) :
    Walker → ClassMember → MemberPlan → Walker → Prop where
  | visited {w mark form decorators key type m kind f} (hv : w.context.wasVisited f.mark.id = true) :
      PlansMember className names w
        (ClassMember.mk mark form decorators key type (MemberVal.function m kind f)) .keep w
  | func {w w' mark form decorators key type m kind f member plan}
      (hm : member = ClassMember.mk mark form decorators key type (MemberVal.function m kind f))
      (hv : w.context.wasVisited f.mark.id = false)
      (planned : funcPlanOf
        (w.context.scope.withGenerics names (ClassMember.access className member))
        (ClassMember.role member) f = .ok plan)
      (effect : Effect w w' [f.mark.id] [f.mark.id] [] id) :
      PlansMember className names w member ((plan.map MemberPlan.check).getD .keep) w'
  | property {w mark form decorators key type value member t e}
      (hm : member = ClassMember.mk mark form decorators key type (MemberVal.property value))
      (typed : checked? type = some t)
      (reflected : (w.context.scope.withGenerics names
        (ClassMember.access className member)).reflect t = .ok e) :
      PlansMember className names w member
        (.decorate (Synthetic.decorator mark.loc (w.context.scope.libraryCall mark.loc "decorate"
          [deferredReflection mark.loc e]))) w
  | untyped {w mark form decorators key type value} (untyped : checked? type = none) :
      PlansMember className names w
        (ClassMember.mk mark form decorators key type (MemberVal.property value)) .keep w
  | index {w mark form decorators key type m name k v} :
      PlansMember className names w
        (ClassMember.mk mark form decorators key type (MemberVal.index m name k v)) .keep w

/-- What can be worked out for the members of a class. -/
inductive PlansMembers (className : Option String) (names : List String) :
    Walker → List ClassMember → List MemberPlan → Walker → Prop where
  | nil {w} : PlansMembers className names w [] [] w
  | cons {w w₁ w₂ m ms plan plans} (head : PlansMember className names w m plan w₁)
      (tail : PlansMembers className names w₁ ms plans w₂) :
      PlansMembers className names w (m :: ms) (plan :: plans) w₂

theorem Walker.scope_pushGenerics (w : Walker) (names : List String) (access : ParamAccess) :
    (w.pushGenerics names access).context.scope = w.context.scope.withGenerics names access := by
  unfold Walker.pushGenerics Scope.withGenerics
  split <;> rfl

theorem Walker.visited_pushGenerics (w : Walker) (names : List String) (access : ParamAccess)
    (i : Nat) :
    (w.pushGenerics names access).context.wasVisited i = w.context.wasVisited i := by
  unfold Walker.pushGenerics
  split <;> rfl

theorem Walker.popGenerics_pushGenerics (w : Walker) (names : List String) (access : ParamAccess) :
    (w.pushGenerics names access).popGenerics names = w := by
  unfold Walker.pushGenerics Walker.popGenerics
  split <;> rfl

section

variable {className : Option String} {names : List String} {w w' : Walker}

theorem planMember_property {mark form decorators key type value member}
    (hm : member = ClassMember.mk mark form decorators key type (MemberVal.property value)) :
    planMember className names member =
      match checked? type with
      | none => return .ok .keep
      | some t => Walk.reflect fun s => do
        let reflection ← (s.withGenerics names (ClassMember.access className member)).reflect t
        return .decorate (Synthetic.decorator mark.loc (s.libraryCall mark.loc "decorate"
          [deferredReflection mark.loc reflection])) := by
  subst hm
  rfl

theorem planMember_ok {m plan} (h : (planMember className names m).run w = (.ok plan, w')) :
    PlansMember className names w m plan w' := by
  match m, h with
  | ClassMember.mk mark form decorators key type (MemberVal.function fm kind f), h =>
    rw [planMember] at h
    obtain ⟨r, w₁, run, h⟩ := run_bind h
    rw [Walk.run_withGenerics] at run
    rcases planned : (planFuncOnce _ f).run (w.pushGenerics names _) with ⟨p, w₂⟩
    rw [planned] at run
    cases run
    cases p with
    | error u => cases h
    | _ =>
      cases h
      rcases planFuncOnce_ok planned with ⟨hv, rfl, rfl⟩ | ⟨hv, hp, effect⟩
      · rw [Walker.visited_pushGenerics] at hv
        rw [Walker.popGenerics_pushGenerics]
        exact .visited hv
      · rw [Walker.visited_pushGenerics] at hv
        rw [Walker.scope_pushGenerics] at hp
        exact .func rfl hv hp (.of_generics effect)
  | ClassMember.mk mark form decorators key type (MemberVal.property value), h =>
    rw [planMember_property rfl] at h
    cases typed : checked? type with
    | none =>
      rw [typed] at h
      cases h
      exact .untyped typed
    | _ =>
      rw [typed] at h
      obtain ⟨hp, rfl⟩ := Prod.mk.inj h
      obtain ⟨e, he, rfl⟩ := bind_pure_eq_ok.1 hp
      exact .property rfl typed he
  | ClassMember.mk mark form decorators key type (MemberVal.index im name k v), h =>
    cases h
    exact .index

theorem planMembers_ok {ms plans}
    (h : (planMembers className names ms).run w = ((plans, .ok ()), w')) :
    PlansMembers className names w ms plans w' := by
  induction ms generalizing w plans with
  | nil =>
    cases h
    exact .nil
  | cons m ms ih =>
    rw [planMembers] at h
    obtain ⟨r, w₁, head, h⟩ := run_bind h
    cases r with
    | error u => cases h
    | _ =>
      obtain ⟨⟨plans', r⟩, w₂, tail, h⟩ := run_bind h
      cases h
      exact .cons (planMember_ok head) (ih tail)

end

/-! ### The rest of a class -/

/-- The name of a class that has type parameters. -/
def ClassDecl.generic? : ClassDecl → Option String
  | decl@(ClassDecl.mk _ _ _ _ typeParams _ _ _ _) =>
    (ClassDecl.name? decl).filter fun _ => !(typeParams.toLists.map TypeParam.name).isEmpty

/-- The parts of what is added to a class beside its members. -/
theorem planFinish_ok
    {s reflection decl finish mark form decorators name typeParams base baseArgs implemented members}
    (hd : decl = ClassDecl.mk mark form decorators name typeParams base baseArgs implemented members)
    (h : planFinish s reflection decl = .ok finish) :
    ∃ checks params,
      implementsChecks s mark.loc (ClassDecl.name? decl) (typeParams.toLists.map TypeParam.name)
        implemented.toList = .ok checks ∧
      (ClassDecl.generic? decl).toList.mapM
        (paramStmts s mark.loc · typeParams.toLists baseArgs.toLists) = .ok params ∧
      finish = {
        constructor := { loc := mark.loc, params := params.head?, implemented := checks }
        symbol := (ClassDecl.generic? decl).map (symbolMember s mark.loc)
        reflection := Synthetic.decorator mark.loc
          (s.libraryCall mark.loc "annotate" [reflection]) } := by
  subst hd
  rw [planFinish] at h
  obtain ⟨checks, hc, h⟩ := bind_eq_ok.1 h
  rw [ClassDecl.generic?]
  dsimp only at h
  generalize (ClassDecl.name? _).filter _ = generic at h ⊢
  cases generic with
  | none =>
    obtain rfl := pure_eq_ok.1 h
    exact ⟨checks, [], hc, rfl, rfl⟩
  | _ =>
    obtain ⟨params, hp, h⟩ := bind_eq_ok.1 h
    obtain ⟨p, planned, rfl⟩ := map_eq_ok.1 hp
    obtain rfl := pure_eq_ok.1 h
    exact ⟨checks, [p], hc, mapM_eq_ok.2 (.cons planned .nil), rfl⟩

/-! ### Initializers -/

/-- What happens to the initializer of a variable whose type has a reflection. -/
def initPlanOf (s : Scope) : Declarator → Except Unsupported InitPlan
  | Declarator.mk _ _ type init =>
    match checked? type, init.toOption with
    | some t, some _ => InitPlan.check <$> s.reflect t
    | _, _ => return .keep

/-- What is worked out for the initializers of a declaration, without the log. -/
def initPlansOf (s : Scope) : List Declarator → List InitPlan × Except Unsupported Unit
  | [] => ([], .ok ())
  | d :: ds =>
    match initPlanOf s d with
    | .ok plan => (plan :: (initPlansOf s ds).1, (initPlansOf s ds).2)
    | .error u => ([.drop], .error u)

theorem answer_planInits (s : Scope) (ds : List Declarator) (log : List Log.Line) :
    ((planInits s ds).run log).1 = initPlansOf s ds := by
  induction ds generalizing log with
  | nil => rfl
  | cons d ds ih =>
    match d with
    | Declarator.mk mark binding type init =>
      rw [planInits, initPlansOf, initPlanOf]
      rcases checked? type, init.toOption with ⟨_ | t, _ | e⟩
      case some.some =>
        dsimp only
        cases s.reflect t with
        | error u => rfl
        | ok reflection => rw [← ih]; rfl
      all_goals rw [← ih log]; rfl

theorem initPlansOf_ok {s ds plans} (h : initPlansOf s ds = (plans, .ok ())) :
    ds.mapM (initPlanOf s) = .ok plans := by
  rw [mapM_eq_ok]
  induction ds generalizing plans with
  | nil =>
    cases h
    exact .nil
  | cons d ds ih =>
    rw [initPlansOf] at h
    split at h
    case h_1 plan planned =>
      obtain ⟨rfl, rest⟩ := Prod.mk.inj h
      exact .cons planned (ih (Prod.ext rfl rest))
    case h_2 => cases h

/-- What a variable declaration answers, and the names it declares if all goes well. -/
theorem run_planVar (mark : Mark) (form : VarForm) (ds : Many .declarator) (w : Walker) :
    ∃ log, (planVar (VarDecl.mk mark form ds)).run w =
      (initPlansOf w.context.scope ds.toList, ({ w with log } : Walker).declareAll
        (if (initPlansOf w.context.scope ds.toList).2.isOk then
          ds.toList.flatMap Declarator.boundNames else [])) := by
  rcases h : (planVar (VarDecl.mk mark form ds)).run w with ⟨answer, w'⟩
  rcases run : (planInits w.context.scope ds.toList).run [] with ⟨⟨plans, r⟩, log⟩
  rw [← answer_planInits w.context.scope ds.toList [], run]
  rw [planVar] at h
  obtain ⟨w₀, w₁, got, h⟩ := run_bind h
  cases got
  rw [run] at h
  obtain ⟨_, w₂, put, h⟩ := run_bind h
  cases put
  cases r with
  | error u =>
    cases h
    exact ⟨w.log ++ log, rfl⟩
  | ok _ =>
    obtain ⟨_, w₃, declared, h⟩ := run_bind h
    rw [Walk.run_declareAll] at declared
    cases declared
    cases h
    exact ⟨w.log ++ log, rfl⟩

/-- The effect of a variable declaration whose types all have reflections. -/
theorem planVar_ok {decl mark form ds plans w w'} (hd : decl = VarDecl.mk mark form ds)
    (h : (planVar decl).run w = ((plans, .ok ()), w')) :
    ds.toList.mapM (initPlanOf w.context.scope) = .ok plans ∧
      Effect w w' [] [] (ds.toList.flatMap Declarator.boundNames) id := by
  subst hd
  obtain ⟨log, run⟩ := run_planVar mark form ds w
  rw [run] at h
  obtain ⟨answer, rfl⟩ := Prod.mk.inj h
  rw [answer]
  exact ⟨initPlansOf_ok answer, (Effect.of_log w log).trans (.of_declareAll _ _)⟩

/-! ### Frames -/

namespace Frame

/-- The frame once an interface needs no reflection of its own. -/
def merge (f : Frame) (name : String) : Frame := { f with merged := f.merged.insert name }

/-- The frame once a class has been dealt with: interfaces of its name belong to it. -/
def mergeClass (f : Frame) : Option String → Frame
  | none => f
  | some name => if f.hasInterface name then f.merge name else f

end Frame

theorem Effect.of_frame (w : Walker) (frame : Frame → Frame) :
    Effect w (w.map fun c => { c with frames := c.frames.modify frame }) [] [] [] frame where
  visited := by simp [Walker.map]
  recorded := by simp [Walker.map]
  scope := rfl
  frames := rfl
  errors := rfl

/-! ### Statements -/

/-- Whether a form of statements declares something that is dealt with. -/
def StmtForm.isDeclaration : StmtForm → Bool
  | classDecl | funcDecl | varDecl | interfaceDecl | aliasDecl | enumDecl => true
  | _ => false

/-- What can be worked out for a statement. -/
inductive Planned : Walker → Stmt → StmtPlan → List Stmt → Walker → Prop where
  | ambientClass {w w' m mark form decorators name typeParams base baseArgs implemented members decl}
      (hd : decl = ClassDecl.mk mark form decorators name typeParams base baseArgs implemented
        members)
      (ambient : form.ambient = true)
      (effect : Effect w w' [] [] (ClassDecl.name? decl).toList id) :
      Planned w (Stmt.classDecl m decl) (.classDecl {}) [] w'
  | classDecl {w w₁ w' m mark form decorators name typeParams base baseArgs implemented members decl
        reflection plans finish}
      (hd : decl = ClassDecl.mk mark form decorators name typeParams base baseArgs implemented
        members)
      (ambient : form.ambient = false)
      (reflected : w.context.scope.reflectClass mark.loc decl
        (((ClassDecl.name? decl).map w.context.frame.interfaceMembers).getD []) = .ok reflection)
      (planned : PlansMembers (ClassDecl.name? decl) (typeParams.toLists.map TypeParam.name) w
        members.toList plans w₁)
      (finished : planFinish w₁.context.scope reflection decl = .ok finish)
      (effect : Effect w₁ w' [] [] (ClassDecl.name? decl).toList
        (·.mergeClass (ClassDecl.name? decl))) :
      Planned w (Stmt.classDecl m decl) (.classDecl { members := plans, finish := some finish }) []
        w'
  | varDecl {w w' m mark form ds plans}
      (planned : ds.toList.mapM (initPlanOf w.context.scope) = .ok plans)
      (effect : Effect w w' [] [] (ds.toList.flatMap Declarator.boundNames) id) :
      Planned w (Stmt.varDecl m (VarDecl.mk mark form ds)) (.inits plans) [] w'
  | funcVisited {w m mark form name f} (hv : w.context.wasVisited f.mark.id = true) :
      Planned w (Stmt.funcDecl m (FuncDecl.mk mark form name f)) .keep [] w
  | funcDecl {w w' m mark form name f plan} (hv : w.context.wasVisited f.mark.id = false)
      (planned : funcPlanOf w.context.scope .function f = .ok plan)
      (effect : Effect w w' [f.mark.id] [f.mark.id] [] id) :
      Planned w (Stmt.funcDecl m (FuncDecl.mk mark form name f))
        ((plan.map StmtPlan.func).getD .keep) [] w'
  | ambientInterface {w m mark form typeParams bases members} (ambient : form.ambient = true) :
      Planned w (Stmt.interfaceDecl m (InterfaceDecl.mk mark form typeParams bases members)) .keep
        [] w
  | classInterface {w w' m mark form typeParams bases members} (ambient : form.ambient = false)
      (class' : w.context.frame.hasClass form.name = true)
      (effect : Effect w w' [] [] [] (·.merge form.name)) :
      Planned w (Stmt.interfaceDecl m (InterfaceDecl.mk mark form typeParams bases members)) .keep
        [] w'
  | mergedInterface {w m mark form typeParams bases members} (ambient : form.ambient = false)
      (class' : w.context.frame.hasClass form.name = false)
      (merged : w.context.isMerged form.name = true) :
      Planned w (Stmt.interfaceDecl m (InterfaceDecl.mk mark form typeParams bases members)) .keep
        [] w
  | pendingInterface {w w' m mark form typeParams bases members decl}
      (hd : decl = InterfaceDecl.mk mark form typeParams bases members)
      (ambient : form.ambient = false)
      (class' : w.context.frame.hasClass form.name = false)
      (merged : w.context.isMerged form.name = false)
      (pending : (w.context.frame.accumulate decl).2 = none)
      (effect : Effect w w' [] [] [] fun f => (f.accumulate decl).1) :
      Planned w (Stmt.interfaceDecl m decl) .keep [] w'
  | interfaceDecl {w w' m mark form typeParams bases members decl p e}
      (hd : decl = InterfaceDecl.mk mark form typeParams bases members)
      (ambient : form.ambient = false)
      (class' : w.context.frame.hasClass form.name = false)
      (merged : w.context.isMerged form.name = false)
      (last : (w.context.frame.accumulate decl).2 = some p)
      (reflected : (w.context.scope.namedType mark.loc form.name (p.typeParams.getD []) fun bound =>
        w.context.scope.interfaceBody bound mark.loc p.bases p.members) = .ok e)
      (effect : Effect w w' [] [] [form.name] fun f => (f.accumulate decl).1) :
      Planned w (Stmt.interfaceDecl m decl) .keep
        [Synthetic.constStmt mark.loc form.name e p.exported] w'
  | ambientAlias {w w' m mark form typeParams type} (ambient : form.ambient = true)
      (effect : Effect w w' [] [] [form.name] id) :
      Planned w (Stmt.aliasDecl m (AliasDecl.mk mark form typeParams type)) .keep [] w'
  | aliasDecl {w w' m mark form typeParams type e} (ambient : form.ambient = false)
      (reflected : (w.context.scope.namedType mark.loc form.name typeParams.toLists fun bound =>
        w.context.scope.reflectUnder bound type) = .ok e)
      (effect : Effect w w' [] [] [form.name] id) :
      Planned w (Stmt.aliasDecl m (AliasDecl.mk mark form typeParams type)) .keep
        [Synthetic.constStmt mark.loc form.name e form.exported] w'
  | enumDecl {w w' m mark form members} (effect : Effect w w' [] [] [form.name] id) :
      Planned w (Stmt.enumDecl m (EnumDecl.mk mark form members)) .keep [] w'
  | other {w form marks ts} (h : StmtForm.isDeclaration form = false) :
      Planned w (.node (c := .stmt) form marks ts) .keep [] w

section

variable {w w' : Walker}

theorem run_declareName (name : Option String) (w : Walker) :
    (name.forM fun name => Walk.change (·.declare name)).run w = ((), w.declareAll name.toList) := by
  cases name <;> rfl

/-- What a class does to the state once its plan is complete. -/
theorem run_declareClass (name : Option String) (w : Walker) :
    (name.forM fun name => do
      if ← Walk.read (·.frame.hasInterface name) then Walk.change (·.setMerged name)
      Walk.change (·.declare name)).run w =
      ((), (w.map fun c => { c with frames := c.frames.modify (·.mergeClass name) }).declareAll
        name.toList) := by
  cases name with
  | none => rfl
  | some name =>
    change StateT.run (if w.context.frame.hasInterface name then _ else _) w = _
    cases h : w.context.frame.hasInterface name with
    | false =>
      have same : w.context.frames.modify (·.mergeClass (some name)) = w.context.frames := by
        change (⟨w.context.frame.mergeClass (some name), _⟩ : Stack Frame) = _
        rw [Frame.mergeClass, h]
        rfl
      rw [if_neg (by simp)]
      simp only [Walker.map, same]
      rfl
    | true =>
      have frame : w.context.frames.modify (·.mergeClass (some name)) =
          w.context.frames.modify (·.merge name) := by
        change (⟨w.context.frame.mergeClass (some name), _⟩ : Stack Frame) = _
        rw [Frame.mergeClass, h]
        rfl
      rw [if_pos rfl]
      simp only [Walker.map, frame]
      rfl

theorem run_logAll {α : Type} (line : α → Log.Line) (xs : List α) (w : Walker) :
    ∃ log, (xs.forM fun x => Walk.log (line x)).run w = ((), { w with log }) := by
  induction xs generalizing w with
  | nil => exact ⟨w.log, rfl⟩
  | cons x xs ih =>
    obtain ⟨log, run⟩ := ih { w with log := w.log ++ [line x] }
    exact ⟨log, run⟩

variable {plan : ClassPlan} {decl : ClassDecl} {m : Mark} {fs : List Stmt}

/-- The last steps of a class: the log, the interfaces of its name and its own name. -/
theorem run_finishClass {finish : ClassFinish} {b : ClassPlan × Except Unsupported Unit}
    (h : StateT.run (do
      if !finish.constructor.isEmpty then
        (constructorStmts (plan.apply decl).memberList).forM fun stmt =>
          Walk.log (.event .trace "constructor" [("stmt", .str (Stmt.text stmt))])
      (ClassDecl.name? decl).forM fun name => do
        if ← Walk.read (·.frame.hasInterface name) then Walk.change (·.setMerged name)
        Walk.change (·.declare name)
      return (plan, .ok ())) w = (b, w')) :
    ∃ log, (b, w') = ((plan, .ok ()), (({ w with log } : Walker).map fun c =>
      { c with frames := c.frames.modify (·.mergeClass (ClassDecl.name? decl)) }).declareAll
        (ClassDecl.name? decl).toList) := by
  have declared (log : List Log.Line) := run_declareClass (ClassDecl.name? decl) { w with log }
  split at h
  · obtain ⟨_, w₁, logged, h⟩ := run_bind h
    obtain ⟨log, run⟩ := run_logAll (fun stmt => .event .trace "constructor"
      [("stmt", .str (Stmt.text stmt))]) (constructorStmts (plan.apply decl).memberList) w
    rw [run] at logged
    cases logged
    refine ⟨log, ?_⟩
    rw [StateT.run_bind, declared log] at h
    exact h.symm
  · refine ⟨w.log, ?_⟩
    rw [StateT.run_bind, declared w.log] at h
    exact h.symm

theorem planClass_ok (h : (planClass decl).run w = ((plan, .ok ()), w')) :
    Planned w (Stmt.classDecl m decl) (.classDecl plan) [] w' := by
  match decl, h with
  | ClassDecl.mk mark form decorators name typeParams base baseArgs implemented members, h =>
    rw [planClass] at h
    generalize hd : ClassDecl.mk mark form decorators name typeParams base baseArgs implemented
      members = decl at h ⊢
    cases ambient : form.ambient with
    | true =>
      rw [ambient, if_pos rfl] at h
      obtain ⟨_, w₁, declared, h⟩ := run_bind h
      rw [run_declareName] at declared
      cases declared
      cases h
      exact .ambientClass hd.symm ambient (.of_declareAll _ _)
    | false =>
      rw [ambient, if_neg (by simp)] at h
      obtain ⟨merged, _, read, h⟩ := run_bind h
      obtain ⟨(hm : ((ClassDecl.name? decl).map w.context.frame.interfaceMembers).getD [] = merged),
        rfl⟩ := Prod.mk.inj read
      obtain ⟨r, _, reflect, h⟩ := run_bind h
      obtain ⟨(reflected : w.context.scope.reflectClass mark.loc decl merged = r), rfl⟩ :=
        Prod.mk.inj reflect
      cases r with
      | error u => cases h
      | ok reflection =>
        obtain ⟨⟨plans, r⟩, w₁, planned, h⟩ := run_bind h
        cases r with
        | error u => cases h
        | ok _ =>
          obtain ⟨r, _, finish, h⟩ := run_bind h
          obtain ⟨(finished : planFinish w₁.context.scope reflection decl = r), rfl⟩ :=
            Prod.mk.inj finish
          cases r with
          | error u => cases h
          | _ =>
            obtain ⟨log, done⟩ := run_finishClass h
            obtain ⟨hp, rfl⟩ := Prod.mk.inj done
            cases hp
            subst hm
            exact .classDecl hd.symm ambient reflected (planMembers_ok planned) finished
              (((Effect.of_log w₁ log).trans (.of_frame _ _)).trans (.of_declareAll _ _))

theorem planAlias_ok {decl} (h : (planAlias decl).run w = (.ok fs, w')) :
    Planned w (Stmt.aliasDecl m decl) .keep fs w' := by
  match decl, h with
  | AliasDecl.mk mark form typeParams type, h =>
    rw [planAlias] at h
    cases ambient : form.ambient with
    | true =>
      rw [ambient, if_pos rfl] at h
      cases h
      exact .ambientAlias ambient (.of_declareAll w [form.name])
    | _ =>
      rw [ambient, if_neg (by simp)] at h
      obtain ⟨r, _, reflect, h⟩ := run_bind h
      obtain ⟨(reflected : (w.context.scope.namedType mark.loc form.name typeParams.toLists
        fun bound => w.context.scope.reflectUnder bound type) = r), rfl⟩ := Prod.mk.inj reflect
      cases r with
      | error u => cases h
      | ok e =>
        cases h
        exact .aliasDecl ambient reflected
          ((Effect.of_log w _).trans (.of_declareAll _ [form.name]))

theorem planInterface_ok {decl} (h : (planInterface decl).run w = (.ok fs, w')) :
    Planned w (Stmt.interfaceDecl m decl) .keep fs w' := by
  match decl, h with
  | InterfaceDecl.mk mark form typeParams bases members, h =>
    rw [planInterface] at h
    dsimp only at h
    split at h
    · cases h
      exact .ambientInterface ‹_›
    · obtain ⟨hasClass, _, read, h⟩ := run_bind h
      obtain ⟨(class' : w.context.frame.hasClass form.name = hasClass), rfl⟩ := Prod.mk.inj read
      have ambient : form.ambient = false := by simpa using ‹¬form.ambient = true›
      split at h
      · cases h
        subst class'
        exact .classInterface ambient ‹_› ((Effect.of_log w _).trans (.of_frame _ _))
      · obtain ⟨isMerged, _, read, h⟩ := run_bind h
        obtain ⟨(merged : w.context.isMerged form.name = isMerged), rfl⟩ := Prod.mk.inj read
        have class' : w.context.frame.hasClass form.name = false := by
          simpa [class'] using ‹¬hasClass = true›
        split at h
        · cases h
          subst merged
          exact .mergedInterface ambient class' ‹_›
        · have merged : w.context.isMerged form.name = false := by
            simpa [merged] using ‹¬isMerged = true›
          generalize hd : InterfaceDecl.mk mark form typeParams bases members = decl at h ⊢
          obtain ⟨⟨context, pending⟩, _, read, h⟩ := run_bind h
          obtain ⟨acc, rfl⟩ := Prod.mk.inj read
          obtain ⟨(hc : (w.context.accumulate decl).1 = context),
            (hp : (w.context.frame.accumulate decl).2 = pending)⟩ := Prod.mk.inj acc
          obtain ⟨_, _, changed, h⟩ := run_bind h
          cases changed
          subst hc
          have effect := Effect.of_frame w fun f => (f.accumulate decl).1
          cases pending with
          | none =>
            cases h
            exact .pendingInterface hd.symm ambient class' merged hp effect
          | some p =>
            obtain ⟨r, _, reflect, h⟩ := run_bind h
            obtain ⟨(reflected : (w.context.scope.namedType mark.loc form.name
              (p.typeParams.getD []) fun bound =>
                w.context.scope.interfaceBody bound mark.loc p.bases p.members) = r), rfl⟩ :=
              Prod.mk.inj reflect
            cases r with
            | error u => cases h
            | ok e =>
              cases h
              exact .interfaceDecl hd.symm ambient class' merged hp reflected
                ((effect.trans (.of_log _ _)).trans (.of_declareAll _ [form.name]))

/-- **What can be worked out for a statement** is what `Planned` says. -/
theorem planStmt_ok {s plan} (h : (planStmt s).run w = ((plan, .ok fs), w')) :
    Planned w s plan fs w' := by
  match s, h with
  | Stmt.classDecl m decl, h =>
    obtain ⟨⟨p, r⟩, w₁, planned, h⟩ := run_bind h
    cases r with
    | error u => cases h
    | ok _ =>
      cases h
      exact planClass_ok planned
  | Stmt.varDecl m (VarDecl.mk mark form ds), h =>
    obtain ⟨⟨p, r⟩, w₁, planned, h⟩ := run_bind h
    cases r with
    | error u => cases h
    | ok _ =>
      cases h
      obtain ⟨plans, effect⟩ := planVar_ok rfl planned
      exact .varDecl plans effect
  | Stmt.funcDecl m (FuncDecl.mk mark form name f), h =>
    obtain ⟨r, w₁, planned, done⟩ := run_bind h
    clear h
    rcases r with u | p
    · cases done
    · rcases planFuncOnce_ok planned with ⟨hv, rfl, rfl⟩ | ⟨hv, hp, effect⟩
      · cases done
        exact .funcVisited hv
      · cases p with
        | _ =>
          cases done
          exact .funcDecl hv hp effect
  | Stmt.interfaceDecl m decl, h =>
    obtain ⟨r, w₁, planned, h⟩ := run_bind h
    cases h
    exact planInterface_ok planned
  | Stmt.aliasDecl m decl, h =>
    obtain ⟨r, w₁, planned, h⟩ := run_bind h
    cases h
    exact planAlias_ok planned
  | Stmt.enumDecl m (EnumDecl.mk mark form members), h =>
    cases h
    exact .enumDecl (.of_declareAll w [form.name])
  | Stmt.block _ _, h | Stmt.breakTo _ _, h | Stmt.continueTo _ _, h | Stmt.doWhile _ _ _, h
  | Stmt.empty _, h | Stmt.expr _ _, h | Stmt.forIn _ _ _ _, h | Stmt.forOf _ _ _ _ _, h
  | Stmt.forLoop _ _ _ _ _, h | Stmt.ifElse _ _ _ _, h | Stmt.importing _ _, h
  | Stmt.labeled _ _ _, h | Stmt.returning _ _, h | Stmt.switch _ _ _, h | Stmt.throwing _ _, h
  | Stmt.trying _ _ _ _, h | Stmt.whileLoop _ _ _, h =>
    cases h
    exact .other rfl

end

/-! ### Planning reports nothing -/

/-- Steps that report nothing and leave the scopes and frames further out as they are. -/
def Walk.Confined {α : Type} (act : Walk α) : Prop :=
  ∀ w, (act.run w).2.errors = w.errors ∧ w.context.Extends (act.run w).2.context

namespace Walk.Confined

variable {α β : Type}

theorem bind {act} {f : α → Walk β} (h : act.Confined) (hf : ∀ a, (f a).Confined) :
    (act >>= f).Confined := by
  intro w
  rw [StateT.run_bind]
  obtain ⟨errors, extends_⟩ := h w
  obtain ⟨errors', extends'⟩ := hf (act.run w).1 (act.run w).2
  exact ⟨errors'.trans errors, extends_.trans extends'⟩

theorem pure (a : α) : Walk.Confined (pure a) := fun w => ⟨rfl, .refl w.context⟩

theorem change {f} (h : ∀ c : Context, c.Extends (f c)) : (Walk.change f).Confined :=
  fun w => ⟨rfl, h w.context⟩

theorem read (f : Context → α) : (Walk.read f).Confined := fun w => ⟨rfl, .refl w.context⟩

theorem log (line : Log.Line) : (Walk.log line).Confined := fun w => ⟨rfl, .refl w.context⟩

theorem reflect (f : Scope → Except Unsupported α) : (Walk.reflect f).Confined := read _

theorem declare (name : String) : (Walk.change (·.declare name)).Confined :=
  change fun c => .declare c name

theorem setMerged (name : String) : (Walk.change (·.setMerged name)).Confined :=
  change fun c => .modifyFrame c _

theorem forM {xs : List α} {f} (h : ∀ x, (f x).Confined) : Confined (xs.forM f) := by
  induction xs with
  | nil => exact .pure _
  | cons x xs ih => exact (h x).bind fun _ => ih

theorem optionForM {x : Option α} {f} (h : ∀ x, (f x).Confined) : Confined (x.forM f) := by
  cases x with
  | none => exact .pure _
  | some x => exact h x

theorem withGenerics {act : Walk α} (h : act.Confined) (names : List String)
    (access : ParamAccess) : (Walk.withGenerics names access act).Confined := by
  unfold Walk.withGenerics
  split
  · exact h
  · intro w
    obtain ⟨errors, extends_⟩ := h (w.map (·.pushGenerics names access))
    exact ⟨errors, extends_.popGenerics⟩

end Walk.Confined

section

open Walk (Confined)

theorem planFuncOnce_scope (role : Role) (f : Func) (w : Walker) :
    ((planFuncOnce role f).run w).2.context.scope = w.context.scope ∧
      ((planFuncOnce role f).run w).2.context.frames = w.context.frames := by
  cases hv : w.context.wasVisited f.mark.id with
  | true => rw [planFuncOnce_of_visited role hv]; exact ⟨rfl, rfl⟩
  | _ =>
    obtain ⟨log, run⟩ := planFuncOnce_of_fresh role hv
    rw [run]
    cases funcPlanOf w.context.scope role f with
    | error u => exact ⟨rfl, rfl⟩
    | ok plan => exact Walker.map_markVisited _ _

theorem confined_planFuncOnce (role : Role) (f : Func) : Confined (planFuncOnce role f) := by
  intro w
  obtain ⟨scope, frames⟩ := planFuncOnce_scope role f w
  exact ⟨planFuncOnce_errors role f w, .of_eq scope frames⟩

theorem confined_planMember (className : Option String) (names : List String) (m : ClassMember) :
    Confined (planMember className names m) := by
  match m with
  | ClassMember.mk _ _ _ _ type (MemberVal.function _ _ f) =>
    exact ((confined_planFuncOnce _ f).withGenerics names _).bind fun _ => .pure _
  | ClassMember.mk _ _ _ _ type (MemberVal.property _) =>
    rw [planMember_property rfl]
    split
    · exact .pure _
    · exact .reflect _
  | ClassMember.mk _ _ _ _ type (MemberVal.index _ _ _ _) => exact .pure _

theorem confined_planMembers (className : Option String) (names : List String)
    (ms : List ClassMember) : Confined (planMembers className names ms) := by
  induction ms with
  | nil => exact .pure _
  | cons m ms ih =>
    rw [planMembers]
    refine (confined_planMember className names m).bind fun r => ?_
    cases r with
    | error u => exact .pure _
    | ok plan => exact ih.bind fun _ => .pure _

theorem confined_planClass (decl : ClassDecl) : Confined (planClass decl) := by
  match decl with
  | ClassDecl.mk mark form decorators name typeParams base baseArgs implemented members =>
    rw [planClass]
    split
    · exact (Confined.optionForM fun name => .declare name).bind fun _ => .pure _
    · refine (Confined.read _).bind fun merged => (Confined.reflect _).bind fun r => ?_
      cases r with
      | error u => exact .pure _
      | ok reflection =>
        refine (confined_planMembers _ _ _).bind fun (plans, r) => ?_
        cases r with
        | error u => exact .pure _
        | ok _ =>
          refine (Confined.reflect _).bind fun r => ?_
          cases r with
          | error u => exact .pure _
          | _ =>
            have declared : Confined (ClassDecl.name? (ClassDecl.mk mark form decorators name
                typeParams base baseArgs implemented members) |>.forM fun name => do
                  if ← Walk.read (·.frame.hasInterface name) then Walk.change (·.setMerged name)
                  Walk.change (·.declare name)) := by
              refine .optionForM fun name => (Confined.read _).bind fun b => ?_
              cases b with
              | false => exact .declare name
              | true => exact .bind (.setMerged name) fun _ => .declare name
            dsimp only
            split
            · exact (Confined.forM fun _ => .log _).bind fun _ => declared.bind fun _ => .pure _
            · exact declared.bind fun _ => .pure _

theorem confined_planVar (decl : VarDecl) : Confined (planVar decl) := by
  intro w
  match decl with
  | VarDecl.mk mark form ds =>
    obtain ⟨log, run⟩ := run_planVar mark form ds w
    rw [run]
    exact ⟨rfl, .declareAll _ w.context⟩

theorem confined_planAlias (decl : AliasDecl) : Confined (planAlias decl) := by
  match decl with
  | AliasDecl.mk mark form typeParams type =>
    rw [planAlias]
    split
    · exact (Confined.declare _).bind fun _ => .pure _
    · refine (Confined.reflect _).bind fun r => ?_
      cases r with
      | error u => exact .pure _
      | ok e => exact (Confined.log _).bind fun _ => (Confined.declare _).bind fun _ => .pure _

/-- The constant for all declarations of an interface, once the last of them has been met. -/
def reflectWhole (mark : Mark) (name : String) :
    Option Pending → Walk (Except Unsupported (List Stmt))
  | none => return .ok []
  | some p => do
    let r ← Walk.reflect fun s =>
      s.namedType mark.loc name (p.typeParams.getD []) fun bound =>
        s.interfaceBody bound mark.loc p.bases p.members
    match r with
    | .ok reflection =>
      let stmt ← reflectionConst mark.loc name reflection p.exported
      Walk.change (·.declare name)
      return .ok [stmt]
    | .error u => return .error u

theorem confined_reflectWhole (mark : Mark) (name : String) (pending : Option Pending) :
    Confined (reflectWhole mark name pending) := by
  cases pending with
  | none => exact .pure _
  | some p =>
    refine (Confined.reflect _).bind fun r => ?_
    cases r with
    | error u => exact .pure _
    | ok e => exact (Confined.log _).bind fun _ => (Confined.declare _).bind fun _ => .pure _

theorem confined_planInterface (decl : InterfaceDecl) : Confined (planInterface decl) := by
  match decl with
  | InterfaceDecl.mk mark form typeParams bases members =>
    rw [planInterface]
    dsimp only
    split
    · exact .pure _
    · refine (Confined.read _).bind fun hasClass => ?_
      split
      · exact (Confined.log _).bind fun _ => (Confined.setMerged _).bind fun _ => .pure _
      · refine (Confined.read _).bind fun isMerged => ?_
        split
        · exact .pure _
        · -- the context is changed to what was read from it
          intro w
          have accumulated := Context.Extends.modifyFrame w.context
            fun f => (f.accumulate (InterfaceDecl.mk mark form typeParams bases members)).1
          obtain ⟨errors, extends_⟩ :=
            confined_reflectWhole mark form.name
              (w.context.accumulate (InterfaceDecl.mk mark form typeParams bases members)).2
              (w.map fun c => (c.accumulate (InterfaceDecl.mk mark form typeParams bases members)).1)
          exact ⟨errors, accumulated.trans extends_⟩

theorem confined_planStmt (s : Stmt) : Confined (planStmt s) := by
  match s with
  | Stmt.classDecl _ decl => exact (confined_planClass decl).bind fun _ => .pure _
  | Stmt.varDecl _ decl => exact (confined_planVar decl).bind fun _ => .pure _
  | Stmt.funcDecl _ (FuncDecl.mk _ _ _ f) =>
    refine (confined_planFuncOnce .function f).bind fun r => ?_
    rcases r with u | _ | plan <;> exact .pure _
  | Stmt.interfaceDecl _ decl => exact (confined_planInterface decl).bind fun _ => .pure _
  | Stmt.aliasDecl _ decl => exact (confined_planAlias decl).bind fun _ => .pure _
  | Stmt.enumDecl _ (EnumDecl.mk _ _ _) => exact (Confined.declare _).bind fun _ => .pure _
  | Stmt.block _ _ | Stmt.breakTo _ _ | Stmt.continueTo _ _ | Stmt.doWhile _ _ _ | Stmt.empty _
  | Stmt.expr _ _ | Stmt.forIn _ _ _ _ | Stmt.forOf _ _ _ _ _ | Stmt.forLoop _ _ _ _ _
  | Stmt.ifElse _ _ _ _ | Stmt.importing _ _ | Stmt.labeled _ _ _ | Stmt.returning _ _
  | Stmt.switch _ _ _ | Stmt.throwing _ _ | Stmt.trying _ _ _ _ | Stmt.whileLoop _ _ _ =>
    exact .pure _

end

/-! ### Once -/

/-- The state in which a statement is planned. -/
def Walker.recordStmt (w : Walker) (s : Stmt) : Walker :=
  if Stmt.isRecorded s then w.map (·.recordMutation s.mark.id) else w

/-- What can be worked out for a statement that the walk comes to. -/
inductive PlannedOnce (w : Walker) (s : Stmt) : StmtPlan → List Stmt → Walker → Prop where
  | visited (hv : w.context.wasVisited s.mark.id = true) : PlannedOnce w s .keep [] w
  | fresh {plan fs w'} (hv : w.context.wasVisited s.mark.id = false)
      (planned : Planned (w.recordStmt s) s plan fs w') :
      PlannedOnce w s plan fs (w'.map (·.markVisited s.mark.id))

section

variable {w w' : Walker}

theorem Walker.errors_report {α : Type} {r : Except Unsupported α}
    (h : (w.report r).errors = []) : w.errors = [] ∧ ∃ a, r = .ok a ∧ w.report r = w := by
  cases r with
  | error u =>
    have nonempty : w.errors ++ [u] = [] := h
    simp at nonempty
  | ok a => exact ⟨h, a, rfl, rfl⟩

variable {s : Stmt} {decl : VarDecl} {plan : StmtPlan} {plans : List InitPlan}

theorem planStmtOnce_of_visited (hv : w.context.wasVisited s.mark.id = true) :
    (planStmtOnce s).run w = ((.keep, []), w) := by
  change StateT.run (if w.context.wasVisited s.mark.id then _ else _) w = _
  rw [if_pos hv]
  rfl

theorem planVarOnce_of_visited (hv : w.context.wasVisited decl.mark.id = true) :
    (planVarOnce decl).run w = ([], w) := by
  change StateT.run (if w.context.wasVisited decl.mark.id then _ else _) w = _
  rw [if_pos hv]
  rfl

/-- What is worked out for a statement that the walk comes to for the first time. -/
theorem planStmtOnce_of_fresh (hv : w.context.wasVisited s.mark.id = false) {r}
    (planned : (planStmt s).run (w.recordStmt s) = ((plan, r), w')) :
    (planStmtOnce s).run w =
      ((plan, r.toOption.getD []), (w'.report r).map (·.markVisited s.mark.id)) := by
  have rest : ∀ v, (planStmt s).run v = ((plan, r), w') → StateT.run (do
      let planned ← planStmt s
      Walk.report planned.2
      Walk.change (·.markVisited s.mark.id)
      return (planned.1, planned.2.toOption.getD [])) v =
        ((plan, r.toOption.getD []), (w'.report r).map (·.markVisited s.mark.id)) := by
    intro v hv
    rw [StateT.run_bind, hv]
    rfl
  change StateT.run (if w.context.wasVisited s.mark.id then _ else _) w = _
  rw [if_neg (by simp [hv])]
  unfold Walker.recordStmt at planned
  split at planned
  case isTrue recorded =>
    rw [if_pos recorded]
    exact rest _ planned
  case isFalse recorded =>
    rw [if_neg recorded]
    exact rest _ planned

theorem Walker.errors_recordStmt (w : Walker) (s : Stmt) : (w.recordStmt s).errors = w.errors := by
  unfold Walker.recordStmt
  split <;> rfl

/-- Where nothing was reported, what was worked out for a statement succeeded. -/
theorem planStmtOnce_clean {fs} (h : (planStmtOnce s).run w = ((plan, fs), w'))
    (clean : w'.errors = []) : w.errors = [] ∧ PlannedOnce w s plan fs w' := by
  cases hv : w.context.wasVisited s.mark.id with
  | true =>
    rw [planStmtOnce_of_visited hv] at h
    cases h
    exact ⟨clean, .visited hv⟩
  | _ =>
    rcases planned : (planStmt s).run (w.recordStmt s) with ⟨⟨p, r⟩, w₁⟩
    rw [planStmtOnce_of_fresh hv planned] at h
    cases h
    obtain ⟨before, fs, rfl, same⟩ := Walker.errors_report clean
    have quiet := (confined_planStmt s (w.recordStmt s)).1
    rw [planned] at quiet
    refine ⟨by rw [← w.errors_recordStmt s, ← quiet, before], ?_⟩
    rw [same]
    exact .fresh hv (planStmt_ok planned)

/-- What is worked out for a loop header that the walk comes to for the first time. -/
theorem planVarOnce_of_fresh (hv : w.context.wasVisited decl.mark.id = false) {r}
    (planned : (planVar decl).run (w.map (·.recordMutation decl.mark.id)) = ((plans, r), w')) :
    (planVarOnce decl).run w = (plans, (w'.report r).map (·.markVisited decl.mark.id)) := by
  change StateT.run (if w.context.wasVisited decl.mark.id then _ else _) w = _
  rw [if_neg (by simp [hv])]
  change StateT.run (do
    let planned ← planVar decl
    Walk.report planned.2
    Walk.change (·.markVisited decl.mark.id)
    return planned.1) (w.map (·.recordMutation decl.mark.id)) = _
  rw [StateT.run_bind, planned]
  rfl

/-- Where nothing was reported, what was worked out for a loop header succeeded. -/
theorem planVarOnce_clean {mark form ds} (hd : decl = VarDecl.mk mark form ds)
    (h : (planVarOnce decl).run w = (plans, w')) (clean : w'.errors = []) :
    w.errors = [] ∧
      ((w.context.wasVisited decl.mark.id = true ∧ plans = [] ∧ w' = w) ∨
        (w.context.wasVisited decl.mark.id = false ∧
          ds.toList.mapM (initPlanOf w.context.scope) = .ok plans ∧
          Effect w w' [decl.mark.id] [decl.mark.id] (ds.toList.flatMap Declarator.boundNames)
            id)) := by
  cases hv : w.context.wasVisited decl.mark.id with
  | true =>
    rw [planVarOnce_of_visited hv] at h
    cases h
    exact ⟨clean, .inl ⟨rfl, rfl, rfl⟩⟩
  | _ =>
    let w₀ := w.map (·.recordMutation decl.mark.id)
    rcases planned : (planVar decl).run w₀ with ⟨⟨p, r⟩, w₁⟩
    rw [planVarOnce_of_fresh hv planned] at h
    cases h
    obtain ⟨before, _, rfl, same⟩ := Walker.errors_report clean
    have quiet := (confined_planVar decl w₀).1
    rw [planned] at quiet
    have id_ne : decl.mark.id ≠ 0 := by
      intro h0
      simp [Context.wasVisited, h0] at hv
    obtain ⟨plans, effect⟩ := planVar_ok hd planned
    refine ⟨by rw [← before, quiet]; rfl, .inr ⟨rfl, plans, ?_⟩⟩
    rw [same]
    have total := ((Effect.of_record w _).trans effect).trans (.of_mark w₁ id_ne)
    simpa using total

end

end Reify
