import Reify.Proofs.Check.Bindings
import Reify.Proofs.Walk.Checks
import Reify.Proofs.Walk.Everywhere
import Reify.Proofs.Walk.Interfaces
import Reify.Proofs.Walk.Placement

/-!
# Bindings of the result

What is written for a statement list binds what its statements bound and the constants behind its
type aliases and interfaces (`boundNames`).  Bodies of functions get the constants of their plans as
well, and the unit the name of the library.  These are all the names that are added
(`Tree.emitted`): where none of them coincides with another name of its scope, no scope of the
result binds a name twice (`no_duplicate_bindings`).
-/

namespace Reify

open List Tree

/-! ### Statement lists -/

/-- The value names that are bound by what is written for a statement list: those that its statements
bind, and those of the constants behind its type aliases and interfaces. -/
def boundNames (ss : List Stmt) : List String :=
  ss.flatMap Tree.bindings ++ (Frame.ofStmts ss).reflectsAll ss

variable {s' : Stmt} {brief : Brief} {f' f : Func} {role : Role} {className : Option String}
  {name : Maybe .name} {m mark : Mark} {form : FuncDeclForm} {member : ClassMember}

section

variable {w w' : Walker} {s : Stmt} {plan : StmtPlan} {fs : List Stmt}

/-- The statements behind a statement are constants of named types. -/
theorem Planned.bindings_follower (h : Planned w s plan fs w') :
    ∀ f ∈ fs, f.bindings = (f.reflected? w.context.scope.options.library).toList := by
  have constant {loc : Loc} {name : String} {value : Expr} {exported : Bool}
      (named : value.isNamedType w.context.scope.options.library = true) :
      (Synthetic.constStmt loc name value exported).bindings =
        ((Synthetic.constStmt loc name value exported).reflected?
          w.context.scope.options.library).toList := by
    rw [bindings_constStmt, Stmt.reflected?_constStmt, named]
    rfl
  cases h with
  | interfaceDecl _ _ _ _ _ reflected | aliasDecl _ reflected =>
    exact forall_mem_singleton.2 (constant (Scope.isNamedType_namedType reflected))
  | _ => exact nofun

theorem Planned.bindings_followers (h : Planned w s plan fs w') :
    fs.flatMap Tree.bindings = w.context.frame.reflects s := by
  rw [← h.reflects, filterMap_eq_flatMap_toList]
  exact flatMap_congr h.bindings_follower

/-- A statement with others behind it binds nothing, and they bind one name. -/
theorem Planned.nodup_followers (h : Planned w s plan fs w') (some : fs ≠ []) :
    (s.bindings ++ fs.flatMap Tree.bindings).Nodup := by
  cases h with
  | interfaceDecl hd =>
    subst hd
    simp [bindings_node, Form.ownNames, Form.passesNames]
  | aliasDecl => simp [bindings_node, Form.ownNames, Form.passesNames]
  | _ => exact (some rfl).elim

variable {options : Options} {p : Point} {vs : List Visit}

/-- What is written for a statement binds what the statement bound. -/
theorem Writes.bindings_stmt (h : Writes options p (.node s .none) (s', fs) vs) :
    s'.bindings = s.bindings ∧ fs.flatMap Tree.bindings = p.frame.reflects s := by
  obtain ⟨w, w', s'', plan, us, tracks, -, -, planned, root, -, rfl, -⟩ := h.stmt_inv
  rw [StmtPlan.bindings_apply, root.bindings_eq, ← tracks.frame]
  exact ⟨rfl, planned.bindings_followers⟩

/-- **What is written for statements binds** their names and those of the constants behind them. -/
theorem Writes.perm_stmts {ss out : List Stmt} (h : Writes options p (.stmts ss) out vs) :
    (out.flatMap Tree.bindings).Perm (ss.flatMap Tree.bindings ++ p.frame.reflectsAll ss) := by
  induction ss generalizing p out vs with
  | nil =>
    cases h
    exact .nil
  | cons s ss ih =>
    cases h with
    | @stmtsCons _ _ s' fs _ out _ _ head tail =>
      obtain ⟨own, behind⟩ := head.bindings_stmt
      have rest := ih tail
      rw [s.frame_reached] at rest
      rw [cons_append, flatMap_cons, flatMap_append, own, behind, flatMap_cons,
        Frame.reflectsAll, append_assoc]
      refine Perm.append_left _ ?_
      exact (rest.append_left _).trans (perm_append_comm_assoc _ _ _)

theorem Writes.perm_list {ss ss' : Many .stmt} (h : Writes options p (.child .list ss) ss' vs) :
    ss'.bindings.Perm (boundNames ss.toList) := by
  cases h with
  | list stmts =>
    rw [bindings_ofList]
    exact stmts.perm_stmts

/-- What is written for a branch of a `switch` binds what is written for its statements. -/
def Branch.boundNames : Branch → List String
  | Branch.mk _ _ stmts => Reify.boundNames stmts.toList

theorem Writes.perm_branch {b b' : Branch}
    (h : Writes options p (.child (.told .none) b) b' vs) :
    b'.bindings.Perm (Branch.boundNames b) := by
  match b, h with
  | Branch.mk mark test stmts, h =>
  cases h with
  | told node =>
  cases node with
  | inert _ inner =>
  cases inner with
  | inner _ parts =>
  cases parts with
  | partsCons test' parts =>
  cases parts with
  | @partsCons _ _ _ _ _ _ _ _ stmts' _ _ list parts =>
  cases parts
  have none : Tree.bindings _ = [] := (test'.outlined.bindings_eq rfl).trans (bindings_maybeExpr test)
  change (Tree.bindings _ ++ (stmts'.bindings ++ [])).Perm _
  rw [none, nil_append, append_nil]
  exact list.perm_list

theorem Writes.perm_branches {bs bs' : List Branch}
    (h : Writes options p (.each .none bs) bs' vs) :
    (bs'.flatMap Tree.bindings).Perm (bs.flatMap Branch.boundNames) := by
  induction bs generalizing p bs' vs with
  | nil =>
    cases h
    exact .nil
  | cons b bs ih =>
    cases h with
    | eachCons head tail => exact head.perm_branch.append (ih tail)

/-! ### Functions -/

/-- What is written for the body of a function binds these names, before its plan is applied. -/
def Func.boundNames (f : Func) : List String := (f.stmts?.map Reify.boundNames).getD []

theorem Writes.names_func (h : Writes options p (.inner f brief) f' vs) :
    f'.names.Perm f.boundNames := by
  match f, h with
  | Func.mk mark form typeParams params result body, h =>
  cases h with
  | inner _ parts =>
  cases parts with
  | partsCons _ parts =>
  cases parts with
  | partsCons _ parts =>
  cases parts with
  | partsCons _ parts =>
  cases parts with
  | partsCons written parts =>
  cases parts
  cases written with
  | told node =>
    cases node with
    | inert inert => cases inert
  | toldAbsent => exact .nil
  | @toldPresent _ _ _ _ body body' present =>
  cases present with
  | told node =>
  cases node with
  | inert _ inner =>
  match body, inner with
  | FuncBody.block ss, inner =>
    cases inner with
    | inner _ parts =>
    match parts with
    | .partsCons stmts .partsNil => exact (Perm.of_eq Func.names_block).trans stmts.perm_list
  | FuncBody.expr e, inner =>
    cases inner with
    | @inner _ _ _ _ _ _ _ ts' _ parts =>
    match ts' with
    | .cons _ .nil => exact .nil

/-- The function that a task comes to has been dealt with, unless it is visited here. -/
theorem Writes.names_entered (h : Writes options p (.child (.told (.role role)) f) f' vs)
    (old : f.mark.id ∉ vs.map Visit.id) : f'.names.Perm f.boundNames := by
  cases h with
  | told node =>
  cases node with
  | inert inert => cases inert
  | func => exact (old mem_cons_self).elim
  | entered _ inner => exact inner.names_func

/-- The names that are bound by what is written for the body of a member's function. -/
def ClassMember.boundNames (m : ClassMember) : List String :=
  (m.func?.map Func.boundNames).getD []

variable {names : List String}

theorem Writes.names_member {m m' : ClassMember}
    (h : Writes options p (.child (.told (.member className names)) m) m' vs)
    (old : ∀ f ∈ m.func?, f.mark.id ∉ vs.map Visit.id) : m'.names.Perm m.boundNames := by
  match m, h, old with
  | ClassMember.mk mark form decorators key type val, h, old =>
  cases h with
  | told node =>
  cases node with
  | inert _ inner =>
  cases inner with
  | inner _ parts =>
  cases parts with
  | partsCons _ parts =>
  cases parts with
  | partsCons _ parts =>
  cases parts with
  | partsCons _ parts =>
  cases parts with
  | @partsCons _ _ _ _ _ _ _ _ val' _ _ written parts =>
  cases parts
  cases written with
  | generic child =>
  cases child with
  | told node =>
  cases node with
  | inert _ inner =>
  match val, inner, old with
  | MemberVal.function _ _ f, inner, old =>
    cases inner with
    | inner _ parts =>
    match parts with
    | .partsCons f' .partsNil =>
      refine f'.names_entered fun visited => old f rfl ?_
      simp only [map_append, mem_append]
      tauto
  | MemberVal.property _, inner, _ =>
    cases inner with
    | @inner _ _ _ _ _ _ _ ts' _ parts =>
    match ts' with
    | .cons _ .nil => exact .nil
  | MemberVal.index _ _ _ _, inner, _ =>
    cases inner with
    | @inner _ _ _ _ _ _ _ ts' _ parts =>
    match ts' with
    | .cons _ (.cons _ .nil) => exact .nil

/-- **Members of a class** whose functions have been dealt with bind what is written for their
bodies. -/
theorem Writes.binds_members {ms ms' : List ClassMember}
    (h : Writes options p (.each (.member className names) ms) ms' vs)
    (old : ∀ m ∈ ms, ∀ f ∈ m.func?, f.mark.id ∉ vs.map Visit.id)
    (distinct : ∀ m ∈ ms', m.Everywhere Tree.Distinct) :
    Forall₂ (fun m => m.Binds (ClassMember.boundNames m)) ms ms' := by
  induction ms generalizing p ms' vs with
  | nil =>
    cases h
    exact .nil
  | cons m ms ih =>
    cases h with
    | @eachCons _ _ _ vs us _ _ _ _ head tail =>
      rw [forall_mem_cons] at old distinct
      have early : ∀ f ∈ m.func?, f.mark.id ∉ vs.map Visit.id := fun f hf visited =>
        old.1 f hf (by rw [map_append]; exact mem_append_left _ visited)
      have late : ∀ n ∈ ms, ∀ f ∈ n.func?, f.mark.id ∉ us.map Visit.id := fun n hn f hf visited =>
        old.2 n hn f hf (by rw [map_append]; exact mem_append_right _ visited)
      refine .cons ⟨Alike.isTarget_eq head.outlined, distinct.1, ?_⟩ (ih tail late distinct.2)
      exact (head.names_member early).subperm

/-! ### Declarations -/

theorem Writes.classDecl_inv {form decorators typeParams base baseArgs implemented members decl}
    (hd : decl = ClassDecl.mk mark form decorators name typeParams base baseArgs implemented members)
    (h : Writes options p (.inner (Stmt.classDecl m decl) brief) s' vs) :
    ∃ decl' ms' q className names us, s' = Stmt.classDecl m decl' ∧
      ClassDecl.memberList decl' = ms' ∧ us ⊆ vs ∧
      Writes options q (.each (.member className names) members.toList) ms' us := by
  subst hd
  cases h with
  | inner _ parts =>
  cases parts with
  | partsCons head parts =>
  cases parts
  cases head with
  | told node =>
  cases node with
  | inert _ inner =>
  cases inner with
  | inner _ parts =>
  cases parts with
  | partsCons _ parts =>
  cases parts with
  | partsCons _ parts =>
  cases parts with
  | partsCons _ parts =>
  cases parts with
  | partsCons _ parts =>
  cases parts with
  | partsCons _ parts =>
  cases parts with
  | partsCons _ parts =>
  cases parts with
  | partsCons written parts =>
  cases parts
  cases written with
  | told node =>
    cases node with
    | inert inert => cases inert
  | @toldMany _ _ _ _ ms' _ each =>
    refine ⟨_, ms', _, _, _, _, rfl, toList_ofList ms', fun v hv => ?_, each⟩
    simp only [mem_append]
    tauto

theorem Writes.funcDecl_inv
    (h : Writes options p (.inner (Stmt.funcDecl m (FuncDecl.mk mark form name f)) brief) s' vs)
    (old : f.mark.id ∉ vs.map Visit.id) :
    ∃ name' f', s' = Stmt.funcDecl m (FuncDecl.mk mark form name' f') ∧
      f'.names.Perm f.boundNames := by
  cases h with
  | inner _ parts =>
  cases parts with
  | partsCons head parts =>
  cases parts
  cases head with
  | told node =>
  cases node with
  | inert _ inner =>
  cases inner with
  | inner _ parts =>
  match parts with
  | .partsCons _ (.partsCons f' .partsNil) =>
    refine ⟨_, _, rfl, f'.names_entered fun visited => old ?_⟩
    simp only [map_append, mem_append]
    tauto

end

/-! ### The names of a scope -/

/-- The names bound in the scopes that a tree opens once it is written.  The constructor of a generic
class gets the constant that holds the type parameters. -/
def Tree.ownEmitted (options : Options) : (c : Category) → Tree c → List (List String)
  | .unit, SourceUnit.mk _ stmts => [options.library :: boundNames stmts.toList]
  | .block, Block.mk _ stmts => [boundNames stmts.toList]
  | .handler, Handler.mk _ _ _ stmts => [boundNames stmts.toList]
  | .stmt, Stmt.switch _ _ branches => [branches.toList.flatMap Branch.boundNames]
  | .funcBody, FuncBody.block stmts => [boundNames stmts.toList]
  | .func, f => [Func.added options f ++ Func.boundNames f]
  | .classDecl, decl@(ClassDecl.mk _ form _ _ _ _ _ _ members) =>
    if form.ambient then []
    else (members.toList.find? ConstructorPlan.isTarget).toList.map fun m =>
      ClassDecl.holders options decl ++ (ClassMember.added options m ++ ClassMember.boundNames m)
  | _, _ => []

/-- The names bound in each scope once a tree is written, outside what the walk leaves as it is. -/
def Tree.emitted (options : Options) {c : Category} (t : Tree c) : List (List String) :=
  t.gather Category.isLeft (Tree.ownEmitted options)

namespace Task

/-- The names bound in each scope once a task is done. -/
def emitted (options : Options) : Task → List (List String)
  | node t _ | inner t _ | child _ t => t.emitted options
  | parts _ ts => ts.gather Category.isLeft (Tree.ownEmitted options)
  | each _ ts => ts.flatMap (Tree.emitted options)
  | stmts ss => ss.flatMap (Tree.emitted options)

/-- In what the task walks no scope binds a name twice, nor does one once the task is done. -/
structure Distinct (options : Options) (k : Task) : Prop where
  source : k.Everywhere Tree.Distinct
  inner : k.Everywhere fun c _ => c.isInner = true
  emitted : ∀ names ∈ k.emitted options, names.Nodup

end Task

section

variable {options : Options} {c : Category}

theorem Tree.own_subset_emitted (hc : c.isLeft = false) (t : Tree c) :
    Tree.ownEmitted options c t ⊆ t.emitted options := by
  match t with
  | .node form marks ts =>
    rw [Tree.emitted, gather_node, hc]
    exact subset_append_left _ _

theorem Tree.parts_subset_emitted (hc : c.isLeft = false) {form : Form c} {marks ts} :
    ts.gather Category.isLeft (Tree.ownEmitted options) ⊆
      (Tree.node form marks ts).emitted options := by
  rw [Tree.emitted, gather_node, hc]
  exact subset_append_right _ _

theorem Tree.emitted_subset_many {ts : Many c} {t} (h : t ∈ ts.toList) :
    t.emitted options ⊆ ts.emitted options := by
  rw [← ofList_toList ts]
  change t.emitted options ⊆ (Tree.ofList ts.toList).gather _ _
  rw [gather_ofList]
  exact fun names hn => mem_append_right _ (mem_flatMap.2 ⟨t, h, hn⟩)

theorem Tree.emitted_toList {ts : Many c} :
    ts.toList.flatMap (Tree.emitted options) ⊆ ts.emitted options := by
  intro names hn
  obtain ⟨t, ht, hn⟩ := mem_flatMap.1 hn
  exact emitted_subset_many ht hn

theorem ClassMember.emitted_func {m : ClassMember} (h : f ∈ m.func?) :
    f.emitted options ⊆ m.emitted options := by
  match m, h with
  | ClassMember.mk mark form decorators key type (MemberVal.function fm kind g), h =>
    obtain rfl := Option.some.inj h
    intro names hn
    have inside : names ∈ (MemberVal.function fm kind g).emitted options :=
      parts_subset_emitted rfl (mem_append_left _ hn)
    exact parts_subset_emitted rfl (mem_append_right _ (mem_append_right _
      (mem_append_right _ (mem_append_left _ inside))))

/-! ### Scopes that are written -/

variable {p : Point} {vs : List Visit}

/-- **A scope that is written binds no name twice**, if the names that it has to bind are
distinct. -/
theorem Writes.distinct_node {form marks ts ts'}
    (h : Writes options p (.parts (form.modes marks ts brief) ts) ts' vs)
    (source : Tree.Distinct c (.node form marks ts)) (inner : c.isInner = true)
    (emitted : ∀ names ∈ Tree.ownEmitted options c (.node form marks ts), names.Nodup) :
    Tree.Distinct c (.node form marks ts') := by
  have single {names names' : List String} (perm : names'.Perm names)
      (own : ∀ ns ∈ [names], ns.Nodup) : ∀ ns ∈ [names'], ns.Nodup :=
    forall_mem_singleton.2 (perm.nodup_iff.2 (forall_mem_singleton.1 own))
  cases c with
  | unit => cases inner
  | block =>
    match marks, ts, h, emitted with
    | .one _, .cons _ .nil, .partsCons stmts .partsNil, emitted =>
      exact ⟨single stmts.perm_list emitted, nofun⟩
  | handler =>
    match marks, ts, h, emitted with
    | .one _, .cons _ (.cons _ (.cons _ .nil)),
      .partsCons _ (.partsCons _ (.partsCons stmts .partsNil)), emitted =>
      exact ⟨single stmts.perm_list emitted, nofun⟩
  | funcBody =>
    match form, marks, ts, ts', h, emitted with
    | .block, .none, .cons _ .nil, _, .partsCons stmts .partsNil, emitted =>
      exact ⟨single stmts.perm_list emitted, nofun⟩
    | .expr, _, _, _, _, _ => exact distinct_of_plain rfl nofun
  | stmt =>
    cases form with
    | switch =>
      match marks, ts, h, emitted with
      | .two _, .cons _ (.cons branches .nil), h, emitted =>
        cases h with
        | partsCons _ parts =>
        cases parts with
        | partsCons written parts =>
        cases parts
        cases written with
        | inScope child =>
        cases child with
        | told node =>
          cases node with
          | inert inert => cases inert
        | toldMany each =>
          refine ⟨single ?_ emitted, nofun⟩
          rw [bindings_ofList]
          exact each.perm_branches
    | _ => exact distinct_of_plain rfl nofun
  | many c =>
    by_cases hc : c = .typeParam
    · subst hc
      obtain rfl := h.of_skip
      exact source
    · exact distinct_of_plain rfl fun same => hc (Category.many.inj same)
  | _ => exact distinct_of_plain rfl nofun

/-! ### Declarations that are written -/

theorem ClassMember.nodup_added {m : ClassMember}
    (emitted : ∀ names ∈ m.emitted options, names.Nodup) :
    (m.added options ++ m.boundNames).Nodup := by
  rw [ClassMember.added, ClassMember.boundNames]
  cases hf : m.func? with
  | none => exact nodup_nil
  | some f =>
    exact emitted _ (ClassMember.emitted_func hf (own_subset_emitted rfl f mem_cons_self))

theorem ClassMember.emitted_subset_stmt {mark form decorators name typeParams base baseArgs}
    {implemented members} (h : member ∈ Tree.toList members) :
    member.emitted options ⊆ (Stmt.classDecl m (ClassDecl.mk mark form decorators name typeParams base
      baseArgs implemented members)).emitted options := by
  intro names hn
  have inside : names ∈ (ClassDecl.mk mark form decorators name typeParams base baseArgs implemented
      members).emitted options := by
    refine parts_subset_emitted rfl ?_
    simp only [Children.gather_cons, mem_append]
    exact .inr (.inr (.inr (.inr (.inr (.inr (.inl (emitted_subset_many h hn)))))))
  exact parts_subset_emitted rfl (mem_append_left _ inside)

theorem Stmt.emitted_func :
    f.emitted options ⊆ (Stmt.funcDecl m (FuncDecl.mk mark form name f)).emitted options := by
  intro names hn
  have inside : names ∈ (FuncDecl.mk mark form name f).emitted options :=
    parts_subset_emitted rfl (mem_append_right _ (mem_append_left _ hn))
  exact parts_subset_emitted rfl (mem_append_left _ inside)

/-- The functions of a class are dealt with along with it. -/
theorem Stmt.id_mem_visits {mark form decorators name typeParams base baseArgs implemented}
    {members} (ambient : ClassForm.ambient form = false) (hm : member ∈ Tree.toList members)
    (hf : f ∈ member.func?) :
    f.mark.id ∈ ((Stmt.classDecl m (ClassDecl.mk mark form decorators name typeParams base baseArgs
      implemented members)).visits p).map Visit.id :=
  mem_map.2 ⟨_, Stmt.mem_visits.2 (.member rfl ambient hm hf), rfl⟩

/-- **The plan of a function** lets no scope bind a name twice. -/
theorem FuncPlan.everywhere_apply {s plan} (h : funcPlanOf s role f = .ok (some plan))
    (same : s.options = options) (source : f.Everywhere Tree.Distinct)
    (emitted : ∀ names ∈ f.emitted options, names.Nodup) (walked : f'.Everywhere Tree.Distinct)
    (names : f'.names.Perm f.boundNames) : (plan.apply f').Everywhere Tree.Distinct := by
  refine (FuncPlan.isDistinct_of_plan h source).everywhere_apply walked ?_
  have own := emitted _ (own_subset_emitted rfl f mem_cons_self)
  exact nodup_of_subperm ((same ▸ names_of_plan h).subperm.append names.subperm) own

/-- **The plan of a statement** lets no scope bind a name twice, if the functions that were dealt
with along with the statement are not visited inside it. -/
theorem Planned.everywhere_apply {w w'} {s s' : Stmt} {plan fs q brief} (h : Planned w s plan fs w')
    (tracks : p.Tracks options w) (root : SameRoot s s')
    (inner : Writes options q (.inner s brief) s' vs)
    (fresh : ((s.visits p).map Visit.id).Disjoint (vs.map Visit.id))
    (source : s.Everywhere Tree.Distinct) (emitted : ∀ names ∈ s.emitted options, names.Nodup)
    (frame : w.context.frame.Everywhere Tree.Distinct) (walked : s'.Everywhere Tree.Distinct) :
    (plan.apply s').Everywhere Tree.Distinct := by
  have options' := tracks.scope.options
  cases h with
  | ambientClass =>
    cases root with
    | @mk _ _ _ ts' parts =>
    match ts', walked with
    | .cons (ClassDecl.mk _ _ _ _ _ _ _ _ members) .nil, walked =>
      change (Stmt.classDecl _ (ClassDecl.mk _ _ _ _ _ _ _ _
        (.ofList (applyMembers [] members.toList)))).Everywhere _
      have same : applyMembers [] members.toList = members.toList := by
        cases members.toList <;> rfl
      rwa [same, ofList_toList]
  | @classDecl _ _ m mark form decorators name typeParams base baseArgs implemented members decl _ _
      _ hd ambient reflected planned finished =>
    obtain ⟨decl', ms', _, _, _, us, rfl, rfl, sub, each⟩ := inner.classDecl_inv hd
    have walked := everywhere_classStmt.1 walked
    have member {n : ClassMember} (hn : n ∈ members.toList) :
        ∀ names ∈ n.emitted options, names.Nodup := by
      subst hd
      exact fun names hn' => emitted names (ClassMember.emitted_subset_stmt hn hn')
    have old : ∀ n : ClassMember, n ∈ members.toList → ∀ f ∈ n.func?,
        f.mark.id ∉ us.map Visit.id := by
      intro n hn f hf visited
      refine fresh ?_ (map_subset _ sub visited)
      rw [hd]
      exact Stmt.id_mem_visits ambient hn hf
    refine everywhere_classStmt.2 (ClassPlan.everywhere_apply hd (everywhere_classStmt.1 source)
      (frame.joined _) reflected planned finished walked (each.binds_members old ?_) ?_ ?_)
    · match decl', walked with
      | ClassDecl.mk _ _ _ _ _ _ _ _ _, walked =>
        exact Tree.Everywhere.toList (everywhere_classDecl.1 walked).2.2.2.2.2.2
    · rw [options']
      exact fun n hn => ClassMember.nodup_added (member hn)
    · intro n found
      refine emitted _ (parts_subset_emitted rfl (mem_append_left _
        (own_subset_emitted rfl decl ?_)))
      rw [options', hd]
      change _ ∈ if form.ambient then [] else _
      rw [if_neg (by simp [ambient])]
      exact mem_map.2 ⟨n, Option.mem_toList.2 found, rfl⟩
  | varDecl planned =>
    cases root with
    | @mk _ _ _ ts' parts =>
    match ts', walked with
    | .cons decl' .nil, walked =>
      have decl := walked.2.1
      refine (everywhere_of_routine rfl).2 (Children.everywhere_cons.2 ⟨?_, by simp⟩)
      exact VarDecl.everywhere_applyInits planned (Scope.suits_distinct _) source.2.1.2.1
        decl
  | @funcDecl _ m mark form name f plan _ planned =>
    have old : f.mark.id ∉ vs.map Visit.id := fresh (mem_cons_of_mem _ mem_cons_self)
    obtain ⟨name', f', rfl, names⟩ := inner.funcDecl_inv old
    cases plan with
    | none => exact walked
    | some plan =>
      have func := FuncPlan.everywhere_apply planned options' source.2.1.2.2.1
        (fun names hn => emitted names (Stmt.emitted_func hn)) walked.2.1.2.2.1 names
      obtain ⟨decl, -⟩ := walked.2
      obtain ⟨name, -⟩ := decl.2
      have decl' : (FuncDecl.mk mark form name' (plan.apply f')).Everywhere Tree.Distinct :=
        (everywhere_of_routine rfl).2 (by simp [name, func])
      exact (everywhere_of_routine rfl).2 (Children.everywhere_cons.2 ⟨decl', by simp⟩)
  | _ => exact walked

/-! ### The walk -/

/-- A list of type parameters keeps their names. -/
theorem Writes.distinct_many {ts ts' : Many c}
    (h : Writes options p (.child (.told brief) ts) ts' vs) (source : Tree.Distinct (.many c) ts) :
    Tree.Distinct (.many c) ts' := by
  by_cases hc : c = .typeParam
  · subst hc
    have alike : Alike (.tree (.maybe (.many .typeParam))) (.present ts) (.present ts') :=
      .of_parts (.partsCons h.outlined .partsNil)
    have names : ts'.toList.map TypeParam.name = ts.toList.map TypeParam.name :=
      alike.typeParamNames_eq
    refine ⟨nofun, forall_mem_singleton.2 ?_⟩
    rw [names]
    exact forall_mem_singleton.1 source.2
  · match ts' with
    | .node form marks us =>
      exact distinct_of_plain rfl fun same => hc (Category.many.inj same)

variable {fs : List Stmt} {s : Stmt}

/-- A statement and those behind it bind different names. -/
theorem Writes.nodup_followed (h : Writes options p (.node s brief) (s', fs) vs) (some : fs ≠ []) :
    ((s' :: fs).flatMap Tree.bindings).Nodup := by
  cases h with
  | inert inert => cases inert
  | stmt _ _ _ planned root =>
    rw [flatMap_cons, StmtPlan.bindings_apply, root.bindings_eq]
    exact planned.nodup_followers some

theorem Stmt.everywhere_followedBy (hs : s.Everywhere Tree.Distinct)
    (hf : ∀ f ∈ fs, f.Everywhere Tree.Distinct)
    (names : fs ≠ [] → ((s :: fs).flatMap Tree.bindings).Nodup) :
    (s.followedBy fs).Everywhere Tree.Distinct := by
  cases fs with
  | nil => exact hs
  | cons f fs =>
    have stmts : (Tree.ofList (s :: f :: fs)).Everywhere Tree.Distinct :=
      (everywhere_list (c := .stmt) nofun).2 (forall_mem_cons.2 ⟨hs, hf⟩)
    have own : Tree.Distinct .block (Block.mk (.synthetic (Tree.mark s).loc)
        (.ofList (s :: f :: fs))) := by
      refine ⟨forall_mem_singleton.2 ?_, nofun⟩
      rw [bindings_ofList]
      exact names nofun
    have block := everywhere_node.2 ⟨own, Children.everywhere_cons.2 ⟨stmts, by simp⟩⟩
    exact (everywhere_of_routine rfl).2 (Children.everywhere_cons.2 ⟨block, by simp⟩)

/-- **No scope that is written binds a name twice.** -/
theorem Writes.distinct {k out} (h : Writes options p k out vs) :
    (vs.map Visit.id).Nodup → k.Distinct options → p.frame.Everywhere Tree.Distinct →
      k.OutEverywhere Tree.Distinct out := by
  induction h with
  | inert _ _ ih | entered _ _ ih =>
    intro nodup d frame
    exact ⟨ih nodup ⟨d.source, d.inner, d.emitted⟩ frame, nofun⟩
  | @stmt p w _ s s' plan fs _ tracks _ _ planned root inner ih =>
    intro nodup d frame
    rw [map_append] at nodup
    have walked := ih nodup.of_append_right ⟨d.source, d.inner, d.emitted⟩ (frame.passing d.source)
    have known : w.context.frame.Everywhere Tree.Distinct := tracks.frame ▸ frame
    exact ⟨planned.everywhere_apply tracks root inner (disjoint_of_nodup_append nodup) d.source
      d.emitted known walked, planned.everywhere_followers d.source known (Scope.suits_distinct _)⟩
  | @func p s f f' role plan _ scope planned _ inner ih =>
    intro nodup d frame
    have walked := ih nodup.of_cons ⟨d.source, d.inner, d.emitted⟩ frame
    refine ⟨?_, nofun⟩
    cases plan with
    | none => exact walked
    | some plan =>
      exact FuncPlan.everywhere_apply planned scope.options d.source d.emitted walked inner.names_func
  | @header p s mark form ds decl decl' plans _ hd scope planned _ _ ih =>
    intro nodup d frame
    have source : (ForInit.decl decl).Everywhere Tree.Distinct := d.source
    have walked : (ForInit.decl decl').Everywhere Tree.Distinct :=
      ih nodup.of_cons ⟨source, d.inner, d.emitted⟩ (everywhere_after _ source frame)
    have declarators : ds.Everywhere Tree.Distinct := by
      subst hd
      exact source.2.1.2.1
    have applied := VarDecl.everywhere_applyInits planned (Scope.suits_distinct _) declarators
      walked.2.1
    exact ⟨(everywhere_of_routine rfl).2 (Children.everywhere_cons.2 ⟨applied, by simp⟩), nofun⟩
  | @inner p c _ form marks brief ts ts' _ parts ih =>
    intro nodup d frame
    have source : (Tree.node form marks ts).Everywhere Tree.Distinct := d.source
    have inner : (Tree.node form marks ts).Everywhere fun c _ => c.isInner = true := d.inner
    by_cases left : c.isLeft = true
    · -- What the walk leaves as it is stays as it was.
      rw [Form.modes_of_left left] at parts
      obtain rfl := parts.of_skip
      exact source
    · have walked : c.isLeft = false := eq_false_of_ne_true left
      refine everywhere_node.2 ⟨parts.distinct_node source.root inner.root
        fun names hn => d.emitted names (own_subset_emitted walked _ hn), ?_⟩
      exact ih nodup ⟨source.parts, inner.parts,
        fun names hn => d.emitted names (parts_subset_emitted walked hn)⟩
        (frame_inside _ p ▸ frame)
  | @doWhile p site test test' body body' brief _ _ _ _ ihFirst ihSecond =>
    intro nodup d frame
    rw [map_append] at nodup
    have source : (Stmt.doWhile site test body).Everywhere Tree.Distinct := d.source
    have inner : (Stmt.doWhile site test body).Everywhere fun c _ => c.isInner = true := d.inner
    have names := forall_mem_append.1 fun names hn =>
      d.emitted names (parts_subset_emitted rfl hn)
    obtain ⟨source₁, source₂⟩ := source.2
    obtain ⟨inner₁, inner₂⟩ := inner.2
    have source₂ := source₂.1
    have written := ihFirst nodup.of_append_left
      ⟨source₂, inner₂.1, (forall_mem_append.1 names.2).1⟩ frame
    have tested := ihSecond nodup.of_append_right ⟨source₁, inner₁, names.1⟩
      (body.everywhere_after source₂ frame)
    have loop : (Stmt.doWhile site test' body').Everywhere Tree.Distinct :=
      (everywhere_of_routine rfl).2 (Children.everywhere_cons.2 ⟨tested,
        Children.everywhere_cons.2 ⟨written, Children.everywhere_nil⟩⟩)
    exact loop
  | partsNil => exact fun _ _ _ => Children.everywhere_nil (P := Tree.Distinct)
  | @partsCons p mode modes c cs _ _ t t' ts ts' _ _ ihHead ihTail =>
    intro nodup d frame
    rw [map_append] at nodup
    obtain ⟨head, tail⟩ := d.source
    obtain ⟨headInner, tailInner⟩ := d.inner
    obtain ⟨headNames, tailNames⟩ := forall_mem_append.1 d.emitted
    exact Children.everywhere_cons.2 ⟨ihHead nodup.of_append_left ⟨head, headInner, headNames⟩ frame,
      ihTail nodup.of_append_right ⟨tail, tailInner, tailNames⟩ (mode.everywhere_after head frame)⟩
  | skip => exact fun _ d _ => d.source
  | @told p c brief _ t t' fs node ih =>
    intro nodup d frame
    obtain ⟨walked, followers⟩ := ih nodup ⟨d.source, d.inner, d.emitted⟩ frame
    cases c with
    | stmt => exact Stmt.everywhere_followedBy walked followers node.nodup_followed
    | _ => exact walked
  | @toldMany p c brief _ ts' t each ih =>
    intro nodup d frame
    have walked := ih nodup ⟨Tree.Everywhere.toList d.source, Tree.Everywhere.toList d.inner,
      fun names hn => d.emitted names (emitted_toList hn)⟩ frame
    exact everywhere_ofList.2 ⟨(Writes.toldMany each).distinct_many d.source.root, walked⟩
  | @toldAbsent _ c =>
    have absent : (Tree.absent (c := c)).Everywhere Tree.Distinct := by simp
    exact fun _ _ _ => absent
  | @toldPresent p c brief _ t t' _ ih =>
    intro nodup d frame
    have names : ∀ names ∈ t.emitted options, names.Nodup := fun names hn =>
      d.emitted names (parts_subset_emitted rfl (mem_append_left _ hn))
    exact everywhere_present.2 (ih nodup ⟨d.source.toOption t rfl, d.inner.toOption t rfl, names⟩
      frame)
  | @list p stmts out _ _ ih =>
    intro nodup d frame
    have source := Tree.Everywhere.toList d.source
    have walked := ih nodup ⟨source, Tree.Everywhere.toList d.inner,
      fun names hn => d.emitted names (emitted_toList hn)⟩ (Frame.everywhere_ofStmts source)
    exact (everywhere_list (c := .stmt) nofun).2 walked
  | @top p stmts out _ _ ih =>
    intro nodup d frame
    have walked := ih nodup ⟨Tree.Everywhere.toList d.source, Tree.Everywhere.toList d.inner,
      fun names hn => d.emitted names (emitted_toList hn)⟩ frame
    exact (everywhere_list (c := .stmt) nofun).2 walked
  | inScope _ ih | generic _ ih =>
    intro nodup d frame
    exact ih nodup ⟨d.source, d.inner, d.emitted⟩ frame
  | @eachCons p c brief _ _ ts ts' t t' _ _ ihHead ihTail =>
    intro nodup d frame
    rw [map_append] at nodup
    obtain ⟨head, tail⟩ := forall_mem_cons.1 d.source
    obtain ⟨headInner, tailInner⟩ := forall_mem_cons.1 d.inner
    obtain ⟨headNames, tailNames⟩ := forall_mem_append.1 d.emitted
    exact forall_mem_cons.2 ⟨ihHead nodup.of_append_left ⟨head, headInner, headNames⟩ frame,
      ihTail nodup.of_append_right ⟨tail, tailInner, tailNames⟩ (t.everywhere_after head frame)⟩
  | @stmtsCons p s s' fs rest out _ _ _ _ ihHead ihTail =>
    intro nodup d frame
    rw [map_append] at nodup
    obtain ⟨head, tail⟩ := forall_mem_cons.1 d.source
    obtain ⟨headInner, tailInner⟩ := forall_mem_cons.1 d.inner
    obtain ⟨headNames, tailNames⟩ := forall_mem_append.1 d.emitted
    obtain ⟨stmt, followers⟩ :=
      ihHead nodup.of_append_left ⟨head, headInner, headNames⟩ frame
    exact forall_mem_cons.2 ⟨stmt, forall_mem_append.2 ⟨followers, ihTail
      nodup.of_append_right ⟨tail, tailInner, tailNames⟩ (s.everywhere_after head frame)⟩⟩
  | _ => exact fun _ _ _ => nofun

end

/-! ### Units -/

/-- The imports in front of a unit bind the name of the library only. -/
theorem bindings_libraryImports (options : Options) (loc : Loc) :
    (libraryImports options loc).flatMap Tree.bindings = [options.library] := by
  rw [libraryImports]
  split <;> rfl

theorem everywhere_libraryImports (options : Options) (loc : Loc) :
    ∀ s ∈ libraryImports options loc, s.Everywhere Tree.Distinct := by
  have none (name : Option String) (module : String) :
      (Synthetic.importStmt loc name module).Everywhere Tree.Distinct := by
    refine everywhere_distinct.2 ⟨?_, ?_⟩ <;> cases name <;> exact nofun
  rw [libraryImports]
  intro s hs
  rcases mem_append.1 hs with hs | hs
  · split at hs
    · obtain rfl := mem_singleton.1 hs
      exact none _ _
    · cases hs
  · obtain rfl := mem_singleton.1 hs
    exact none _ _

/-- **No scope of the result binds a name twice**, if no scope of the unit does, no list of type
parameters has a name twice, and the names that are added to a scope differ from each other and from
those of the scope. -/
theorem no_duplicate_bindings (options : Options) (unit : SourceUnit) {out : SourceUnit} {w : Walker}
    (original : unit.Original) (distinct : (unit.marks.map Mark.id).Nodup)
    (run : (instrument unit).run { context := .start options unit } = (out, w))
    (clean : w.errors = []) (scopes : ∀ names ∈ unit.scopes, names.Nodup)
    (typeParams : ∀ names ∈ unit.paramNames, names.Nodup)
    (emitted : ∀ names ∈ unit.emitted options, names.Nodup) :
    ∀ names ∈ out.scopes, names.Nodup := by
  obtain ⟨out', vs, writes, visits, rfl⟩ := instrument_writes original distinct run clean
  have nodup : (vs.map Visit.id).Nodup :=
    visits.nodup_iff.2 (distinct.sublist (unit.idsOf_sublist _ _))
  have source : unit.Everywhere Tree.Distinct := Tree.everywhere_distinct.2 ⟨scopes, typeParams⟩
  obtain ⟨_, _ | mark, _ | ⟨stmts, _ | _⟩⟩ := unit
  have each : ∀ s ∈ stmts.toList, s.Everywhere Tree.Distinct :=
    Tree.Everywhere.toList source.2.1
  have task : (Task.stmts stmts.toList).Distinct options := by
    refine ⟨each, fun s _ => s.everywhere_inner rfl, fun names hn => emitted names ?_⟩
    exact Tree.parts_subset_emitted rfl (List.mem_append_left _ (Tree.emitted_toList hn))
  have written := writes.distinct nodup task (Frame.everywhere_ofStmts each)
  -- The scope of the unit binds the name of the library and what its statements come to.
  have own : (Tree.ofList (libraryImports options mark.loc ++ out')).bindings.Nodup := by
    rw [Tree.bindings_ofList, List.flatMap_append, bindings_libraryImports]
    refine (writes.perm_stmts.cons options.library).nodup_iff.2 ?_
    exact emitted _ (Tree.own_subset_emitted rfl (SourceUnit.mk mark stmts) List.mem_cons_self)
  have all : (SourceUnit.mk mark (.ofList (libraryImports options mark.loc ++ out'))).Everywhere
      Tree.Distinct := by
    refine Tree.everywhere_node.2 ⟨⟨List.forall_mem_singleton.2 own, nofun⟩,
      Children.everywhere_cons.2 ⟨(Tree.everywhere_list (c := .stmt) nofun).2 ?_, by simp⟩⟩
    exact List.forall_mem_append.2 ⟨everywhere_libraryImports options mark.loc, written⟩
  exact (Tree.everywhere_distinct.1 all).1

/-- `type A = string; interface I<T> {} class C<T> { m<U>(x: A): U { const y = x; } }` -/
def namedTypes : SourceUnit :=
  (SourceUnit.mk {} (.ofList [
    Stmt.aliasDecl {} (AliasDecl.mk {} ⟨false, false, "A"⟩ .absent (TypeExpr.keyword {} .string)),
    Stmt.interfaceDecl {} (InterfaceDecl.mk {} ⟨false, false, "I"⟩
      (.present (.ofList [TypeParam.mk {} "T" .absent .absent])) (.ofList []) (.ofList [])),
    Stmt.classDecl {} (ClassDecl.mk {} ⟨false, false, false, false⟩ (.ofList [])
      (.present (Name.mk {} "C")) (.present (.ofList [TypeParam.mk {} "T" .absent .absent]))
      .absent .absent (.ofList [])
      (.ofList [ClassMember.mk {} ⟨false, false, false, none⟩ (.ofList [])
        (MemberKey.direct {} "m") .absent (MemberVal.function {} .method
          (Func.mk {} ⟨false, false, false⟩
            (.present (.ofList [TypeParam.mk {} "U" .absent .absent]))
            (.ofList [Param.mk {} ⟨false, false, none, false⟩ (.ofList [])
              (Binding.mk {} (Pat.ident {} "x"))
              (.present (TypeExpr.reference {} (.ident "A") .absent)) .absent])
            (.present (TypeExpr.reference {} (.ident "U") .absent))
            (.present (FuncBody.block (.ofList [Stmt.varDecl {} (VarDecl.mk {} ⟨false, .constant⟩
              (.ofList [Declarator.mk {} (Binding.mk {} (Pat.ident {} "y")) .absent
                (.present (Expr.ident {} "x"))]))])))))]))])).numbered

/-- What the unit becomes, and the state that this leads to. -/
def namedTypesOut : SourceUnit × Walker :=
  (instrument namedTypes).run { context := .start {} namedTypes }

theorem no_duplicate_bindings_namedTypes :
    namedTypes.Original ∧ (namedTypes.marks.map Mark.id).Nodup ∧ namedTypesOut.2.errors = [] ∧
      (∀ names ∈ namedTypes.scopes, names.Nodup) ∧ (∀ names ∈ namedTypes.paramNames, names.Nodup) ∧
      (∀ names ∈ namedTypes.emitted {}, names.Nodup) ∧
      ["U", "_returnType", "y"] ∈ namedTypesOut.1.scopes ∧
      ∀ names ∈ namedTypesOut.1.scopes, names.Nodup := by
  have original : namedTypes.Original := by decide +kernel
  have distinct : (namedTypes.marks.map Mark.id).Nodup := by decide +kernel
  have clean : namedTypesOut.2.errors = [] := List.isEmpty_iff.1 (by decide +kernel)
  have run : namedTypesOut = (namedTypesOut.1, namedTypesOut.2) := (Prod.eta namedTypesOut).symm
  have scopes : ∀ names ∈ namedTypes.scopes, names.Nodup := by decide +kernel
  have typeParams : ∀ names ∈ namedTypes.paramNames, names.Nodup := by decide +kernel
  have emitted : ∀ names ∈ namedTypes.emitted {}, names.Nodup := by decide +kernel
  exact ⟨original, distinct, clean, scopes, typeParams, emitted, by decide +kernel,
    no_duplicate_bindings {} namedTypes original distinct run clean scopes typeParams emitted⟩

/-- `type A = string; const A = x;` -/
def aliasedVariable : SourceUnit :=
  (SourceUnit.mk {} (.ofList [
    Stmt.aliasDecl {} (AliasDecl.mk {} ⟨false, false, "A"⟩ .absent (TypeExpr.keyword {} .string)),
    Stmt.varDecl {} (VarDecl.mk {} ⟨false, .constant⟩
      (.ofList [Declarator.mk {} (Binding.mk {} (Pat.ident {} "A")) .absent
        (.present (Expr.ident {} "x"))]))])).numbered

/-- What the unit becomes, and the state that this leads to. -/
def aliasedVariableOut : SourceUnit × Walker :=
  (instrument aliasedVariable).run { context := .start {} aliasedVariable }

/-- A type alias may have the name of a variable beside it.  Then its constant binds the name again. -/
theorem alias_rebinds_variable :
    aliasedVariable.Original ∧ (aliasedVariable.marks.map Mark.id).Nodup ∧
      aliasedVariableOut.2.errors = [] ∧ (∀ names ∈ aliasedVariable.scopes, names.Nodup) ∧
      ["_t", "A", "A"] ∈ aliasedVariableOut.1.scopes :=
  ⟨by decide +kernel, by decide +kernel, List.isEmpty_iff.1 (by decide +kernel), by decide +kernel,
    by decide +kernel⟩

end Reify
