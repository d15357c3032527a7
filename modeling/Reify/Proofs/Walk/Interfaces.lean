import Reify.Proofs.Walk.Lists

/-!
# Interfaces of a statement list

The interfaces of one name in a statement list become one constant, after the last of them, or they
belong to the classes of that name in the list (`interfaces_merge_within_list`).  Which of the two
is settled by the frame of the list, and the frame after some statements is the one before them with
every statement passed that the walk reaches without entering a list of its own
(`Tree.frame_reached`).
-/

namespace Reify

open List

/-! ### Statements that share a frame -/

/-- What `Tree.reached` does at a form. -/
def Form.reached : {c : Category} → (form : Form c) → Marks form.width → Children form.arity →
    Results (fun _ => List Stmt) form.arity → List Stmt
  | .stmt, form, marks, ts, rs =>
    .node (c := .stmt) form marks ts ::
      if StmtForm.holdsSingle form then rs.values.flatten else []
  | .unit, _, _, _, rs | .many _, _, _, _, rs | .maybe _, _, _, _, rs => rs.values.flatten
  | _, _, _, _, _ => []

/-- The statements of a tree that are dealt with in the frame around it: those that stand in no
statement list inside the tree. -/
def Tree.reached {c : Category} (t : Tree c) : List Stmt :=
  t.fold (X := fun _ => List Stmt) Form.reached

/-- The statements of several trees that are dealt with in the frame around them. -/
def Children.reached {cs : List Category} (ts : Children cs) : List Stmt :=
  (ts.fold (X := fun _ => List Stmt) Form.reached).values.flatten

mutual

/-- The frame after a tree. -/
theorem Tree.frame_reached : {c : Category} → (t : Tree c) → (p : Point) →
    (t.after p).frame = t.reached.foldl Frame.passing p.frame
  | c, .node form marks ts, p => by
    have parts := ts.frame_reached
    cases c with
    | stmt =>
      change (if StmtForm.holdsSingle form then ts.after (p.passing _) else p.passing _).frame =
        (if StmtForm.holdsSingle form then ts.reached else []).foldl Frame.passing _
      split
      · exact parts _
      · rfl
    | unit =>
      match marks, ts, parts with
      | .one _, .cons stmts .nil, parts => exact parts (p.opening stmts.toList)
    | many _ | maybe _ => exact parts p
    | _ => exact Tree.frame_after _ rfl p

theorem Children.frame_reached : {cs : List Category} → (ts : Children cs) → (p : Point) →
    (ts.after p).frame = ts.reached.foldl Frame.passing p.frame
  | _, .nil, _ => rfl
  | _, .cons t ts, p => by
    change (ts.after (t.after p)).frame = (t.reached ++ ts.reached).foldl _ _
    rw [ts.frame_reached, t.frame_reached, foldl_append]

end

/-- The statements that a statement has in place of a block. -/
def Stmt.singles (s : Stmt) : List Stmt := s.reached.tail

theorem Stmt.reached_eq (s : Stmt) : s.reached = s :: s.singles := by
  match s with
  | .node (c := .stmt) form marks ts => rfl

theorem frame_afterAll (ss : List Stmt) (p : Point) :
    (afterAll ss p).frame = (ss.flatMap Tree.reached).foldl Frame.passing p.frame := by
  induction ss generalizing p with
  | nil => rfl
  | cons s ss ih =>
    rw [afterAll_cons, ih, s.frame_reached, flatMap_cons, foldl_append]

/-- No statement that stands in place of a block is an interface or a class of the name. -/
def OnlyListed (name : String) (ss : List Stmt) : Prop :=
  ∀ s ∈ ss, ∀ t ∈ s.singles, (t.interfaceOf? name).isNone = true ∧ t.isClassOf name = false

instance (name : String) (ss : List Stmt) : Decidable (OnlyListed name ss) :=
  inferInstanceAs (Decidable (∀ s ∈ ss, ∀ t ∈ s.singles, _))

theorem OnlyListed.interfaces {name ss} (h : OnlyListed name ss) :
    interfacesOf name (ss.flatMap Tree.reached) = interfacesOf name ss := by
  induction ss with
  | nil => rfl
  | cons s ss ih =>
    have singles : s.singles.filterMap (Stmt.interfaceOf? name) = [] :=
      filterMap_eq_nil_iff.2 fun t ht =>
        Option.isNone_iff_eq_none.1 (h s mem_cons_self t ht).1
    have rest := ih fun t ht => h t (mem_cons_of_mem _ ht)
    rw [interfacesOf, interfacesOf] at rest ⊢
    rw [flatMap_cons, Stmt.reached_eq, filterMap_append, filterMap_cons, singles, rest,
      filterMap_cons]
    split <;> rfl

theorem OnlyListed.classes {name ss} (h : OnlyListed name ss)
    (class' : ∀ s ∈ ss, s.isClassOf name = false) :
    ∀ t ∈ ss.flatMap Tree.reached, t.isClassOf name = false := by
  intro t ht
  obtain ⟨s, hs, ht⟩ := mem_flatMap.1 ht
  rw [Stmt.reached_eq] at ht
  rcases mem_cons.1 ht with rfl | ht
  · exact class' _ hs
  · exact (h s hs t ht).2

/-! ### The constants along a list -/

/-- Whether a statement is a type alias of a name.  Ambient ones do not count. -/
def Stmt.isAliasOf (name : String) : Stmt → Bool
  | Stmt.aliasDecl _ (AliasDecl.mk _ form _ _) => !form.ambient && form.name == name
  | _ => false

/-- The names of the constants that follow a statement. -/
def Frame.reflects (f : Frame) : Stmt → List String
  | Stmt.aliasDecl _ (AliasDecl.mk _ form _ _) => if form.ambient then [] else [form.name]
  | stmt@(Stmt.interfaceDecl _ (InterfaceDecl.mk _ form _ _ _)) =>
    if (f.whole stmt).isSome then [form.name] else []
  | _ => []

variable {f : Frame} {plan : StmtPlan} {fs out : List Stmt} {w' w : Walker}

theorem Frame.reflects_interface {m d} :
    f.reflects (Stmt.interfaceDecl m d) =
      if (f.whole (Stmt.interfaceDecl m d)).isSome then [d.name] else [] := by
  match d with
  | InterfaceDecl.mk _ _ _ _ _ => rfl

theorem Frame.reflects_of_other {form : StmtForm} (h : form.isDeclaration = false)
    (marks : Marks (Form.width (c := .stmt) form)) (ts : Children (Form.arity (c := .stmt) form)) :
    f.reflects (.node (c := .stmt) form marks ts) = [] := by
  cases form with
  | classDecl | funcDecl | varDecl | interfaceDecl | aliasDecl | enumDecl => cases h
  | _ => rfl

theorem Scope.isNamedType_namedType {s : Scope} {loc name typeParams body e}
    (h : s.namedType loc name typeParams body = .ok e) :
    e.isNamedType s.options.library = true := by
  rw [Scope.namedType] at h
  split at h
  all_goals
    obtain ⟨reflection, -, rfl⟩ := bind_pure_eq_ok.1 h
    exact s.isNamedType_libraryCall loc "type" _

/-- The constants of named types that follow a statement. -/
theorem Planned.reflects {s} (h : Planned w s plan fs w') :
    fs.filterMap (Stmt.reflected? w.context.scope.options.library) = w.context.frame.reflects s := by
  cases h with
  | ambientInterface ambient =>
    rw [Frame.reflects_interface, Frame.whole_interface rfl, ambient]
    rfl
  | classInterface ambient class' =>
    rw [Frame.reflects_interface, Frame.whole_interface rfl, ambient, class']
    rfl
  | mergedInterface ambient class' merged =>
    rw [Context.isMerged] at merged
    rw [Frame.reflects_interface, Frame.whole_interface rfl, ambient, class', merged]
    rfl
  | pendingInterface hd ambient class' merged pending =>
    rw [Context.isMerged] at merged
    rw [Frame.reflects_interface, Frame.whole_interface hd, ambient, class', merged, pending]
    rfl
  | interfaceDecl hd ambient class' merged last reflected =>
    rw [Context.isMerged] at merged
    rw [Frame.reflects_interface, Frame.whole_interface hd, ambient, class', merged, last]
    rw [filterMap_cons, Stmt.reflected?_constStmt, Scope.isNamedType_namedType reflected, hd]
    rfl
  | ambientAlias ambient => exact (if_pos ambient).symm
  | aliasDecl ambient reflected =>
    rw [filterMap_cons, Stmt.reflected?_constStmt, Scope.isNamedType_namedType reflected]
    exact (if_neg (by simp [ambient])).symm
  | other h => exact (Frame.reflects_of_other h _ _).symm
  | _ => rfl

/-- The names of the constants that are added to a list. -/
def Frame.reflectsAll (f : Frame) : List Stmt → List String
  | [] => []
  | s :: ss => f.reflects s ++ (s.reached.foldl Frame.passing f).reflectsAll ss

theorem Frame.count_reflects (f : Frame) (s : Stmt) (name : String) :
    (f.reflects s).count name =
      if s.isAliasOf name || (s.interfaceOf? name).isSome && (f.whole s).isSome then 1 else 0 := by
  match s with
  | .node (c := .stmt) form marks ts =>
    cases form with
    | aliasDecl =>
      match marks, ts with
      | .one _, .cons (AliasDecl.mk _ form _ _) .nil =>
        change (if form.ambient then [] else [form.name]).count name =
          if (!form.ambient && form.name == name || false) then 1 else 0
        by_cases ambient : form.ambient = true
        · simp [ambient]
        · simp [ambient, count_singleton]
    | interfaceDecl =>
      match marks, ts with
      | .one m, .cons d .nil =>
        rw [Frame.reflects_interface, Stmt.interfaceOf?_interface]
        change _ = if false || _ then 1 else 0
        by_cases ambient : InterfaceDecl.ambient d = true
        · rw [Frame.whole_of_ambient ambient]
          simp
        · by_cases last : (f.whole (Stmt.interfaceDecl m d)).isSome = true
          · rw [if_pos last, count_singleton]
            simp [ambient, last]
          · simp [last]
    | _ => rfl

theorem Stmt.isAliasOf_of_interface {s : Stmt} {name d} (h : s.interfaceOf? name = some d) :
    s.isAliasOf name = false := by
  obtain ⟨m, rfl, -, -⟩ := Stmt.interfaceOf?_eq_some h
  rfl

section

variable {name : String} {stmts : List Stmt}

/-- Along a list without a class of the name, one constant is made for all its interfaces. -/
theorem Frame.count_reflectsAll (class' : ∀ s ∈ stmts, s.isClassOf name = false)
    (listed : OnlyListed name stmts) {before rest} (h : stmts = before ++ rest) :
    (((before.flatMap Tree.reached).foldl Frame.passing (Frame.ofStmts stmts)).reflectsAll
        rest).count name =
      rest.countP (Stmt.isAliasOf name) + if interfacesOf name rest = [] then 0 else 1 := by
  induction rest generalizing before with
  | nil => rfl
  | cons s rest ih =>
    have tail := @ih (before ++ [s]) (by simp [h])
    have passed : OnlyListed name before := fun t ht => listed t (by simp [h, ht])
    have inside : ∀ t ∈ before, t.isClassOf name = false := fun t ht => class' t (by simp [h, ht])
    have outside : ∀ t ∈ before ++ s :: rest, t.isClassOf name = false := h ▸ class'
    rw [flatMap_append, flatMap_singleton, foldl_append] at tail
    rw [Frame.reflectsAll, count_append, tail, Frame.count_reflects, countP_cons]
    cases hs : s.interfaceOf? name with
    | none =>
      have same : interfacesOf name (s :: rest) = interfacesOf name rest :=
        filterMap_cons_none hs
      rw [same]
      simp
      omega
    | some d =>
      have more : interfacesOf name (s :: rest) = d :: interfacesOf name rest :=
        filterMap_cons_some hs
      have whole := Frame.whole_along (forall_mem_append.2 ⟨passed.classes inside, outside⟩)
        passed.interfaces hs
      rw [← h] at whole
      rw [whole, Stmt.isAliasOf_of_interface hs, more]
      by_cases last : interfacesOf name rest = []
      · simp [last]
        omega
      · simp [last]

/-- Along a list with a class of the name, no constant is made for its interfaces. -/
theorem Frame.count_reflectsAll_of_class (class' : f.hasClass name = true) (ss : List Stmt) :
    (f.reflectsAll ss).count name = ss.countP (Stmt.isAliasOf name) := by
  induction ss generalizing f with
  | nil => rfl
  | cons s ss ih =>
    have tail := ih (f := s.reached.foldl Frame.passing f) (by rwa [Frame.hasClass_foldl])
    have own : (s.isAliasOf name || (s.interfaceOf? name).isSome && (f.whole s).isSome) =
        s.isAliasOf name := by
      cases hs : s.interfaceOf? name with
      | none => simp
      | some d => simp [Frame.whole_of_class class' hs]
    rw [Frame.reflectsAll, count_append, tail, Frame.count_reflects, own, countP_cons,
      Nat.add_comm]

end

/-! ### What is written for a list -/

/-- The mark of a statement of the source. -/
def Stmt.original? (s : Stmt) : Option Mark := if s.mark.id = 0 then none else some s.mark

theorem Stmt.original?_of_synthetic {s : Stmt} (h : s.Synthetic) : s.original? = none :=
  if_pos h.mark_id

theorem Stmt.reflected?_of_original {s : Stmt} (h : s.mark.id ≠ 0) (library : String) :
    s.reflected? library = none := by
  match s, h with
  | .node (c := .stmt) form marks ts, h =>
    cases form with
    | varDecl =>
      match marks, ts with
      | .one mark, .cons (VarDecl.mk _ _ ds) .nil => exact if_neg h
    | _ => rfl

section

variable {options : Options} {p : Point} {vs : List Visit}

variable {s : Stmt} {d : InterfaceDecl} {m : Mark} {name : String} {after before : List Stmt}
  {decl : ClassDecl}

/-- A statement that the walk comes to is one of the source. -/
theorem Stmt.mark_ne_zero (fresh : ∀ i ∈ s.counted, w.context.wasVisited i = false) :
    s.mark.id ≠ 0 := by
  intro zero
  have unseen := fresh s.mark.id (by rw [s.counted_eq .none]; exact mem_cons_self)
  rw [zero] at unseen
  cases unseen

/-- The statements of the source stay in a list, in order, and the constants of named types among
those that are added are what the frame says. -/
theorem Writes.original_reflected {ss} (h : Writes options p (.stmts ss) out vs) :
    out.filterMap Stmt.original? = ss.map Tree.mark ∧
      out.filterMap (Stmt.reflected? options.library) = p.frame.reflectsAll ss := by
  induction ss generalizing p out vs with
  | nil =>
    cases h
    exact ⟨rfl, rfl⟩
  | cons s ss ih =>
    cases h with
    | @stmtsCons _ _ s' fs _ out _ _ head tail =>
      obtain ⟨w, w', s'', plan, us, tracks, -, fresh, planned, root, -, rfl, -⟩ := head.stmt_inv
      obtain ⟨marks, names⟩ := ih tail
      have mark : (plan.apply s'').mark = s.mark := by rw [StmtPlan.mark_apply, root.mark_eq]
      have own : (plan.apply s'').mark.id ≠ 0 := by
        rw [mark]
        exact Stmt.mark_ne_zero fresh
      have followers : fs.filterMap Stmt.original? = [] :=
        filterMap_eq_nil_iff.2 fun f hf =>
          Stmt.original?_of_synthetic (planned.isAdded_followers f hf).synthetic
      have reflected := planned.reflects
      rw [tracks.scope.options, tracks.frame] at reflected
      refine ⟨?_, ?_⟩
      · rw [cons_append, filterMap_cons, filterMap_append, followers, marks]
        simp [Stmt.original?, mark, Stmt.mark_ne_zero fresh]
      · rw [cons_append, filterMap_cons, Stmt.reflected?_of_original own,
          filterMap_append, reflected, names, s.frame_reached]
        rfl

theorem Writes.of_skip {cs} {ts ts' : Children cs}
    (h : Writes options p (.parts (cs.map fun _ => .skip) ts) ts' vs) : ts' = ts := by
  induction cs generalizing p vs with
  | nil =>
    cases ts
    cases ts'
    rfl
  | cons c cs ih =>
    cases h with
    | partsCons head tail =>
      cases head with
      | skip => rw [ih tail]

/-- Nothing inside an interface is walked. -/
theorem Writes.interface_inv {brief} {s' : Stmt}
    (h : Writes options p (.inner (Stmt.interfaceDecl m d) brief) s' vs) :
    s' = Stmt.interfaceDecl m d := by
  cases h with
  | inner _ parts =>
  cases parts with
  | partsCons head tail =>
  cases tail
  cases head with
  | told node =>
  cases node with
  | inert _ inner =>
  match d, inner with
  | InterfaceDecl.mk mark form typeParams bases members, inner =>
  cases inner with
  | inner _ parts =>
  obtain rfl := parts.of_skip
  rfl

/-- The last interface of a name is followed by the reflection of what all of them come to. -/
theorem Planned.of_whole {q} (h : Planned w s plan fs w')
    (whole : w.context.frame.whole s = some q) :
    ∃ m d e, s = Stmt.interfaceDecl m d ∧ plan = .keep ∧
      (w.context.scope.namedType d.mark.loc d.name (q.typeParams.getD []) fun bound =>
        w.context.scope.interfaceBody bound d.mark.loc q.bases q.members) = .ok e ∧
      fs = [Synthetic.constStmt d.mark.loc d.name e q.exported] := by
  cases h with
  | ambientInterface ambient =>
    rw [Frame.whole_interface rfl, ambient] at whole
    cases whole
  | classInterface ambient class' =>
    rw [Frame.whole_interface rfl, ambient, class'] at whole
    cases whole
  | mergedInterface ambient class' merged =>
    rw [Context.isMerged] at merged
    rw [Frame.whole_interface rfl, ambient, class', merged] at whole
    cases whole
  | pendingInterface hd ambient class' merged pending =>
    rw [Context.isMerged] at merged
    rw [Frame.whole_interface hd, ambient, class', merged, pending] at whole
    cases whole
  | interfaceDecl hd ambient class' merged last reflected =>
    rw [Context.isMerged] at merged
    rw [Frame.whole_interface hd, ambient, class', merged, last] at whole
    obtain rfl := Option.some.inj whole
    subst hd
    exact ⟨_, _, _, rfl, rfl, reflected, rfl⟩
  | @other form _ _ h =>
    cases form with
    | classDecl | funcDecl | varDecl | interfaceDecl | aliasDecl | enumDecl => cases h
    | _ => cases whole
  | _ => cases whole

/-- The reflection of the interfaces of one name, taken together. -/
def Scope.reflectInterfaces (s : Scope) (loc : Loc) (name : String) (decls : List InterfaceDecl) :
    Except Unsupported Expr :=
  s.namedType loc name ((decls.findSome? InterfaceDecl.typeParams?).getD []) fun bound =>
    s.interfaceBody bound loc (decls.flatMap InterfaceDecl.bases)
      (decls.flatMap InterfaceDecl.members)

/-- The statement is the constant that reflects the interfaces of a name. -/
def Stmt.Reflects (options : Options) (loc : Loc) (name : String) (decls : List InterfaceDecl)
    (s : Stmt) : Prop :=
  ∃ (scope : Scope) (value : Expr), scope.options = options ∧
    scope.reflectInterfaces loc name decls = .ok value ∧
    s = Synthetic.constStmt loc name value (decls.any InterfaceDecl.exported)

/-- The constant stands right behind the last interface. -/
theorem Writes.last_interface (h : Writes options p (.stmts (before ++ s :: after)) out vs)
    (frame : p.frame = Frame.ofStmts (before ++ s :: after))
    (class' : ∀ t ∈ before ++ s :: after, t.isClassOf name = false)
    (listed : OnlyListed name before) (hd : s.interfaceOf? name = some d)
    (last : interfacesOf name after = []) :
    ∃ pre const post, out = pre ++ [s, const] ++ post ∧
      const.Reflects options d.mark.loc name (interfacesOf name (before ++ s :: after)) := by
  obtain ⟨pre, s', fs, post, us, rfl, node⟩ := h.stmts_split
  obtain ⟨w, w', s'', plan, us, tracks, -, -, planned, -, inner, rfl, -⟩ := node.stmt_inv
  have whole := Frame.whole_along (forall_mem_append.2
    ⟨listed.classes fun t ht => class' t (by simp [ht]), class'⟩) listed.interfaces hd
  rw [← frame, ← frame_afterAll, ← tracks.frame, last] at whole
  obtain ⟨m, rfl, -, rfl⟩ := Stmt.interfaceOf?_eq_some hd
  obtain ⟨m', d', e, same, rfl, reflected, rfl⟩ := planned.of_whole whole
  cases same
  obtain rfl := inner.interface_inv
  exact ⟨pre, _, post, rfl, w.context.scope, e, tracks.scope.options, reflected, rfl⟩

/-- The decorators of a class. -/
def Stmt.decorators : Stmt → List Decorator
  | Stmt.classDecl _ (ClassDecl.mk _ _ decorators _ _ _ _ _ _) => decorators.toList
  | _ => []

/-- The statement is a class that is annotated with its reflection, which takes in some members. -/
def Stmt.Annotated (options : Options) (decl : ClassDecl) (members : List TypeMember) (s : Stmt) :
    Prop :=
  let loc := decl.mark.loc
  ∃ (scope : Scope) (reflection : Expr), scope.options = options ∧
    scope.reflectClass loc decl members = .ok reflection ∧
    s.decorators.head? = some (Synthetic.decorator loc (scope.libraryCall loc "annotate" [reflection]))

theorem Stmt.isClassOf_class
    {mark form decorators cname typeParams base baseArgs implemented members}
    (hd : decl = ClassDecl.mk mark form decorators cname typeParams base baseArgs implemented
      members) :
    (Stmt.classDecl m decl).isClassOf name =
      ((if form.ambient then none else ClassDecl.name? decl) == some name) := by
  subst hd
  rfl

/-- The reflection of a class takes in the members of its interfaces. -/
theorem Writes.annotated
    (h : Writes options p (.stmts (before ++ Stmt.classDecl m decl :: after)) out vs)
    (frame : p.frame = Frame.ofStmts (before ++ Stmt.classDecl m decl :: after))
    (class' : (Stmt.classDecl m decl).isClassOf name = true) :
    ∃ pre decl' post, out = pre ++ [Stmt.classDecl m decl'] ++ post ∧
      (Stmt.classDecl m decl').Annotated options decl ((interfacesOf name
        (before ++ Stmt.classDecl m decl :: after)).flatMap InterfaceDecl.members) := by
  obtain ⟨pre, s', fs, post, us, rfl, node⟩ := h.stmts_split
  obtain ⟨w, w', s'', plan, us, tracks, -, -, planned, root, inner, rfl, -⟩ := node.stmt_inv
  cases planned with
  | ambientClass hd ambient =>
    rw [Stmt.isClassOf_class hd, if_pos ambient] at class'
    cases class'
  | @classDecl _ _ _ mark _ _ _ _ _ _ _ _ _ _ _ _ hd ambient reflected planned finished =>
    rw [Stmt.isClassOf_class hd, if_neg (by simp [ambient]), beq_iff_eq] at class'
    have place : decl.mark = mark := by rw [hd]; rfl
    rw [class', tracks.frame, frame_afterAll, frame] at reflected
    change Scope.reflectClass _ _ _ (Frame.interfaceMembers _ name) = _ at reflected
    rw [Frame.interfaceMembers_foldl, Frame.interfaceMembers_ofStmts, ← place] at reflected
    obtain ⟨checks, params, -, -, rfl⟩ := planFinish_ok hd finished
    rw [planned.scope_eq, ← place]
    cases root with
    | @mk _ _ _ ts' _ =>
    match ts' with
    | .cons (ClassDecl.mk _ _ _ _ _ _ _ _ _) .nil =>
      exact ⟨pre, _, post, rfl, w.context.scope, _, tracks.scope.options, reflected, rfl⟩
  | other declares => cases declares

end

/-! ### What comes of a list -/

theorem Stmt.original?_mapReturns (f : Loc → Expr → Expr) (s : Stmt) :
    (Stmt.mapReturns f s).original? = s.original? := by
  rw [original?, original?, Stmt.mark_mapReturns]

theorem Stmt.reflected?_mapReturns (library : String) (f : Loc → Expr → Expr) (s : Stmt) :
    (Stmt.mapReturns f s).reflected? library = s.reflected? library := by
  match s with
  | .node (c := .stmt) form marks ts =>
    cases form with
    | returning =>
      match marks, ts with
      | .two site, .cons value .nil => rfl
    | varDecl =>
      match marks, ts with
      | .one mark, .cons (VarDecl.mk _ _ _) .nil => rfl
    | _ => rfl

section

variable {options : Options} {ss ss' : Many .stmt} {name : String}

/-- The statements of the source stay in a list, in order. -/
theorem Rendered.original (h : Rendered options ss ss') :
    ss'.toList.filterMap Stmt.original? = ss.toList.map Tree.mark := by
  obtain ⟨p, out, vs, frame, writes, reworked⟩ := h
  have same := reworked.filterMap_eq Stmt.original? Stmt.original?_mapReturns
    fun _ s added => Stmt.original?_of_synthetic added.1.synthetic
  rw [Shape.stmts_many, Shape.stmts_many, Tree.toList_ofList] at same
  rw [same, writes.original_reflected.1]

/-- The constants of named types in a list are what its frame says. -/
theorem Rendered.reflected (h : Rendered options ss ss') :
    ss'.toList.filterMap (Stmt.reflected? options.library) =
      (Frame.ofStmts ss.toList).reflectsAll ss.toList := by
  obtain ⟨p, out, vs, frame, writes, reworked⟩ := h
  have same := reworked.filterMap_eq (Stmt.reflected? options.library)
    (Stmt.reflected?_mapReturns _) fun _ s added => added.2
  rw [Shape.stmts_many, Shape.stmts_many, Tree.toList_ofList] at same
  rw [same, writes.original_reflected.2, frame]

/-- The interfaces of a name in `list` come to one constant in `list'`, right behind the last of
them.  Any other constants of the name are those of type aliases. -/
structure MergedAlone (options : Options) (name : String) (list list' : List Stmt) : Prop where
  once : (list'.filterMap (Stmt.reflected? options.library)).count name =
    list.countP (Stmt.isAliasOf name) + 1
  placed : ∃ before s after d const, list = before ++ s :: after ∧ s.interfaceOf? name = some d ∧
    interfacesOf name after = [] ∧ [s, const] <:+: list' ∧
    const.Reflects options d.mark.loc name (interfacesOf name list)

/-- The interfaces of a name in `list` come to no constant in `list'`; every class of the name is
annotated with their members. -/
structure MergedIntoClasses (options : Options) (name : String) (list list' : List Stmt) :
    Prop where
  never : (list'.filterMap (Stmt.reflected? options.library)).count name =
    list.countP (Stmt.isAliasOf name)
  annotated : ∀ m decl, Stmt.classDecl m decl ∈ list →
    (Stmt.classDecl m decl).isClassOf name = true →
    ∃ decl', Stmt.classDecl m decl' ∈ list' ∧ (Stmt.classDecl m decl').Annotated options decl
      ((interfacesOf name list).flatMap InterfaceDecl.members)

theorem exists_last_interface {stmts} (h : interfacesOf name stmts ≠ []) :
    ∃ before s after d, stmts = before ++ s :: after ∧ s.interfaceOf? name = some d ∧
      interfacesOf name after = [] := by
  induction stmts with
  | nil => exact (h rfl).elim
  | cons s stmts ih =>
    by_cases last : interfacesOf name stmts = []
    · cases hs : s.interfaceOf? name with
      | none =>
        rw [show interfacesOf name (s :: stmts) = interfacesOf name stmts from
          filterMap_cons_none hs] at h
        exact (h last).elim
      | some d => exact ⟨[], s, stmts, d, rfl, hs, last⟩
    · obtain ⟨before, t, after, d, rfl, ht, none⟩ := ih last
      exact ⟨s :: before, t, after, d, rfl, ht, none⟩

theorem Rendered.mergedAlone (h : Rendered options ss ss') (some : interfacesOf name ss.toList ≠ [])
    (listed : OnlyListed name ss.toList)
    (class' : ∀ s ∈ ss.toList, Stmt.isClassOf name s = false) :
    MergedAlone options name ss.toList ss'.toList where
  once := by
    have count := Frame.count_reflectsAll class' listed (nil_append ss.toList).symm
    rw [h.reflected]
    rwa [if_neg some] at count
  placed := by
    obtain ⟨before, s, after, d, split, hd, last⟩ := exists_last_interface some
    obtain ⟨p, out, vs, frame, writes, reworked⟩ := h
    rw [split] at frame writes class' listed
    obtain ⟨pre, const, post, rfl, reflects⟩ := writes.last_interface frame class'
      (fun t ht => listed t (by simp [ht])) hd last
    have firm : ∀ t ∈ [s, const], Stmt.Firm t := by
      obtain ⟨m, rfl, -, -⟩ := Stmt.interfaceOf?_eq_some hd
      obtain ⟨scope, value, -, -, rfl⟩ := reflects
      rintro t (_ | ⟨_, _ | ⟨_, ⟨⟩⟩⟩) <;> exact ⟨fun _ => rfl, rfl⟩
    have together : [s, const] <:+: (Tree.ofList (pre ++ [s, const] ++ post)).toList := by
      rw [Tree.toList_ofList]
      exact ⟨pre, post, rfl⟩
    refine ⟨before, s, after, d, const, split, hd, last, reworked.infix_stmts together firm, ?_⟩
    rwa [split]

theorem Rendered.mergedIntoClasses (h : Rendered options ss ss')
    (class' : ∃ s ∈ ss.toList, Stmt.isClassOf name s = true) :
    MergedIntoClasses options name ss.toList ss'.toList where
  never := by
    rw [h.reflected]
    refine Frame.count_reflectsAll_of_class ?_ _
    rw [Frame.hasClass_ofStmts, any_eq_true]
    exact class'
  annotated m decl mem own := by
    obtain ⟨before, after, split⟩ := append_of_mem mem
    obtain ⟨p, out, vs, frame, writes, reworked⟩ := h
    rw [split] at frame writes ⊢
    obtain ⟨pre, decl', post, rfl, annotated⟩ := writes.annotated frame own
    have firm : ∀ t ∈ [Stmt.classDecl m decl'], Stmt.Firm t := by
      rintro t (_ | ⟨_, ⟨⟩⟩)
      exact ⟨fun _ => rfl, rfl⟩
    have inside : [Stmt.classDecl m decl'] <:+:
        (Tree.ofList (pre ++ [Stmt.classDecl m decl'] ++ post)).toList := by
      rw [Tree.toList_ofList]
      exact ⟨pre, post, rfl⟩
    have found := reworked.infix_stmts inside firm
    exact ⟨decl', found.subset (mem_singleton.2 rfl), annotated⟩

end

/-- **Interfaces merge within their list.**  Take a statement list that the walk comes to: one that
is not inside a type, a decorator or an enum member.  It is found in what comes out, with the
statements of the source in their order.  Take a name that has interfaces in the list, none of them
and no class in place of a block.  If the list has classes of that name, each is annotated with its
own members and those of the interfaces, and no constant is made.  If it has none, one constant is
made, right behind the last of the interfaces; it has the first type parameter list among them and
reflects what all of them extend and declare. -/
theorem interfaces_merge_within_list (options : Options) (unit : SourceUnit) {out : SourceUnit}
    {w : Walker} (original : unit.Original) (distinct : (unit.marks.map Mark.id).Nodup)
    (run : (instrument unit).run { context := .start options unit } = (out, w))
    (clean : w.errors = []) {list : Many .stmt}
    (hl : list ∈ unit.subtrees Category.isLeft (.many .stmt)) :
    ∃ list' ∈ out.lists, list'.filterMap Stmt.original? = list.toList.map Tree.mark ∧
      ∀ name, interfacesOf name list.toList ≠ [] → OnlyListed name list.toList →
        if list.toList.any (Stmt.isClassOf name) then
          MergedIntoClasses options name list.toList list'
        else MergedAlone options name list.toList list' := by
  obtain ⟨list', hl', rendered⟩ := instrument_renders original distinct run clean list hl
  refine ⟨list'.toList, List.mem_map_of_mem hl', rendered.original, fun name some listed => ?_⟩
  by_cases class' : list.toList.any (Stmt.isClassOf name) = true
  · rw [if_pos class']
    exact rendered.mergedIntoClasses (List.any_eq_true.1 class')
  · rw [if_neg class']
    exact rendered.mergedAlone some listed (by simpa using class')

/-- `interface A {} class A {}` -/
def innerInterfaces : Many .stmt := .ofList [
  Stmt.interfaceDecl { id := 2 } (InterfaceDecl.mk { id := 3 } ⟨false, false, "A"⟩ .absent
    (.ofList []) (.ofList [])),
  Stmt.classDecl { id := 4 } (ClassDecl.mk { id := 5 } ⟨false, false, false, false⟩ (.ofList [])
    (.present (Name.mk { id := 6 } "A")) .absent .absent .absent (.ofList []) (.ofList []))]

/-- `interface A { x: T } { … } export interface A<T> {}` -/
def outerInterfaces : Many .stmt := .ofList [
  Stmt.interfaceDecl { id := 7 } (InterfaceDecl.mk { id := 8 } ⟨false, false, "A"⟩ .absent
    (.ofList []) (.ofList [TypeMember.property ⟨{ id := 9 }, { id := 10 }⟩ false false (.ident "x")
      (.present (TypeExpr.reference ⟨{ id := 11 }, { id := 12 }⟩ (.ident "T") .absent))])),
  Stmt.block { id := 13 } (Block.mk { id := 14 } innerInterfaces),
  Stmt.interfaceDecl { id := 15 } (InterfaceDecl.mk { id := 16 } ⟨true, false, "A"⟩
    (.present (.ofList [TypeParam.mk { id := 17 } "T" .absent .absent])) (.ofList []) (.ofList []))]

/-- Interfaces of one name in two lists, one of them with a class. -/
def shadowedInterfaces : SourceUnit := .mk { id := 1 } outerInterfaces

theorem interfaces_merge_within_list_shadowedInterfaces :
    shadowedInterfaces.Original ∧ (shadowedInterfaces.marks.map Mark.id).Nodup ∧
      ((instrument shadowedInterfaces).run
        { context := .start {} shadowedInterfaces }).2.errors = [] ∧
      (∃ list' ∈ ((instrument shadowedInterfaces).run
          { context := .start {} shadowedInterfaces }).1.lists,
        list'.filterMap Stmt.original? = outerInterfaces.toList.map Tree.mark ∧
          MergedAlone {} "A" outerInterfaces.toList list') ∧
      ∃ list' ∈ ((instrument shadowedInterfaces).run
          { context := .start {} shadowedInterfaces }).1.lists,
        list'.filterMap Stmt.original? = innerInterfaces.toList.map Tree.mark ∧
          MergedIntoClasses {} "A" innerInterfaces.toList list' := by
  have original : shadowedInterfaces.Original := by decide +kernel
  have distinct : (shadowedInterfaces.marks.map Mark.id).Nodup := by decide +kernel
  have clean : ((instrument shadowedInterfaces).run
      { context := .start {} shadowedInterfaces }).2.errors = [] :=
    List.isEmpty_iff.1 (by decide +kernel)
  have outer : outerInterfaces ∈ shadowedInterfaces.subtrees Category.isLeft (.many .stmt) :=
    List.mem_cons_self
  have inner : innerInterfaces ∈ shadowedInterfaces.subtrees Category.isLeft (.many .stmt) :=
    List.mem_cons_of_mem _ List.mem_cons_self
  refine ⟨original, distinct, clean, ?_, ?_⟩
  · obtain ⟨list', hl, marks, merges⟩ :=
      interfaces_merge_within_list {} shadowedInterfaces original distinct rfl clean outer
    have merged := merges "A" (List.isEmpty_eq_false_iff.1 (by decide +kernel)) (by decide +kernel)
    rw [if_neg (by decide +kernel)] at merged
    exact ⟨list', hl, marks, merged⟩
  · obtain ⟨list', hl, marks, merges⟩ :=
      interfaces_merge_within_list {} shadowedInterfaces original distinct rfl clean inner
    have merged := merges "A" (List.isEmpty_eq_false_iff.1 (by decide +kernel)) (by decide +kernel)
    rw [if_pos (by decide +kernel)] at merged
    exact ⟨list', hl, marks, merged⟩

/-- `interface J<> {} interface J<T> { x: T } @(() => { interface I {} }) class C {}` -/
def unmergedInterfaces : SourceUnit :=
  let inDecorator := Stmt.interfaceDecl {} (InterfaceDecl.mk {} ⟨false, false, "I"⟩ .absent
    (.ofList []) (.ofList []))
  (SourceUnit.mk {} (.ofList [
    Stmt.interfaceDecl {} (InterfaceDecl.mk {} ⟨false, false, "J"⟩ (.present (.ofList []))
      (.ofList []) (.ofList [])),
    Stmt.interfaceDecl {} (InterfaceDecl.mk {} ⟨false, false, "J"⟩
      (.present (.ofList [TypeParam.mk {} "T" .absent .absent])) (.ofList [])
      (.ofList [TypeMember.property {} false false (.ident "x")
        (.present (TypeExpr.reference {} (.ident "T") .absent))])),
    Stmt.classDecl {} (ClassDecl.mk {} ⟨false, false, false, false⟩
      (.ofList [Decorator.mk {} (Expr.arrow {} (Func.mk {} ⟨true, false, false⟩ .absent (.ofList [])
        .absent (.present (FuncBody.block (.ofList [inDecorator])))))])
      (.present (Name.mk {} "C")) .absent .absent .absent (.ofList []) (.ofList []))])).numbered

/-- What comes of the unit, and the state that instrumenting it leads to. -/
def unmergedInterfacesRun : SourceUnit × Walker :=
  (instrument unmergedInterfaces).run { context := .start {} unmergedInterfaces }

/-- Whether an expression is a call of a method. -/
def Expr.calls (method : String) : Expr → Bool
  | Expr.call _ _ (Expr.member _ _ name _) _ => name == method
  | _ => false

/-- An empty type parameter list counts as one: nothing binds `T` in the constant of `J`.  And no
constant is made for the interface in the decorator. -/
theorem interfaces_left_apart :
    unmergedInterfaces.Original ∧ (unmergedInterfaces.marks.map Mark.id).Nodup ∧
      unmergedInterfacesRun.2.errors = [] ∧
      (interfacesOf "J" unmergedInterfaces.stmtList).map
        (fun d => (d.typeParams?.getD []).map TypeParam.name) = [[], ["T"]] ∧
      (unmergedInterfacesRun.1.stmtList.filter (·.reflected? "_t" == some "J")).map
        (fun s => s.exprs.any (Expr.calls "typeParameter")) = [false] ∧
      (unmergedInterfaces.lists.map fun list => (interfacesOf "I" list).length) = [0, 1] ∧
      unmergedInterfacesRun.1.lists.flatMap (·.filterMap (Stmt.reflected? "_t")) = ["J"] := by
  refine ⟨by decide +kernel, by decide +kernel, List.isEmpty_iff.1 (by decide +kernel),
    by decide +kernel, by decide +kernel, by decide +kernel, by decide +kernel⟩

end Reify
