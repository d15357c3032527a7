import Reify.Proofs.Walk.Point

/-!
# The rules of the walk

The walk over a unit is a fold: `Form.walk` puts the walk of a tree together from the walks of its
parts.  `Walks` says the same by rules, as a relation between a task, the state before it, what
comes out of it and the state after it.  What holds of every walk is then shown by induction on
the rules, and no proof unfolds the walk itself (`Reify.Proofs.Walk.Sound` does that once).

A derivation also says where the walk stands, and lists its visits: a `Visit` is a moment at which
something is worked out for a statement, a function or a loop header.
-/

namespace Reify

/-! ### Visits -/

/-- What something is worked out for. -/
inductive Target where
  | stmt (stmt : Stmt)
  | func (role : Role) (func : Func)
  | header (decl : VarDecl)

/-- A moment at which the walk works something out. -/
structure Visit where
  point : Point
  target : Target

/-- The number of the node that something is worked out for. -/
def Visit.id (v : Visit) : Nat :=
  match v.target with
  | .stmt s => s.mark.id
  | .func _ f => f.mark.id
  | .header decl => decl.mark.id

/-- The visit of a function, unless it has been visited before. -/
def funcVisits (p : Point) (w : Walker) (role : Role) (f : Func) : List Visit :=
  if w.context.wasVisited f.mark.id then [] else [⟨p, .func role f⟩]

/-- The visit of the function of a class member. -/
def memberVisits (p : Point) (w : Walker) (className : Option String) (names : List String)
    (m : ClassMember) : List Visit :=
  match m with
  | ClassMember.mk _ _ _ _ _ (MemberVal.function _ _ f) =>
    funcVisits (p.under names (ClassMember.access className m)) w (ClassMember.role m) f
  | _ => []

/-- The visit of a statement and of the functions that are dealt with along with it. -/
def stmtVisits (p : Point) (w : Walker) (s : Stmt) : List Visit :=
  if w.context.wasVisited s.mark.id then []
  else ⟨p, .stmt s⟩ ::
    match s with
    | Stmt.funcDecl _ (FuncDecl.mk _ _ _ f) => funcVisits p w .function f
    | Stmt.classDecl _ decl@(ClassDecl.mk _ form _ _ typeParams _ _ _ members) =>
      if form.ambient then []
      else members.toList.flatMap
        (memberVisits p w (ClassDecl.name? decl) (typeParams.toLists.map TypeParam.name))
    | _ => []

/-- The visit of a loop header. -/
def headerVisits (p : Point) (w : Walker) (decl : VarDecl) : List Visit :=
  if w.context.wasVisited decl.mark.id then [] else [⟨p, .header decl⟩]

/-- The visit of the function of a class member that the walk comes to for the first time. -/
def ClassMember.visits (p : Point) (className : Option String) (names : List String)
    (m : ClassMember) : List Visit :=
  match m with
  | ClassMember.mk _ _ _ _ _ (MemberVal.function _ _ f) =>
    [⟨p.under names (ClassMember.access className m), .func (ClassMember.role m) f⟩]
  | _ => []

/-- The visits of a statement that the walk comes to for the first time: its own, and those of the
functions that are dealt with along with it. -/
def Stmt.visits (p : Point) (s : Stmt) : List Visit :=
  ⟨p, .stmt s⟩ ::
    match s with
    | Stmt.funcDecl _ (FuncDecl.mk _ _ _ f) => [⟨p, .func .function f⟩]
    | Stmt.classDecl _ decl@(ClassDecl.mk _ form _ _ typeParams _ _ _ members) =>
      if form.ambient then []
      else members.toList.flatMap
        (ClassMember.visits p (ClassDecl.name? decl) (typeParams.toLists.map TypeParam.name))
    | _ => []

/-! ### How parts are walked -/

/-- What the walk of a tree is told. -/
inductive Brief where
  | none
  | role (role : Role)
  | init (plan : InitPlan)
  | inits (plans : List InitPlan)
  | eachInit (plans : List InitPlan)
  | member (className : Option String) (names : List String)

namespace Brief

/-- What the first tree of a sequence is told. -/
def head : Brief → Brief
  | eachInit plans => init (plans.headD .keep)
  | b => b

/-- What the trees after the first are told. -/
def tail : Brief → Brief
  | eachInit plans => eachInit plans.tail
  | b => b

end Brief

/-- What the walk of a part is told where nothing more is known about it. -/
def Category.brief : Category → Brief
  | .func => .role .function
  | .memberVal => .role .method
  | .declarator => .init .keep
  | .varDecl => .inits []
  | .classMember => .member Option.none []
  | .many c | .maybe c => c.brief
  | _ => .none

/-- How a part of a tree is walked. -/
inductive Mode where
  /-- It is left as it is. -/
  | skip
  | told (brief : Brief)
  /-- It is a statement list inside the unit. -/
  | list
  /-- It is the statement list of the unit. -/
  | top
  /-- It has a scope of its own. -/
  | inScope (mode : Mode)
  /-- It has type parameters in reach. -/
  | generic (names : List String) (access : ParamAccess) (mode : Mode)

/-- How the parts of a tree are walked, in source order. -/
def Form.modes : {c : Category} → (form : Form c) → Marks form.width → Children form.arity →
    Brief → List Mode
  | .stmt, .block, _, _, _ => [.inScope (.told .none)]
  | .stmt, .switch, _, _, _ => [.told .none, .inScope (.told .none)]
  | .stmt, .trying, _, _, _ => [.inScope (.told .none), .told .none, .inScope (.told .none)]
  | .stmt, .varDecl, _, _, brief => [.told brief]
  | .func, _, _, _, _ => [.skip, .told .none, .skip, .told .none]
  | .funcBody, .block, _, _, _ => [.list]
  | .block, _, _, _, _ => [.list]
  | .handler, _, _, _, _ => [.told .none, .skip, .list]
  | .branch, _, _, _, _ => [.told .none, .list]
  | .forInit, .decl, _, _, brief => [.told brief]
  | .varDecl, _, _, _, .inits plans => [.told (.eachInit plans)]
  | .varDecl, _, _, _, _ => []
  | .declarator, _, _, _, .init .drop => [.told .none, .skip, .skip]
  | .declarator, _, _, _, _ => [.told .none, .skip, .told .none]
  | .classDecl, form, marks, ts, _ =>
    let decl : ClassDecl := .node (c := .classDecl) form marks ts
    match ts with
    | .cons _ (.cons _ (.cons typeParams _)) =>
      [.skip, .skip, .skip, .told .none, .skip, .skip,
        .told (.member (ClassDecl.name? decl) (typeParams.toLists.map TypeParam.name))]
  | .classMember, form, marks, ts, brief =>
    let member : ClassMember := .node (c := .classMember) form marks ts
    match brief with
    | .member className names =>
      [.skip, .told .none, .skip, .generic names (ClassMember.access className member)
        (.told (.role (ClassMember.role member)))]
    | _ => []
  | .memberVal, .function _, _, _, brief => [.told brief]
  | .memberVal, .property, _, _, _ => [.told .none]
  | .objMember, .valued, _, .cons _ (.cons val .nil), _ =>
    [.told .none, .told (.role (MemberVal.role val))]
  | .unit, _, _, _, _ => [.top]
  | .stmt, form, _, _, _ | .expr, form, _, _, _ | .pat, form, _, _, _ | .funcBody, form, _, _, _
  | .param, form, _, _, _ | .arg, form, _, _, _ | .arrayElem, form, _, _, _
  | .objMember, form, _, _, _ | .memberKey, form, _, _, _ | .arrayPatElem, form, _, _, _
  | .objPatProp, form, _, _, _ | .binding, form, _, _, _ | .forInit, form, _, _, _
  | .forTarget, form, _, _, _ | .funcDecl, form, _, _, _ =>
    form.arity.map fun c => .told c.brief
  | _, form, _, _, _ => form.arity.map fun _ => .skip

/-- Whether the parts of a tree have a scope of their own. -/
def Form.opensScope : {c : Category} → Form c → Bool
  | .func, _ | .handler, _ | .stmt, .forIn | .stmt, .forOf _ | .stmt, .forLoop => true
  | _, _ => false

/-- Whether the last part of a tree is walked first. -/
def Form.isDoWhile : {c : Category} → Form c → Bool
  | .stmt, .doWhile => true
  | _, _ => false

namespace Tree

variable {c : Category}

/-- The type parameters that a tree brings into reach of its parts. -/
def generics : {c : Category} → Tree c → List String
  | .func, f => Func.typeParamNames f
  | _, _ => []

/-- The state in which the parts of a tree are walked. -/
def enter (t : Tree c) (w : Walker) : Walker :=
  (if t.form.opensScope then w.map Context.pushScope else w).pushGenerics t.generics .constant

/-- The state after the parts of a tree. -/
def leave (t : Tree c) (w : Walker) : Walker :=
  let w := w.popGenerics t.generics
  if t.form.opensScope then w.map Context.popScope else w

/-- The point at the parts of a tree. -/
def inside (t : Tree c) (p : Point) : Point :=
  (if t.form.opensScope then p.inner else p).under t.generics .constant

/-- The statements of a list. -/
def stmts : {c : Category} → Tree c → List Stmt
  | .many .stmt, t => t.toList
  | _, _ => []

/-- A walked part together with the statements that follow it. -/
def followedBy : {c : Category} → Tree c → List Stmt → Tree c
  | .stmt, s, fs => Stmt.withFollowers s fs
  | _, t, _ => t

/-- Whether the walk of a tree works nothing out for the tree itself. -/
def isInert : {c : Category} → Tree c → Bool
  | .stmt, _ | .func, _ | .forInit, ForInit.decl _ | .many _, _ | .maybe _, _ => false
  | _, _ => true

end Tree

/-- The point after a part that is walked in a mode. -/
def Mode.after {c : Category} (t : Tree c) : Mode → Point → Point
  | skip, p | inScope _, p => p
  | told _, p => t.after p
  | list, p => p.within t.stmts t.after
  | top, p => t.after (p.opening t.stmts)
  | generic _ _ mode, p => mode.after t p

/-! ### The rules -/

/-- What is walked. -/
inductive Task where
  /-- A tree, with what is worked out for it. -/
  | node {c : Category} (t : Tree c) (brief : Brief)
  /-- The parts of a tree. -/
  | inner {c : Category} (t : Tree c) (brief : Brief)
  /-- Parts from some point on, with the modes left. -/
  | parts {cs : List Category} (modes : List Mode) (ts : Children cs)
  | child {c : Category} (mode : Mode) (t : Tree c)
  /-- The trees of a sequence. -/
  | each {c : Category} (brief : Brief) (ts : List (Tree c))
  /-- The rest of a statement list. -/
  | stmts (rest : List Stmt)

/-- What comes out of a task. -/
abbrev Task.Out : Task → Type
  | @node c _ _ => Tree c × List Stmt
  | @inner c _ _ => Tree c
  | @parts cs _ _ => Children cs
  | @child c _ _ => Tree c
  | @each c _ _ => List (Tree c)
  | stmts _ => List Stmt

/-- **The walk.**  `Walks p k w out w' vs`: at the point `p` the task `k` takes the state `w` to
`w'`, gives `out` and makes the visits `vs`. -/
inductive Walks : Point → (k : Task) → Walker → k.Out → Walker → List Visit → Prop where
  | inert {p w w' c vs} {t t' : Tree c} {brief : Brief} (h : t.isInert = true)
      (inner : Walks p (.inner t brief) w t' w' vs) :
      Walks p (.node t brief) w (t', []) w' vs
  | stmt {p w w₁ w' s s' plan fs vs} (planned : (planStmtOnce s).run w = ((plan, fs), w₁))
      (inner : Walks (p.passing s) (.inner s (.inits plan.initPlans)) w₁ s' w' vs) :
      Walks p (.node s .none) w (plan.apply s', fs) w' (stmtVisits p w s ++ vs)
  | func {p w w₁ w' f f' role r vs} (planned : (planFuncOnce role f).run w = (r, w₁))
      (inner : Walks p (.inner f .none) (w₁.report r) f' w' vs) :
      Walks p (.node f (.role role)) w (applyFuncPlan r f', []) w' (funcVisits p w role f ++ vs)
  | header {p w w₁ w' decl decl' plans vs} (planned : (planVarOnce decl).run w = (plans, w₁))
      (inner : Walks ((ForInit.decl decl).after p) (.inner (ForInit.decl decl) (.inits plans)) w₁
        (ForInit.decl decl') w' vs) :
      Walks p (.node (ForInit.decl decl) .none) w
        (ForInit.decl (VarDecl.applyInits plans decl'), []) w' (headerVisits p w decl ++ vs)
  | inner {p w w' c vs} {form : Form c} {marks : Marks form.width} {brief : Brief}
      {ts ts' : Children form.arity} (h : form.isDoWhile = false)
      (parts : Walks ((Tree.node form marks ts).inside p) (.parts (form.modes marks ts brief) ts)
        ((Tree.node form marks ts).enter w) ts' w' vs) :
      Walks p (.inner (.node form marks ts) brief) w (.node form marks ts')
        ((Tree.node form marks ts).leave w') vs
  | doWhile {p w w₁ w' site test test' body body' brief vs us}
      (first : Walks p (.child (.told .none) body) w body' w₁ vs)
      (second : Walks (body.after p) (.child (.told .none) test) w₁ test' w' us) :
      Walks p (.inner (Stmt.doWhile site test body) brief) w (Stmt.doWhile site test' body') w'
        (vs ++ us)
  | partsNil {p w} : Walks p (.parts [] .nil) w .nil w []
  | partsCons {p w w₁ w' mode modes c cs vs us} {t t' : Tree c} {ts ts' : Children cs}
      (head : Walks p (.child mode t) w t' w₁ vs)
      (tail : Walks (mode.after t p) (.parts modes ts) w₁ ts' w' us) :
      Walks p (.parts (mode :: modes) (.cons t ts)) w (.cons t' ts') w' (vs ++ us)
  | skip {p w c} {t : Tree c} : Walks p (.child .skip t) w t w []
  | told {p w w' c brief fs vs} {t t' : Tree c}
      (node : Walks p (.node t brief) w (t', fs) w' vs) :
      Walks p (.child (.told brief) t) w (t'.followedBy fs) w' vs
  | toldMany {p w w' c brief vs ts'} {t : Many c}
      (each : Walks p (.each brief t.toList) w ts' w' vs) :
      Walks p (.child (.told brief) t) w (.ofList ts') w' vs
  | toldAbsent {p w c brief} :
      Walks p (.child (.told brief) (Tree.absent (c := c))) w .absent w []
  | toldPresent {p w w' c brief vs} {t t' : Tree c}
      (present : Walks p (.child (.told brief) t) w t' w' vs) :
      Walks p (.child (.told brief) (.present t)) w (.present t') w' vs
  | list {p w w' stmts out vs}
      (stmts' : Walks (p.entering stmts.toList) (.stmts stmts.toList)
        ((w.map (·.pushFrame stmts.toList)).declareAll (stmts.toList.flatMap Stmt.hoisted))
        out w' vs) :
      Walks p (.child .list stmts) w (.ofList out) (w'.map Context.popFrame) vs
  | top {p w w' stmts out vs}
      (stmts' : Walks (p.opening stmts.toList) (.stmts stmts.toList)
        (w.declareAll (stmts.toList.flatMap Stmt.hoisted)) out w' vs) :
      Walks p (.child .top stmts) w (.ofList out) w' vs
  | inScope {p w w' c mode vs} {t t' : Tree c} (h : c.changesFrame = false)
      (child : Walks p.inner (.child mode t) (w.map Context.pushScope) t' w' vs) :
      Walks p (.child (.inScope mode) t) w t' (w'.map Context.popScope) vs
  | generic {p w w' c names access mode vs} {t t' : Tree c}
      (child : Walks (p.under names access) (.child mode t) (w.pushGenerics names access) t' w'
        vs) :
      Walks p (.child (.generic names access mode) t) w t' (w'.popGenerics names) vs
  | eachNil {p w c brief} : Walks p (.each (c := c) brief []) w [] w []
  | eachCons {p w w₁ w' c brief vs us ts ts'} {t t' : Tree c}
      (head : Walks p (.child (.told brief.head) t) w t' w₁ vs)
      (tail : Walks (t.after p) (.each brief.tail ts) w₁ ts' w' us) :
      Walks p (.each brief (t :: ts)) w (t' :: ts') w' (vs ++ us)
  | stmtsNil {p w} : Walks p (.stmts []) w [] w []
  | stmtsCons {p w w₁ w' s s' fs rest out vs us}
      (head : Walks p (.node s .none) w (s', fs) w₁ vs)
      (tail : Walks (s.after p) (.stmts rest) w₁ out w' us) :
      Walks p (.stmts (s :: rest)) w (s' :: fs ++ out) w' (vs ++ us)

end Reify
