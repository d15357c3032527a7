import Reify.Proofs.Syntax.Everywhere
import Reify.Proofs.Syntax.Outline

/-!
# Bindings

Variables declared with `let` and `const`, classes, functions, enums and imports bind value names in
the block scope that they stand in.  `Tree.bindings` lists the names that a tree binds in the scope
around it, and `Tree.scopes` has one such list for each block scope inside a tree: the unit, a
block, the body of a function or of a `catch` clause, and the whole of a `switch`.
-/

namespace Reify

open List Tree

/-! ### Names -/

/-- The names that a form binds by itself. -/
def Form.ownNames : {c : Category} → Form c → List String
  | .pat, PatForm.ident name => [name]
  | .name, text => [text]
  | .enumDecl, form => [EnumForm.name form]
  | _, _ => []

/-- Whether what the parts of a form bind is bound around it.  Variables declared with `var` belong to
the function, and imports of types bind no values. -/
def Form.passesNames : {c : Category} → Form c → Bool
  | .stmt, .varDecl | .stmt, .classDecl | .stmt, .funcDecl | .stmt, .enumDecl
  | .stmt, .importing => true
  | .varDecl, form => VarForm.mode form != .function
  | .importDecl, form => !ImportForm.typeOnly form
  | .pat, _ | .classDecl, _ | .funcDecl, _ | .declarator, _ | .binding, _ | .arrayPatElem, _
  | .objPatProp, _ | .importNames, _ | .importName, _ | .branch, _ | .many _, _ | .maybe _, _ => true
  | _, _ => false

/-- What `Tree.bindings` does at a form. -/
def Form.bindings {c : Category} (form : Form c) (_ : Marks form.width) (_ : Children form.arity)
    (rs : Results (fun _ => List String) form.arity) : List String :=
  form.ownNames ++ if form.passesNames then rs.values.flatten else []

/-- The value names that a tree binds in the scope around it, in source order. -/
def Tree.bindings {c : Category} (t : Tree c) : List String :=
  t.fold (X := fun _ => List String) Form.bindings

/-- The value names that some trees bind in the scope around them, in source order. -/
def Children.bindings {cs : List Category} (ts : Children cs) : List String :=
  (ts.fold (X := fun _ => List String) Form.bindings).values.flatten

section

variable {c : Category}

theorem Tree.bindings_node {form : Form c} {marks ts} :
    (Tree.node form marks ts).bindings =
      form.ownNames ++ if form.passesNames then ts.bindings else [] := rfl

@[simp] theorem Children.bindings_cons {cs} {t : Tree c} {ts : Children cs} :
    (Children.cons t ts).bindings = t.bindings ++ ts.bindings := rfl

theorem Children.bindings_ofList (ts : List (Tree c)) :
    (Children.ofList ts).bindings = ts.flatMap Tree.bindings := by
  induction ts with
  | nil => rfl
  | cons t ts ih =>
    rw [flatMap_cons, ← ih]
    rfl

@[simp] theorem Tree.bindings_ofList (ts : List (Tree c)) :
    (Tree.ofList ts).bindings = ts.flatMap Tree.bindings :=
  Children.bindings_ofList ts

theorem Tree.bindings_toList (t : Many c) : t.toList.flatMap Tree.bindings = t.bindings := by
  rw [← bindings_ofList, ofList_toList]

@[simp] theorem Tree.bindings_present (t : Tree c) : (Tree.present t).bindings = t.bindings := by
  change [] ++ (t.bindings ++ []) = _
  rw [nil_append, append_nil]

/-- Categories of trees that bind nothing around them. -/
def Category.isBare : Category → Bool
  | .stmt | .pat | .name | .binding | .arrayPatElem | .objPatProp | .varDecl | .declarator
  | .classDecl | .funcDecl | .enumDecl | .importDecl | .importNames | .importName | .branch
  | .many _ | .maybe _ => false
  | _ => true

theorem Tree.bindings_of_bare (h : c.isBare = true) (t : Tree c) : t.bindings = [] := by
  match t with
  | .node _ _ _ =>
    cases c with
    | stmt | pat | name | binding | arrayPatElem | objPatProp | varDecl | declarator | classDecl
    | funcDecl | enumDecl | importDecl | importNames | importName | branch | many | maybe => cases h
    | _ => rfl

mutual

theorem Tree.bindings_renumber {f : Nat → Nat} : {c : Category} → (t : Tree c) →
    (t.renumber f).bindings = t.bindings
  | _, .node form marks ts => by
    rw [renumber_node, bindings_node, bindings_node, ts.bindings_renumber]

theorem Children.bindings_renumber {f : Nat → Nat} : {cs : List Category} → (ts : Children cs) →
    (ts.renumber f).bindings = ts.bindings
  | _, .nil => by rw [Children.renumber_nil]
  | _, .cons t ts => by
    rw [Children.renumber_cons, Children.bindings_cons, Children.bindings_cons, t.bindings_renumber,
      ts.bindings_renumber]

end

end

/-! ### Scopes -/

/-- The value names of the block scope that a tree opens, if it opens one. -/
def Tree.ownScopes : (c : Category) → Tree c → List (List String)
  | .unit, SourceUnit.mk _ stmts => [stmts.bindings]
  | .block, Block.mk _ stmts => [stmts.bindings]
  | .handler, Handler.mk _ _ _ stmts => [stmts.bindings]
  | .funcBody, FuncBody.block stmts => [stmts.bindings]
  | .stmt, Stmt.switch _ _ branches => [branches.bindings]
  | _, _ => []

/-- The value names of each block scope in a tree. -/
def Tree.scopes {c : Category} (t : Tree c) : List (List String) :=
  t.gather Category.none Tree.ownScopes

/-- The names in a list of type parameters. -/
def Tree.ownParamNames : (c : Category) → Tree c → List (List String)
  | .many .typeParam, t => [t.toList.map TypeParam.name]
  | _, _ => []

/-- The names in each list of type parameters in a tree. -/
def Tree.paramNames {c : Category} (t : Tree c) : List (List String) :=
  t.gather Category.none Tree.ownParamNames

/-- Whether a form may open a block scope. -/
def Form.opensBlock : {c : Category} → Form c → Bool
  | .unit, _ | .block, _ | .handler, _ | .funcBody, .block | .stmt, .switch => true
  | _, _ => false

theorem Tree.ownScopes_of_plain {c t} (h : t.form.opensBlock = false) :
    Tree.ownScopes c t = [] := by
  match t, h with
  | .node form marks ts, h =>
    cases c with
    | unit | block | handler => cases h
    | funcBody =>
      cases form with
      | block => cases h
      | expr => rfl
    | stmt =>
      cases form with
      | switch => cases h
      | _ => rfl
    | _ => rfl

variable {f : Nat → Nat} {value : Expr}

theorem Tree.ownScopes_renumber {c} (t : Tree c) :
    Tree.ownScopes c (t.renumber f) = Tree.ownScopes c t := by
  by_cases h : t.form.opensBlock = false
  · rw [ownScopes_of_plain h, ownScopes_of_plain (by rwa [form_renumber])]
  · match t, h with
    | .node form marks ts, h =>
      cases c with
      | unit | block =>
        match marks, ts with
        | .one _, .cons stmts .nil => exact congrArg ([·]) stmts.bindings_renumber
      | handler =>
        match marks, ts with
        | .one _, .cons _ (.cons _ (.cons stmts .nil)) =>
          exact congrArg ([·]) stmts.bindings_renumber
      | funcBody =>
        match form, marks, ts with
        | .block, .none, .cons stmts .nil => exact congrArg ([·]) stmts.bindings_renumber
        | .expr, _, _ => exact (h rfl).elim
      | stmt =>
        cases form with
        | switch =>
          match marks, ts with
          | .two _, .cons _ (.cons branches .nil) =>
            exact congrArg ([·]) branches.bindings_renumber
        | _ => exact (h rfl).elim
      | _ => exact (h rfl).elim

theorem Tree.ownParamNames_renumber {c} (t : Tree c) :
    Tree.ownParamNames c (t.renumber f) = Tree.ownParamNames c t := by
  cases c with
  | many c =>
    cases c with
    | typeParam =>
      change [(t.renumber f).toList.map TypeParam.name] = _
      rw [toList_renumber, map_map]
      exact congrArg ([·]) (map_congr_left fun p _ => TypeParam.name_renumber p)
    | _ => rfl
  | _ => rfl

/-! ### Phrases -/

section

variable {loc : Loc} {name : String}

@[simp] theorem bindings_constStmt {exported} :
    (Synthetic.constStmt loc name value exported).bindings = [name] := by
  have none : (Tree.present value).bindings = [] := by
    rw [bindings_present, bindings_of_bare rfl]
  change [name] ++ ([] ++ ((Tree.present value).bindings ++ [])) ++ [] ++ [] ++ [] = [name]
  rw [none]
  rfl

@[simp] theorem bindings_returnStmt :
    (Synthetic.returnStmt loc value).bindings = [] := rfl

end

/-! ### Outlines -/

/-- Categories of trees that hold no statement of the scope around them. -/
def Category.isFree : Category → Bool
  | .stmt | .branch => false
  | .many c | .maybe c => c.isFree
  | _ => true

/-- The parts whose names are bound around a tree are no statements, unless the tree is a branch. -/
theorem Form.isFree_arity {c} {form : Form c} (hc : c = .stmt ∨ c.isFree = true)
    (passes : form.passesNames = true) : ∀ d ∈ form.arity, d.isFree = true := by
  cases c with
  | stmt =>
    cases form with
    | varDecl | classDecl | funcDecl | enumDecl | importing => simp [Category.isFree]
    | _ => cases passes
  | many c => exact fun d hd => eq_of_mem_replicate hd ▸ hc.resolve_left nofun
  | maybe c =>
    cases form with
    | false => exact nofun
    | true => exact forall_mem_singleton.2 (hc.resolve_left nofun)
  | pat => cases form <;> simp [Category.isFree]
  | importNames => cases form <;> simp [Category.isFree]
  | varDecl | importDecl | classDecl | funcDecl | declarator | binding | arrayPatElem | objPatProp
  | importName => simp [Category.isFree]
  | branch => exact nomatch hc.resolve_left nofun
  | _ => cases passes

/-- Things that hold no statement of the scope around them. -/
def Shape.IsFree : Shape → Prop
  | .tree c | .list c => c.isFree = true
  | .parts cs => ∀ c ∈ cs, c.isFree = true

/-- The value names that a thing binds in the scope around it. -/
def Shape.bindings : (k : Shape) → k.Of → List String
  | .tree _, t => t.bindings
  | .parts _, ts => ts.bindings
  | .list _, ts => ts.flatMap Tree.bindings

/-- Trees with the same outline bind the same names. -/
theorem Alike.bindings_eq {k x x'} (h : Alike k x x') :
    k.IsFree → k.bindings x' = k.bindings x := by
  induction h with
  | @loose c t t' hc =>
    intro free
    match t, t' with
    | .node _ _ _, .node _ _ _ =>
      cases c with
      | expr | forInit => rfl
      | stmt => cases free
      | many c =>
        cases c with
        | stmt => cases free
        | _ => cases hc
      | _ => cases hc
  | block => exact fun _ => rfl
  | expr => exact fun _ => bindings_of_bare rfl _
  | @node c form marks ts ts' _ _ ih =>
    intro free
    change form.ownNames ++ _ = form.ownNames ++ _
    split
    case isTrue passes => exact congrArg _ (ih (Form.isFree_arity (.inr free) passes))
    case isFalse => rfl
  | many _ ih =>
    intro free
    change (Tree.ofList _).bindings = (Tree.ofList _).bindings
    rw [bindings_ofList, bindings_ofList]
    exact ih free
  | partsNil | listNil => exact fun _ => rfl
  | partsCons _ _ head tail =>
    intro free
    obtain ⟨first, rest⟩ := forall_mem_cons.1 free
    exact congrArg₂ (· ++ ·) (head first) (tail rest)
  | listCons _ _ head tail => exact fun free => congrArg₂ (· ++ ·) (head free) (tail free)

/-- A statement that keeps its form and the outline of its parts binds the same names. -/
theorem SameRoot.bindings_eq {s s' : Stmt} (h : SameRoot s s') : s'.bindings = s.bindings := by
  cases h with
  | @mk form marks ts ts' parts =>
    change Form.ownNames form ++ _ = Form.ownNames form ++ _
    split
    case isTrue passes => exact congrArg _ (parts.bindings_eq (Form.isFree_arity (.inl rfl) passes))
    case isFalse => rfl

end Reify
