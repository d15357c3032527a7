import Reify.Proofs.Walk.Growth

/-!
# Erasure

`Tree.erase` takes out of a tree what instrumentation puts in: synthetic statements, decorators
and class members are deleted, an original expression takes the place of the synthetic assertion
around it, an original statement that of the synthetic block around it, and a block that only
returns an original expression turns back into an expression body.  It looks at nothing but the
marks and knows nothing of what was worked out.

Growth is undone by it (`Grows.erase`), so instrumented units erase to the units they came from.
-/

namespace Reify

open List Tree Synthetic

/-! ### The definition -/

/-- The original expression that a synthetic assertion stands around. -/
def Expr.asserted? (e : Expr) : Option Expr :=
  if e.mark.isSynthetic then
    match e with
    | Expr.call _ false (Expr.member _ false name _) args =>
      match name == "assert", args.toList with
      | true, [Arg.mk _ false value] => if value.mark.isSynthetic then none else some value
      | _, _ => none
    | _ => none
  else none

/-- The original statement that a synthetic block stands around, once all else in the block is
erased. -/
def Stmt.wrapped? (s : Stmt) : Option Stmt :=
  if s.mark.isSynthetic then
    match s with
    | Stmt.block _ (Block.mk _ stmts) =>
      match stmts.toList with
      | [inner] => if inner.mark.isSynthetic then none else some inner
      | _ => none
    | _ => none
  else none

/-- The original expression that a synthetic statement returns. -/
def Stmt.returned? (s : Stmt) : Option Expr :=
  if s.mark.isSynthetic then
    match s with
    | Stmt.returning _ (.present value) => if value.mark.isSynthetic then none else some value
    | _ => none
  else none

/-- The body that a body was made from, once all else in it is erased. -/
def FuncBody.restored : FuncBody → FuncBody
  | FuncBody.expr value => .expr value
  | FuncBody.block stmts =>
    match stmts.toList with
    | [s] => ((Stmt.returned? s).map FuncBody.expr).getD (.block stmts)
    | _ => .block stmts

/-- Whether a tree of a sequence is deleted.  A synthetic statement that returns an original
expression is not: its block turns back into an expression. -/
def Tree.isErased : {c : Category} → Tree c → Bool
  | .stmt, s => s.mark.isSynthetic && (Stmt.returned? s).isNone
  | .decorator, d => d.mark.isSynthetic
  | .classMember, m => m.mark.isSynthetic
  | _, _ => false

/-- What becomes of a tree once its parts are erased. -/
def Tree.eraseRoot : {c : Category} → Tree c → Tree c
  | .expr, e => (Expr.asserted? e).getD e
  | .stmt, s => (Stmt.wrapped? s).getD s
  | .funcBody, b => FuncBody.restored b
  | .many _, ts => .ofList (ts.toList.filter fun t => !t.isErased)
  | _, t => t

/-- Results that are trees, as a sequence. -/
def Results.trees : {cs : List Category} → Results Tree cs → Children cs
  | [], () => .nil
  | _ :: _, (t, ts) => .cons t (trees ts)

/-- A tree at which erasure arrives, with its erased parts. -/
def Form.erase {c : Category} (form : Form c) (marks : Marks form.width)
    (_ : Children form.arity) (rs : Results Tree form.arity) : Tree c :=
  (Tree.node form marks rs.trees).eraseRoot

/-- Takes out of a tree what instrumentation puts in. -/
def Tree.erase {c : Category} (t : Tree c) : Tree c := t.fold (X := Tree) Form.erase

/-- Takes out of each tree what instrumentation puts in. -/
def Children.erase {cs : List Category} (ts : Children cs) : Children cs :=
  (ts.fold (X := Tree) Form.erase).trees

/-! ### Erasing step by step -/

section

variable {c : Category}

theorem Tree.erase_node (form : Form c) (marks : Marks form.width) (ts : Children form.arity) :
    (Tree.node form marks ts).erase = (Tree.node form marks ts.erase).eraseRoot := rfl

theorem Children.erase_cons {cs} (t : Tree c) (ts : Children cs) :
    (Children.cons t ts).erase = .cons t.erase ts.erase := rfl

theorem Children.erase_ofList (ts : List (Tree c)) :
    Tree.node (c := .many c) ts.length .none (Children.ofList ts).erase =
      .ofList (ts.map Tree.erase) := by
  induction ts with
  | nil => rfl
  | cons t ts ih =>
    rw [map_cons, ofList_cons, ← ih]
    rfl

/-- A sequence is erased tree by tree; then the synthetic ones are deleted. -/
theorem Tree.erase_ofList (ts : List (Tree c)) :
    (Tree.ofList ts).erase = .ofList ((ts.map Tree.erase).filter fun t => !t.isErased) := by
  change (Tree.node (c := .many c) ts.length .none (Children.ofList ts).erase).eraseRoot = _
  rw [Children.erase_ofList]
  change Tree.ofList ((Tree.ofList _).toList.filter _) = _
  rw [toList_ofList]

end

/-! ### Original trees -/

/-- Categories of which synthetic trees can be erased or replaced. -/
def Category.isMarked : Category → Bool
  | .expr | .stmt | .decorator | .classMember => true
  | _ => false

theorem Tree.Original.mark {c} {t : Tree c} (h : t.Original) (hc : c.isMarked = true) :
    t.mark.isSynthetic = false := by
  match t, h with
  | .node form marks ts, h =>
    have width : 0 < form.width := by
      cases c with
      | stmt => exact StmtForm.width_pos form
      | expr | decorator | classMember => exact Nat.succ_pos _
      | _ => cases hc
    exact (original_node.1 h).1.first width

theorem Tree.Original.isErased {c} {t : Tree c} (h : t.Original) : t.isErased = false := by
  cases c with
  | stmt =>
    change (t.mark.isSynthetic && _) = false
    rw [h.mark rfl, Bool.false_and]
  | decorator | classMember => exact h.mark rfl
  | _ => rfl

theorem FuncBody.restored_of_original {b} (h : b.Original) : FuncBody.restored b = b := by
  match b, h with
  | FuncBody.expr _, _ => rfl
  | FuncBody.block stmts, h =>
    change (match stmts.toList with
      | [s] => ((Stmt.returned? s).map FuncBody.expr).getD (.block stmts)
      | _ => .block stmts) = FuncBody.block stmts
    split
    case h_1 s hs =>
      obtain ⟨-, h⟩ := original_node.1 h
      obtain ⟨h, -⟩ := Children.original_cons.1 h
      rw [← ofList_toList stmts, original_ofList, hs] at h
      have mark := (h s (by simp)).mark rfl
      rw [Stmt.returned?, mark]
      rfl
    case h_2 => rfl

/-- Nothing happens at an original tree. -/
theorem Tree.Original.eraseRoot {c} {t : Tree c} (h : t.Original) (hc : c.isMany = false) :
    t.eraseRoot = t := by
  cases c with
  | expr =>
    change (Expr.asserted? t).getD t = t
    rw [Expr.asserted?, h.mark rfl]
    rfl
  | stmt =>
    change (Stmt.wrapped? t).getD t = t
    rw [Stmt.wrapped?, h.mark rfl]
    rfl
  | funcBody => exact FuncBody.restored_of_original h
  | many c => cases hc
  | _ => rfl

/-! ### Added trees -/

theorem Mark.isSynthetic_of_id {m : Mark} (h : m.id = 0) : m.isSynthetic = true := by
  rw [Mark.isSynthetic, h]
  rfl

section

variable {form : StmtForm} (marks : Marks form.width) (ts : Children form.arity)

theorem Stmt.wrapped?_of_form (h : form ≠ .block) :
    Stmt.wrapped? (.node (c := .stmt) form marks ts) = none := by
  rw [Stmt.wrapped?]
  split
  · cases form <;> first | rfl | exact (h rfl).elim
  · rfl

theorem Stmt.returned?_of_form (h : form ≠ .returning) :
    Stmt.returned? (.node (c := .stmt) form marks ts) = none := by
  rw [Stmt.returned?]
  split
  · cases form <;> first | rfl | exact (h rfl).elim
  · rfl

end

/-- What was added to a sequence is deleted from it. -/
theorem Tree.IsAdded.isErased {c} {t : Tree c} (h : t.IsAdded) : t.erase.isErased = true := by
  have mark := Mark.isSynthetic_of_id h.synthetic.mark_id
  match c, t, h, mark with
  | .stmt, .node (c := .stmt) form marks ts, h, mark =>
    -- A simple statement is no block, so that erasure leaves its root as it is.
    have erased : (Tree.node (c := .stmt) form marks ts).erase =
        .node (c := .stmt) form marks ts.erase := by
      change (Stmt.wrapped? (.node (c := .stmt) form marks ts.erase)).getD _ = _
      rw [Stmt.wrapped?_of_form marks _ (by rintro rfl; exact nomatch h.2)]
      rfl
    rw [erased]
    change (marks.first.isSynthetic && _) = true
    rw [Stmt.returned?_of_form marks _ (by rintro rfl; exact nomatch h.2), Option.isNone_none,
      Bool.and_true]
    exact mark
  | .decorator, .node _ _ _, _, mark => exact mark
  | .classMember, .node _ _ _, _, mark => exact mark

/-! ### Growth undone -/

variable {e : Expr}

theorem erase_assertion (loc : Loc) (r : Expr) (h : e.erase.mark.isSynthetic = false) :
    (assertion loc r [e]).erase = e.erase := by
  have asserted : Expr.asserted? (Expr.call (.synthetic loc) false
      (Expr.member (.synthetic loc) false "assert" r.erase)
      (.ofList [Arg.mk (.synthetic e.loc) false e.erase])) = some e.erase := by
    change (if e.erase.mark.isSynthetic then none else some e.erase) = _
    rw [h]
    rfl
  change (Expr.asserted? (Expr.call _ _ (Expr.member _ _ _ r.erase) _)).getD _ = _
  exact congrArg (Option.getD · _) asserted

theorem Stmt.wrapped?_block (loc : Loc) {s : Stmt} (h : s.mark.isSynthetic = false) :
    Stmt.wrapped? (Stmt.block (.synthetic loc) (Block.mk (.synthetic loc) (.ofList [s]))) =
      some s := by
  change (if s.mark.isSynthetic then none else some s) = _
  rw [h]
  rfl

theorem Stmt.returned?_returnStmt (loc : Loc) (h : e.mark.isSynthetic = false) :
    Stmt.returned? (returnStmt loc e) = some e := by
  change (if e.mark.isSynthetic then none else some e) = _
  rw [h]
  rfl

/-- Erasing what something has become gives back what it was. -/
def Shape.Erases : (k : Shape) → k.Of → k.Of → Prop
  | .tree _, t, t' => t.Original → t'.erase = t
  | .parts _, ts, ts' => ts.Original → ts'.erase = ts
  | .list _, ts, ts' => (∀ t ∈ ts, t.Original) → ts'.map Tree.erase = ts

theorem Padded.erase {c} {us us' ts : List (Tree c)} (h : Padded Tree.IsAdded us us')
    (hu : us.map Tree.erase = ts) (ht : ∀ t ∈ ts, t.isErased = false) :
    (us'.map Tree.erase).filter (fun t => !t.isErased) = ts := by
  subst hu
  induction h with
  | nil => rfl
  | @keep x _ _ _ ih =>
    obtain ⟨head, tail⟩ := forall_mem_cons.1 ht
    rw [map_cons, map_cons, filter_cons_of_pos (by simp [head]), ih tail]
  | add hy _ ih =>
    rw [map_cons, filter_cons_of_neg (by simp [hy.isErased])]
    exact ih ht

/-- **Growth undone.**  An original tree is what is left of anything it grows to. -/
theorem Grows.erase {k x x'} (h : Grows k x x') : k.Erases x x' := by
  induction h with
  | node hc _ ih =>
    intro original
    rw [erase_node, ih (original_node.1 original).2]
    exact original.eraseRoot hc
  | many _ padded ih =>
    intro original
    rw [original_ofList] at original
    rw [erase_ofList, padded.erase (ih original) fun t ht => (original t ht).isErased]
  | @checked loc e e' r hr _ ih =>
    intro original
    have value := ih original
    rw [erase_assertion loc r (by rw [value]; exact original.mark rfl), value]
  | @wrapped loc s s' ss _ _ padded ih =>
    intro original
    have left : [s'].map Tree.erase = [s] := by rw [map_singleton, ih original]
    have stmts : (Tree.ofList ss).erase = .ofList [s] := by
      rw [erase_ofList, padded.erase left (by simpa using original.isErased)]
    change (Stmt.wrapped? (Stmt.block _ (Block.mk _ (Tree.ofList ss).erase))).getD _ = s
    rw [stmts, Stmt.wrapped?_block loc (original.mark rfl)]
    rfl
  | @returned loc e e' ss _ padded ih =>
    intro original
    obtain ⟨-, value⟩ := original_node.1 original
    obtain ⟨value, -⟩ := Children.original_cons.1 value
    have returned := Stmt.returned?_returnStmt loc (value.mark rfl)
    have stmts : (Tree.ofList ss).erase = .ofList [returnStmt loc e] := by
      have stmt : (returnStmt loc e').erase = returnStmt loc e :=
        congrArg (returnStmt loc) (ih value)
      have left : [returnStmt loc e'].map Tree.erase = [returnStmt loc e] := by
        rw [map_singleton, stmt]
      rw [erase_ofList, padded.erase left]
      rw [forall_mem_singleton]
      change (true && (Stmt.returned? (returnStmt loc e)).isNone) = false
      rw [returned]
      rfl
    change FuncBody.restored (FuncBody.block (Tree.ofList ss).erase) = _
    rw [stmts]
    change ((Stmt.returned? _).map FuncBody.expr).getD _ = _
    rw [returned]
    rfl
  | partsCons _ _ head tail =>
    intro original
    rw [Children.original_cons] at original
    rw [Children.erase_cons, head original.1, tail original.2]
  | listCons _ _ head tail =>
    intro original
    rw [forall_mem_cons] at original
    rw [map_cons, head original.1, tail original.2]
  | _ => exact fun _ => rfl

/-! ### Instrumented units -/

theorem isAdded_libraryImports (options : Options) (loc : Loc) :
    ∀ s ∈ libraryImports options loc, s.IsAdded := by
  have added (name : Option String) (source : String) :
      (importStmt loc name source).IsAdded := by
    refine ⟨?_, rfl⟩
    cases name <;> simp [importStmt, Tree.ofOption]
  rw [libraryImports]
  split <;> simp [added]

theorem Grows.withImports {unit walked : SourceUnit} (options : Options)
    (h : Grows (.tree .unit) unit walked) :
    Grows (.tree .unit) unit (SourceUnit.withImports options walked) := by
  match walked, h with
  | SourceUnit.mk mark stmts', h =>
    cases h with
    | node _ parts =>
    match parts with
    | .partsCons stmts .partsNil =>
      obtain ⟨us, each, padded⟩ := stmts.many_inv
      have imports := (Padded.of_added (isAdded_libraryImports options mark.loc)).append padded
      exact .of_parts (.partsCons (GrowsList.many ⟨us, each, imports⟩) .partsNil)

/-- **Instrumentation only adds code.**  A unit of the source whose types all have reflections is
what erasure leaves of its instrumented form: no node of it is lost, doubled, moved or changed. -/
theorem erase_instrument (options : Options) (unit : SourceUnit) {out : SourceUnit} {w : Walker}
    (original : unit.Original)
    (run : (instrument unit).run { context := .start options unit } = (out, w))
    (clean : w.errors = []) : out.erase = unit := by
  obtain ⟨walked, w', walk, clean, -, rfl⟩ := instrument_clean run clean
  obtain ⟨vs, walks⟩ := SourceUnit.walks unit { context := .start options unit }
  rw [walk] at walks
  exact ((walks.grows clean).1.withImports _).erase original

/-- `(x: string) => x; if (x) type T = string;` -/
def arrowAndAlias : SourceUnit :=
  (SourceUnit.mk {} (.ofList [
    Stmt.expr {} (Expr.arrow {} (Func.mk {} ⟨true, false, false⟩ .absent
      (.ofList [Param.mk {} ⟨false, false, none, false⟩ (.ofList [])
        (Binding.mk {} (Pat.ident {} "x")) (.present (TypeExpr.keyword {} .string)) .absent])
      .absent (.present (FuncBody.expr (Expr.ident {} "x"))))),
    Stmt.ifElse {} (Expr.ident {} "x")
      (Stmt.aliasDecl {} (AliasDecl.mk {} ⟨false, false, "T"⟩ .absent
        (TypeExpr.keyword {} .string))) .absent])).numbered

theorem erase_instrument_arrowAndAlias :
    arrowAndAlias.Original ∧
      ((instrument arrowAndAlias).run { context := .start {} arrowAndAlias }).2.errors = [] ∧
      ((instrument arrowAndAlias).run { context := .start {} arrowAndAlias }).1.erase =
        arrowAndAlias := by
  have original : arrowAndAlias.Original := by decide +kernel
  have clean : ((instrument arrowAndAlias).run
      { context := .start {} arrowAndAlias }).2.errors = [] := by
    rfl
  exact ⟨original, clean, erase_instrument {} arrowAndAlias original rfl clean⟩

end Reify
