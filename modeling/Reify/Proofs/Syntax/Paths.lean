import Mathlib.Algebra.GroupWithZero.Nat
import Reify.Proofs.Result

/-!
# Execution paths

`Flow t n o` says that the execution of a tree can take a path on which `n` calls of `super` return
and which ends with the completion `o`.  Where a condition decides, each way is a path, and everything
may throw.  What a function holds is not executed where the function stands.

`Comes ss n s` says that executing statements one after another comes to the statement `s` with `n`
such calls behind it.
-/

namespace Reify

open List

/-- How an execution ends. -/
inductive Completion where
  | normal
  | broken (label : Option String)
  | continued (label : Option String)
  | returned
  | thrown
deriving DecidableEq

namespace Completion

/-- The completion of a statement with a label, given that of the statement inside. -/
def atLabel (label : String) (o : Completion) : Completion :=
  if o = broken (some label) then normal else o

/-- The completion of a `switch`, given that of its branches. -/
def atSwitch (o : Completion) : Completion := if o = broken none then normal else o

/-- The completion of two things of which the second is executed in any case. -/
def ensuring (o last : Completion) : Completion := if last = normal then o else last

/-- Whether a loop goes on after its body. -/
def goesOn : Completion → Bool
  | normal | continued _ => true
  | _ => false

/-- Whether the completion of its body is that of the loop. -/
def stops : Completion → Bool
  | broken (some _) | continued (some _) | returned | thrown => true
  | _ => false

/-- Whether a function is through. -/
def completes : Completion → Bool
  | normal | returned => true
  | _ => false

end Completion

/-- Categories of trees that do nothing where they stand. -/
def Category.isIdle : Category → Bool
  | .func | .type | .typeMember | .typeKey | .typeParam | .sigParam | .importDecl | .interfaceDecl
  | .aliasDecl => true
  | _ => false

/-- Forms of trees whose parts are executed one after another, all of them. -/
def Form.isSequential : {c : Category} → Form c → Bool
  | .expr, ExprForm.cond => false
  | .stmt, StmtForm.ifElse | .stmt, StmtForm.labeled _ | .stmt, StmtForm.doWhile
  | .stmt, StmtForm.whileLoop | .stmt, StmtForm.forIn | .stmt, StmtForm.forOf _
  | .stmt, StmtForm.forLoop | .stmt, StmtForm.switch | .stmt, StmtForm.trying => false
  | .classMember, _ => false
  | c, _ => !c.isIdle

/-- How the execution of such a tree ends once its parts are through. -/
def Form.completion : {c : Category} → Form c → Completion
  | .stmt, StmtForm.breakTo label => .broken label
  | .stmt, StmtForm.continueTo label => .continued label
  | .stmt, StmtForm.returning => .returned
  | .stmt, StmtForm.throwing => .thrown
  | _, _ => .normal

/-- The number of calls of `super` that a tree is by itself. -/
def Tree.superCalls : {c : Category} → Tree c → Nat
  | .expr, Expr.call _ _ (Expr.super _) _ => 1
  | _, _ => 0

/-- Operators that may leave their right side out. -/
def Operator.isLazy : Operator → Bool
  | logicalAnd | logicalOr | nullishCoalescing => true
  | _ => false

/-- Chains that end early where a value is missing: `a?.b.c`. -/
inductive Expr.Optional : Expr → Prop where
  | member {site name object} : Expr.Optional (Expr.member site true name object)
  | index {site object key} : Expr.Optional (Expr.index site true object key)
  | call {site callee args} (h : ∀ s, callee ≠ Expr.super s) :
      Expr.Optional (Expr.call site true callee args)
  | inMember {site optional name object} (h : Expr.Optional object) :
      Expr.Optional (Expr.member site optional name object)
  | inIndex {site optional object key} (h : Expr.Optional object) :
      Expr.Optional (Expr.index site optional object key)
  | inCall {site optional callee args} (h : Expr.Optional callee) :
      Expr.Optional (Expr.call site optional callee args)

/-- A tree of any category. -/
abbrev Phrase := Σ c, Tree c

/-- The trees, in order. -/
def Children.phrases : {cs : List Category} → Children cs → List Phrase
  | _, .nil => []
  | _, .cons t ts => ⟨_, t⟩ :: ts.phrases

/-- Statements as trees of any category. -/
def stmtPhrases (ss : List Stmt) : List Phrase := ss.map (⟨.stmt, ·⟩)

namespace Branch

/-- The value that a branch of a `switch` is for. -/
def test : Branch → Maybe .expr
  | Branch.mk _ test _ => test

/-- The statements of a branch. -/
def stmts : Branch → List Stmt
  | Branch.mk _ _ stmts => stmts.toList

end Branch

mutual

/-- **The paths through a tree.** -/
inductive Flow : {c : Category} → Tree c → Nat → Completion → Prop where
  | idle {c} {t : Tree c} (h : c.isIdle = true) : Flow t 0 .normal
  | all {c} {form : Form c} {marks ts n} (h : form.isSequential = true)
      (parts : Runs ts.phrases n .normal) :
      Flow (.node form marks ts) (n + (Tree.node form marks ts).superCalls) form.completion
  | some {c} {form : Form c} {marks ts n o} (h : form.isSequential = true)
      (parts : Runs ts.phrases n o) (cut : o ≠ .normal) : Flow (.node form marks ts) n o
  | throws {c} {t : Tree c} : Flow t 0 .thrown
  | throwsLate {c} {t : Tree c} {n} (inner : Flow t n .normal) : Flow t n .thrown
  -- Expressions and members of classes that leave parts out.
  | condYes {site test yes no n o} (parts : Runs [⟨_, test⟩, ⟨_, yes⟩] n o) :
      Flow (Expr.cond site test yes no) n o
  | condNo {site test yes no n o} (parts : Runs [⟨_, test⟩, ⟨_, no⟩] n o) :
      Flow (Expr.cond site test yes no) n o
  | left {site op left right n o} (h : Operator.isLazy op = true) (part : Flow left n o) :
      Flow (Expr.binary site op left right) n o
  | callee {site optional callee args n o}
      (h : Expr.Optional (Expr.call site optional callee args)) (part : Flow callee n o) :
      Flow (Expr.call site optional callee args) n o
  | object {site optional object key n o}
      (h : Expr.Optional (Expr.index site optional object key)) (part : Flow object n o) :
      Flow (Expr.index site optional object key) n o
  | member {mark form decorators key type val n o}
      (parts : Runs [⟨_, decorators⟩, ⟨_, key⟩] n o) :
      Flow (ClassMember.mk mark form decorators key type val) n o
  -- Statements.
  | ifYes {site test yes no n o} (parts : Runs [⟨_, test⟩, ⟨_, yes⟩] n o) :
      Flow (Stmt.ifElse site test yes no) n o
  | ifNo {site test yes no n o} (parts : Runs [⟨_, test⟩, ⟨_, no⟩] n o) :
      Flow (Stmt.ifElse site test yes no) n o
  | labeled {site label body n o} (inner : Flow body n o) :
      Flow (Stmt.labeled site label body) n (o.atLabel label)
  | whileLoop {site test body n o} (rounds : Rounds false ⟨_, test⟩ ⟨_, body⟩ [] n o) :
      Flow (Stmt.whileLoop site test body) n o
  | doWhile {site test body n m o o'} (first : Flow body n o) (on : o.goesOn = true)
      (rounds : Rounds false ⟨_, test⟩ ⟨_, body⟩ [] m o') :
      Flow (Stmt.doWhile site test body) (n + m) o'
  | doLeave {site test body n} (first : Flow body n (.broken none)) :
      Flow (Stmt.doWhile site test body) n .normal
  | doStop {site test body n o} (first : Flow body n o) (stops : o.stops = true) :
      Flow (Stmt.doWhile site test body) n o
  | forLoop {site init update body n m o} {test : Maybe .expr} (first : Flow init n .normal)
      (rounds : Rounds false ((test.toOption.map (⟨_, ·⟩)).getD ⟨_, test⟩) ⟨_, body⟩ [⟨_, update⟩]
        m o) :
      Flow (Stmt.forLoop site init test update body) (n + m) o
  | forCut {site init test update body n o} (first : Flow init n o) (cut : o ≠ .normal) :
      Flow (Stmt.forLoop site init test update body) n o
  | forIn {site target source body n m o} (first : Flow source n .normal)
      (rounds : Rounds true ⟨_, target⟩ ⟨_, body⟩ [] m o) :
      Flow (Stmt.forIn site target source body) (n + m) o
  | forInCut {site target source body n o} (first : Flow source n o) (cut : o ≠ .normal) :
      Flow (Stmt.forIn site target source body) n o
  | forOf {site await target source body n m o} (first : Flow source n .normal)
      (rounds : Rounds true ⟨_, target⟩ ⟨_, body⟩ [] m o) :
      Flow (Stmt.forOf site await target source body) (n + m) o
  | forOfCut {site await target source body n o} (first : Flow source n o) (cut : o ≠ .normal) :
      Flow (Stmt.forOf site await target source body) n o
  | switchNone {site subject n o} {branches : Many .branch}
      (noDefault : ∀ b ∈ branches.toList, (Branch.test b).toOption.isSome = true)
      (tests : Runs (⟨_, subject⟩ :: branches.toList.map (⟨_, Branch.test ·⟩)) n o) :
      Flow (Stmt.switch site subject branches) n o
  | switchCase {site subject before b after n m o} {branches : Many .branch}
      (split : branches.toList = before ++ b :: after) (case' : (Branch.test b).toOption.isSome = true)
      (tests : Runs (⟨_, subject⟩ :: (before ++ [b]).map (⟨_, Branch.test ·⟩)) n .normal)
      (stmts : Runs (stmtPhrases ((b :: after).flatMap Branch.stmts)) m o) :
      Flow (Stmt.switch site subject branches) (n + m) o.atSwitch
  | switchDefault {site subject before b after n m o} {branches : Many .branch}
      (split : branches.toList = before ++ b :: after) (default : (Branch.test b).toOption.isSome = false)
      (tests : Runs (⟨_, subject⟩ :: branches.toList.map (⟨_, Branch.test ·⟩)) n .normal)
      (stmts : Runs (stmtPhrases ((b :: after).flatMap Branch.stmts)) m o) :
      Flow (Stmt.switch site subject branches) (n + m) o.atSwitch
  | switchCut {site subject before after n o} {branches : Many .branch}
      (split : branches.toList = before ++ after)
      (tests : Runs (⟨_, subject⟩ :: before.map (⟨_, Branch.test ·⟩)) n o) (cut : o ≠ .normal) :
      Flow (Stmt.switch site subject branches) n o
  | tryOnly {site body handler finalizer n k o last} (inner : Flow body n o)
      (uncaught : o = .thrown → handler = .absent) (final : Flow finalizer k last) :
      Flow (Stmt.trying site body handler finalizer) (n + k) (o.ensuring last)
  | tryCatch {site body handler finalizer n m k o last} (inner : Flow body n .thrown)
      (caught : Flow handler m o) (final : Flow finalizer k last) :
      Flow (Stmt.trying site body (.present handler) finalizer) (n + m + k) (o.ensuring last)

/-- The paths through trees that are executed one after another. -/
inductive Runs : List Phrase → Nat → Completion → Prop where
  | nil : Runs [] 0 .normal
  | cons {c} {t : Tree c} {ps n m o} (head : Flow t n .normal) (tail : Runs ps m o) :
      Runs (⟨c, t⟩ :: ps) (n + m) o
  | cut {c} {t : Tree c} {ps n o} (head : Flow t n o) (cut : o ≠ .normal) : Runs (⟨c, t⟩ :: ps) n o

/-- The paths through the rounds of a loop: what comes before its body, the body, and what follows
the body.  A loop over values ends when there are no more of them, other loops after a test. -/
inductive Rounds : Bool → Phrase → Phrase → List Phrase → Nat → Completion → Prop where
  | done {head body tail} : Rounds true head body tail 0 .normal
  | exit {body tail n} {test : Expr} (exit : Flow test n .normal) :
      Rounds false ⟨.expr, test⟩ body tail n .normal
  | cut {free body tail n o} {head : Phrase} (first : Flow head.2 n o) (cut : o ≠ .normal) :
      Rounds free head body tail n o
  | leave {free tail n m} {head body : Phrase} (first : Flow head.2 n .normal)
      (inner : Flow body.2 m (.broken none)) : Rounds free head body tail (n + m) .normal
  | stop {free tail n m o} {head body : Phrase} (first : Flow head.2 n .normal)
      (inner : Flow body.2 m o) (stops : o.stops = true) : Rounds free head body tail (n + m) o
  | again {free tail n m k j o o'} {head body : Phrase} (first : Flow head.2 n .normal)
      (inner : Flow body.2 m o) (on : o.goesOn = true) (last : Runs tail k .normal)
      (rounds : Rounds free head body tail j o') : Rounds free head body tail (n + m + k + j) o'
  | cutTail {free tail n m k o o'} {head body : Phrase} (first : Flow head.2 n .normal)
      (inner : Flow body.2 m o) (on : o.goesOn = true) (last : Runs tail k o')
      (cut : o' ≠ .normal) : Rounds free head body tail (n + m + k) o'

end

/-- Executing the statements one after another comes to a statement, with a number of calls of
`super` behind it. -/
inductive Comes : List Stmt → Nat → Stmt → Prop where
  | here {s ss} : Comes (s :: ss) 0 s
  | later {s ss n m t} (first : Flow s n .normal) (rest : Comes ss m t) : Comes (s :: ss) (n + m) t

/-! ### Statements in a row -/

theorem Comes.mem {ss n s} (h : Comes ss n s) : s ∈ ss := by
  induction h with
  | here => exact mem_cons_self
  | later _ _ ih => exact mem_cons_of_mem _ ih

/-- What comes later comes once the statements before it are through. -/
theorem Comes.append_cases {ss ts n s} (h : Comes (ss ++ ts) n s) :
    Comes ss n s ∨ ∃ k m, n = k + m ∧ Runs (stmtPhrases ss) k .normal ∧ Comes ts m s := by
  induction ss generalizing n with
  | nil => exact .inr ⟨0, n, (Nat.zero_add n).symm, .nil, h⟩
  | cons t ss ih =>
    cases h with
    | here => exact .inl .here
    | @later _ _ n m _ first rest =>
      rcases ih rest with before | ⟨k, m', rfl, through, after⟩
      · exact .inl (.later first before)
      · exact .inr ⟨n + k, m', (Nat.add_assoc n k m').symm, .cons first through, after⟩

/-- A call of `super` that returns counts. -/
theorem Flow.superCall_pos {s : Stmt} {n} (h : Flow s n .normal)
    (super' : Stmt.isSuperCall s = true) : 0 < n := by
  match s, super' with
  | Stmt.expr site (Expr.call site' optional (Expr.super site'') args), _ =>
    cases h with
    | idle h => cases h
    | some _ _ cut => exact (cut rfl).elim
    | all _ parts =>
      cases parts with
      | cut _ cut => exact (cut rfl).elim
      | cons head _ =>
        cases head with
        | idle h => cases h
        | some _ _ cut => exact (cut rfl).elim
        | all =>
          change 0 < _ + 1 + _ + 0
          omega
        | callee chain =>
          cases chain with
          | call h => exact (h site'' rfl).elim
          | inCall h => cases h

theorem Runs.superCall_pos {ss n} (h : Runs (stmtPhrases ss) n .normal) {s} (hs : s ∈ ss)
    (super' : Stmt.isSuperCall s = true) : 0 < n := by
  induction ss generalizing n with
  | nil => cases hs
  | cons t ss ih =>
    cases h with
    | cut _ cut => exact (cut rfl).elim
    | cons head tail =>
      rcases mem_cons.1 hs with rfl | later
      · have := head.superCall_pos super'
        omega
      · have := ih tail later
        omega

theorem Runs.append_cases {ss ts n} (h : Runs (stmtPhrases (ss ++ ts)) n .normal) :
    ∃ k m, n = k + m ∧ Runs (stmtPhrases ss) k .normal ∧ Runs (stmtPhrases ts) m .normal := by
  induction ss generalizing n with
  | nil => exact ⟨0, n, (Nat.zero_add n).symm, .nil, h⟩
  | cons t ss ih =>
    cases h with
    | cut _ cut => exact (cut rfl).elim
    | @cons _ _ _ n m _ head tail =>
      obtain ⟨k, m', rfl, first, second⟩ := ih tail
      exact ⟨n + k, m', (Nat.add_assoc n k m').symm, .cons head first, second⟩

/-! ### Counting the calls -/

/-- Every path through the tree on which nothing is thrown goes on behind it and has `k` calls of
`super`. -/
def Tree.Calls {c : Category} (k : Nat) (t : Tree c) : Prop :=
  ∀ n o, Flow t n o → o = .thrown ∨ n = k ∧ o = .normal

/-- Forms of trees on every path through which all parts are executed, unless one of them throws,
and that call nothing by themselves. -/
def Form.isPlain : {c : Category} → Form c → Bool
  | .expr, ExprForm.call _ | .expr, ExprForm.index _ => false
  | .expr, ExprForm.binary op => !op.isLazy
  | _, form => form.isSequential && form.completion = .normal

theorem Form.isPlain_cases {c} {form : Form c} (plain : form.isPlain = true) :
    c.isIdle = false ∧ form.completion = .normal ∧
      ∀ marks ts, (Tree.node form marks ts).superCalls = 0 := by
  cases c with
  | expr | stmt => cases form <;> first | exact ⟨rfl, rfl, fun _ _ => rfl⟩ | cases plain
  | _ => first | exact ⟨rfl, rfl, fun _ _ => rfl⟩ | cases plain

/-- The paths through a plain tree. -/
theorem Flow.plain_cases {c} {form : Form c} {marks ts n o} (h : Flow (.node form marks ts) n o)
    (plain : form.isPlain = true) : o = .thrown ∨ Runs ts.phrases n o := by
  obtain ⟨busy, normal, none⟩ := Form.isPlain_cases plain
  cases h with
  | throws => exact .inl rfl
  | throwsLate => exact .inl rfl
  | idle idle =>
    rw [busy] at idle
    cases idle
  | all h parts =>
    rw [normal, none]
    exact .inr parts
  | some h parts cut => exact .inr parts
  | left lazy =>
    simp [Form.isPlain, lazy] at plain
  | _ => cases plain

/-- One thing after the other, none of which does more than call `super`. -/
theorem Runs.calls {ps ks} (h : Forall₂ (fun p k => p.2.Calls k) ps ks) {n o} (run : Runs ps n o) :
    o = .thrown ∨ n = ks.sum ∧ o = .normal := by
  induction h generalizing n with
  | nil =>
    cases run
    exact .inr ⟨rfl, rfl⟩
  | @cons p k ps ks head _ ih =>
    cases run with
    | cut path cut => exact (head _ _ path).imp_right fun h => (cut h.2).elim
    | cons path rest =>
      rcases head _ _ path with thrown | ⟨rfl, -⟩
      · cases thrown
      · exact (ih rest).imp_right fun h => ⟨by rw [h.1, sum_cons], h.2⟩

namespace Tree.Calls

variable {k : Nat} {site : Site}

/-- The calls of a plain tree are those of its parts. -/
theorem of_plain {c} {form : Form c} {marks ts} (plain : form.isPlain = true) (ks : List Nat)
    (sum : ks.sum = k) (parts : Forall₂ (fun p k => p.2.Calls k) ts.phrases ks) :
    (Tree.node form marks ts).Calls k := by
  intro n o path
  rcases path.plain_cases plain with thrown | run
  · exact .inl thrown
  · rw [← sum]
    exact run.calls parts

theorem superCall {site' optional args} (h : args.Calls k) :
    (Expr.call site optional (Expr.super site') args).Calls (k + 1) := by
  have none : (Expr.super site').Calls 0 := of_plain rfl [] rfl .nil
  have parts {n : Nat} {o : Completion} (run : Runs [⟨_, Expr.super site'⟩, ⟨_, args⟩] n o) :
      o = .thrown ∨ n = k ∧ o = .normal := by
    simpa using run.calls (.cons none (.cons h .nil))
  intro n o path
  cases path with
  | idle idle => cases idle
  | all _ run =>
    rcases parts run with thrown | ⟨rfl, -⟩
    · cases thrown
    · exact .inr ⟨rfl, rfl⟩
  | some _ run cut => exact (parts run).imp_right fun h => (cut h.2).elim
  | callee chain =>
    cases chain with
    | call h => exact (h site' rfl).elim
    | inCall h => cases h
  | _ => exact .inl rfl

/-- Both ways of a condition have the same number of calls. -/
theorem ifElse {test yes no m} (h : test.Calls k) (hyes : yes.Calls m) (hno : no.Calls m) :
    (Stmt.ifElse site test yes no).Calls (k + m) := by
  have both {c : Category} {t : Tree c} (ht : t.Calls m) {n : Nat} {o : Completion}
      (run : Runs [⟨_, test⟩, ⟨_, t⟩] n o) : o = .thrown ∨ n = k + m ∧ o = .normal :=
    by simpa using run.calls (.cons h (.cons ht .nil))
  intro n o path
  cases path with
  | idle idle => cases idle
  | all sequential => cases sequential
  | some sequential => cases sequential
  | ifYes run => exact both hyes run
  | ifNo run => exact both hno run
  | _ => exact .inl rfl

end Tree.Calls

/-! ### A path to follow -/

/-- The calls of several paths, one after the other. -/
def inAll : List (Option Nat) → Option Nat
  | [] => some 0
  | n :: ns => do return (← n) + (← inAll ns)

/-- The number of calls on the path that takes the first way at each condition, given that of the
parts; there is none if the path leads away. -/
def Form.firstPath : {c : Category} → (form : Form c) → Marks form.width → Children form.arity →
    Results (fun _ => Option Nat) form.arity → Option Nat
  | .stmt, StmtForm.ifElse, _, _, (test, yes, _) => inAll [test, yes]
  | c, form, marks, ts, rs =>
    if c.isIdle then some 0
    else if form.isSequential && form.completion = .normal then
      (inAll rs.values).map (· + (Tree.node form marks ts).superCalls)
    else none

/-- The number of calls of `super` on the path that takes the first way at each condition, if the
path goes on behind the tree. -/
def Tree.firstPath? {c : Category} (t : Tree c) : Option Nat :=
  t.fold (X := fun _ => Option Nat) Form.firstPath

/-- The same for trees in a row. -/
def Children.firstPath? {cs : List Category} (ts : Children cs) : Option Nat :=
  inAll (ts.fold (X := fun _ => Option Nat) Form.firstPath).values

theorem inAll_cons {n ns k} (h : inAll (n :: ns) = some k) :
    ∃ i j, n = some i ∧ inAll ns = some j ∧ k = i + j := by
  rw [inAll] at h
  obtain ⟨i, hi, h⟩ := Option.bind_eq_some_iff.1 h
  obtain ⟨j, hj, h⟩ := Option.bind_eq_some_iff.1 h
  exact ⟨i, j, hi, hj, (Option.some.inj h).symm⟩

/-- The paths of trees in a row are there. -/
def Children.FirstPaths : {cs : List Category} → Children cs → Prop
  | _, .nil => True
  | _, .cons t ts => (∀ n, t.firstPath? = some n → Flow t n .normal) ∧ ts.FirstPaths

theorem Children.FirstPaths.runs : {cs : List Category} → {ts : Children cs} → {n : Nat} →
    ts.FirstPaths → ts.firstPath? = some n → Runs ts.phrases n .normal
  | _, .nil, n, _, h => by
    obtain rfl := Option.some.inj h
    exact .nil
  | _, .cons t ts, n, paths, h => by
    obtain ⟨i, j, head, tail, rfl⟩ := inAll_cons h
    exact .cons (paths.1 i head) (runs paths.2 tail)

mutual

theorem Tree.path_of_firstPath? : {c : Category} → (t : Tree c) → (n : Nat) →
    t.firstPath? = some n → Flow t n .normal
  | c, .node form marks ts, n, h => by
    have paths : ts.FirstPaths := ts.firstPaths
    have inOrder (h : (if c.isIdle then some 0
        else if form.isSequential && form.completion = .normal then
          ts.firstPath?.map (· + (Tree.node form marks ts).superCalls)
        else none) = some n) : Flow (.node form marks ts) n .normal := by
      split at h
      case isTrue idle =>
        obtain rfl := Option.some.inj h
        exact .idle idle
      case isFalse =>
        split at h
        case isTrue plain =>
          rw [Bool.and_eq_true, decide_eq_true_eq] at plain
          obtain ⟨k, parts, rfl⟩ := Option.map_eq_some_iff.1 h
          have path : Flow (.node form marks ts) (k + _) form.completion :=
            .all plain.1 (paths.runs parts)
          rwa [plain.2] at path
        case isFalse => cases h
    cases c with
    | stmt =>
      cases form with
      | ifElse =>
        match marks, ts, paths with
        | .two site, .cons test (.cons yes (.cons no .nil)), paths =>
          obtain ⟨i, _, first, rest, rfl⟩ := inAll_cons h
          obtain ⟨j, _, second, none, rfl⟩ := inAll_cons rest
          obtain rfl := Option.some.inj none
          exact .ifYes (.cons (paths.1 i first) (.cons (paths.2.1 j second) .nil))
      | _ => exact inOrder h
    | _ => exact inOrder h

theorem Children.firstPaths : {cs : List Category} → (ts : Children cs) → ts.FirstPaths
  | _, .nil => trivial
  | _, .cons t ts => ⟨t.path_of_firstPath?, ts.firstPaths⟩

end

end Reify
