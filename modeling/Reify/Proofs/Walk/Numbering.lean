import Mathlib.Logic.Equiv.Basic
import Reify.Proofs.Walk.Pairing

/-!
# Numbering does not matter

Two copies of a unit whose nodes have distinct numbers are renumberings of each other
(`exists_renumbering`).  The walks over them go side by side (`instrument_pairs`), so what is made
of them differs in the numbers alone (`instrument_ignores_numbering`).
-/

namespace Reify

open List

variable {ys xs : List Nat}

theorem exists_perm_map_eq (hx : xs.Nodup) (hy : ys.Nodup) (length : xs.length = ys.length) :
    ∃ e : Equiv.Perm Nat, xs.map e = ys := by
  induction xs generalizing ys with
  | nil => exact ⟨.refl Nat, (length_eq_zero_iff.1 length.symm).symm⟩
  | cons x xs ih =>
    cases ys with
    | nil => cases length
    | cons y ys =>
      obtain ⟨fresh, hx⟩ := nodup_cons.1 hx
      obtain ⟨fresh', hy⟩ := nodup_cons.1 hy
      obtain ⟨e, rfl⟩ := ih hx hy (Nat.succ.inj length)
      -- neither of the two numbers that change places is that of another node
      have others : ∀ i ∈ xs, Equiv.swap (e x) y (e i) = e i := fun i hi =>
        Equiv.swap_apply_of_ne_of_ne (fun same => fresh (e.injective same ▸ hi))
          (fun same => fresh' (same ▸ mem_map_of_mem hi))
      refine ⟨e.trans (Equiv.swap (e x) y), ?_⟩
      rw [map_cons, Equiv.trans_apply, Equiv.swap_apply_left]
      exact congrArg (y :: ·) (map_congr_left others)

/-- Lists of distinct numbers are renumberings of each other. -/
theorem exists_renumbering (hx : (0 :: xs).Nodup) (hy : (0 :: ys).Nodup)
    (length : xs.length = ys.length) : ∃ r : Renumbering, xs.map r.map = ys := by
  obtain ⟨e, he⟩ := exists_perm_map_eq hx hy (congrArg Nat.succ length)
  obtain ⟨zero, he⟩ := List.cons.inj he
  exact ⟨⟨e, zero, e.injective⟩, he⟩

/-- **Numbering does not matter.**  Two copies of a unit, each with distinct numbers for its nodes,
are renumberings of each other.  What comes out of them are renumberings of each other in the same
way and the same trees apart from numbers, with the same reports; the nodes recorded as changed
correspond. -/
theorem instrument_ignores_numbering {options : Options} {unit unit' out out' : SourceUnit}
    {w w' : Walker} (same : unit.detach = unit'.detach)
    (original : unit.Original) (distinct : (unit.marks.map Mark.id).Nodup)
    (original' : unit'.Original) (distinct' : (unit'.marks.map Mark.id).Nodup)
    (run : (instrument unit).run { context := .start options unit } = (out, w))
    (run' : (instrument unit').run { context := .start options unit' } = (out', w')) :
    ∃ f : Nat → Nat, Function.Injective f ∧ unit' = unit.renumber f ∧ out' = out.renumber f ∧
      out'.detach = out.detach ∧ w'.errors = w.errors ∧ w'.log = w.log ∧
      w'.context.mutations = w.context.mutations.map f := by
  rw [Tree.detach_eq, Tree.detach_eq] at same
  have fresh {t : SourceUnit} (original : t.Original) (distinct : (t.marks.map Mark.id).Nodup) :
      (0 :: t.marks.map Mark.id).Nodup := by
    refine List.nodup_cons.2 ⟨fun zero => ?_, distinct⟩
    obtain ⟨m, hm, id⟩ := List.mem_map.1 zero
    exact original m hm id
  have length := congrArg (fun t => t.marks.length) same
  simp only [Tree.marks_renumber, List.length_map] at length
  obtain ⟨r, ids⟩ := exists_renumbering (fresh original distinct) (fresh original' distinct')
    (by simpa using length)
  obtain rfl := Tree.renumber_eq same ids
  let S : Sides := { r with left := options, right := options, twins := ⟨rfl, rfl, rfl, rfl⟩ }
  obtain ⟨related, paired⟩ := instrument_pairs unit _ _ (Walker.paired_start (S := S) unit)
  rw [run, run'] at related paired
  obtain rfl : out' = out.renumber r.map := related.eq_renumber rfl
  exact ⟨r.map, r.injective, rfl, rfl, Tree.detach_renumber out, paired.errors, paired.log rfl,
    congrArg Context.mutations paired.context⟩

/-- `class C { m(x: string) {} } function f(x: keyof T) {}` -/
def checkedAndFailing : SourceUnit :=
  let func (type : TypeExpr) := Func.mk {} ⟨false, false, false⟩ .absent
    (.ofList [Param.mk {} ⟨false, false, none, false⟩ (.ofList [])
      (Binding.mk {} (Pat.ident {} "x")) (.present type) .absent])
    .absent (.present (FuncBody.block (.ofList [])))
  (SourceUnit.mk {} (.ofList [
    Stmt.classDecl {} (ClassDecl.mk {} ⟨false, false, false, false⟩ (.ofList [])
      (.present (Name.mk {} "C")) .absent .absent .absent (.ofList [])
      (.ofList [ClassMember.mk {} ⟨false, false, false, none⟩ (.ofList [])
        (MemberKey.direct {} "m") .absent
        (MemberVal.function {} .method (func (TypeExpr.keyword {} .string)))])),
    Stmt.funcDecl {} (FuncDecl.mk {} ⟨false, false⟩ (.present (Name.mk {} "f"))
      (func (TypeExpr.operator {} .keyOf (TypeExpr.reference {} (.ident "T") .absent))))])).numbered

/-- The unit with its nodes numbered backwards. -/
def countedDown : SourceUnit := checkedAndFailing.renumber (100 - ·)

/-- What becomes of the unit, and the state that this leads to. -/
def checkedAndFailingRun : SourceUnit × Walker :=
  (instrument checkedAndFailing).run { context := .start {} checkedAndFailing }

/-- The same for the copy. -/
def countedDownRun : SourceUnit × Walker :=
  (instrument countedDown).run { context := .start {} countedDown }

theorem instrument_ignores_numbering_countedDown :
    checkedAndFailing.detach = countedDown.detach ∧
      checkedAndFailing.Original ∧ (checkedAndFailing.marks.map Mark.id).Nodup ∧
      countedDown.Original ∧ (countedDown.marks.map Mark.id).Nodup ∧
      checkedAndFailingRun.2.errors ≠ [] ∧
      ∃ f : Nat → Nat, Function.Injective f ∧ countedDown = checkedAndFailing.renumber f ∧
        countedDownRun.1 = checkedAndFailingRun.1.renumber f ∧
        countedDownRun.1.detach = checkedAndFailingRun.1.detach ∧
        countedDownRun.2.errors = checkedAndFailingRun.2.errors ∧
        countedDownRun.2.log = checkedAndFailingRun.2.log ∧
        countedDownRun.2.context.mutations = checkedAndFailingRun.2.context.mutations.map f := by
  have same : checkedAndFailing.detach = countedDown.detach := (Tree.detach_renumber _).symm
  have original : checkedAndFailing.Original := by decide +kernel
  have distinct : (checkedAndFailing.marks.map Mark.id).Nodup := by decide +kernel
  have original' : countedDown.Original := by decide +kernel
  have distinct' : (countedDown.marks.map Mark.id).Nodup := by decide +kernel
  have failed : checkedAndFailingRun.2.errors ≠ [] :=
    List.isEmpty_eq_false_iff.1 (by decide +kernel)
  have run : checkedAndFailingRun = (checkedAndFailingRun.1, checkedAndFailingRun.2) :=
    (Prod.eta checkedAndFailingRun).symm
  have run' : countedDownRun = (countedDownRun.1, countedDownRun.2) :=
    (Prod.eta countedDownRun).symm
  exact ⟨same, original, distinct, original', distinct', failed,
    instrument_ignores_numbering same original distinct original' distinct' run run'⟩

end Reify
