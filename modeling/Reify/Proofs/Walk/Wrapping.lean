import Reify.Proofs.Walk.Pairing

/-!
# Wrapping is additive

The walks over a unit with two option sets that differ in what they say about null go side by side
(`instrument_pairs`).  So both fail alike, and without wrappers the trees that come out are equal
(`instrument_ignores_wrapping`).
-/

namespace Reify

/-- **Nullable wrapping is additive.**  With options that differ in what they say about null alone,
the same types are reported as unsupported, and once each call `lib.n(x)` is replaced by `x` the
same tree comes out.  If neither asks for wrappers, the same tree comes out as it is. -/
theorem instrument_ignores_wrapping {o o' : Options} {unit out out' : SourceUnit} {w w' : Walker}
    (differ : o' = { o with
      nullableWrapping := o'.nullableWrapping, strictNullChecks := o'.strictNullChecks })
    (run : (instrument unit).run { context := .start o unit } = (out, w))
    (run' : (instrument unit).run { context := .start o' unit } = (out', w')) :
    w'.errors = w.errors ∧ out'.unwrap o.library = out.unwrap o.library ∧
      (o.wrapsNullable = false → o'.wrapsNullable = false → out' = out) := by
  have twins : o.Twins o' := by
    rw [differ]
    exact ⟨rfl, rfl, rfl, rfl⟩
  let S : Sides := { map := id, zero := rfl, injective := fun _ _ => id, left := o, right := o', twins }
  obtain ⟨related, paired⟩ := instrument_pairs unit _ _ (Walker.paired_start (S := S) unit)
  have copy : unit.renumber S.map = unit := Tree.renumber_same unit
  rw [copy, run, run'] at related paired
  refine ⟨paired.errors, related.unwrap_eq.symm, fun off off' => ?_⟩
  refine (related.renumbered ?_ ?_).trans (Tree.renumber_same out)
  · exact fun wraps => Bool.noConfusion (wraps.1.symm.trans off)
  · exact fun wraps => Bool.noConfusion (wraps.2.symm.trans off')

/-- `class C { p: string; } let f: (x: number) => void = g;` -/
def wrappedParts : SourceUnit :=
  (SourceUnit.mk {} (.ofList [
    Stmt.classDecl {} (ClassDecl.mk {} ⟨false, false, false, false⟩ (.ofList [])
      (.present (Name.mk {} "C")) .absent .absent .absent (.ofList [])
      (.ofList [ClassMember.mk {} ⟨false, false, false, none⟩ (.ofList [])
        (MemberKey.direct {} "p") (.present (TypeExpr.keyword {} .string))
        (MemberVal.property .absent)])),
    Stmt.varDecl {} (VarDecl.mk {} ⟨false, .block⟩ (.ofList [
      Declarator.mk {} (Binding.mk {} (Pat.ident {} "f"))
        (.present (TypeExpr.func {} .absent
          (.ofList [SigParam.mk {} ⟨"x", false, false⟩ (.present (TypeExpr.keyword {} .number))])
          (TypeExpr.keyword {} .void)))
        (.present (Expr.ident {} "g"))]))])).numbered

/-- What becomes of the unit with the given options, and the state that this leads to. -/
def wrappedPartsRun (options : Options) : SourceUnit × Walker :=
  (instrument wrappedParts).run { context := .start options wrappedParts }

/-- The class and the variable are checked against other expressions if reflections are wrapped. -/
theorem instrument_ignores_wrapping_wrappedParts :
    (wrappedPartsRun {}).2.errors = [] ∧
      SourceUnit.text (wrappedPartsRun { nullableWrapping := true }).1 ≠
        SourceUnit.text (wrappedPartsRun {}).1 ∧
      (wrappedPartsRun { nullableWrapping := true }).2.errors = (wrappedPartsRun {}).2.errors ∧
      (wrappedPartsRun { nullableWrapping := true }).1.unwrap "_t" =
        (wrappedPartsRun {}).1.unwrap "_t" ∧
      (wrappedPartsRun { nullableWrapping := true, strictNullChecks := true }).1 =
        (wrappedPartsRun {}).1 := by
  have fine : (wrappedPartsRun {}).2.errors = [] := List.isEmpty_iff.1 (by decide +kernel)
  have other : SourceUnit.text (wrappedPartsRun { nullableWrapping := true }).1 ≠
    SourceUnit.text (wrappedPartsRun {}).1 := by decide +kernel
  have run (options : Options) : wrappedPartsRun options =
    ((wrappedPartsRun options).1, (wrappedPartsRun options).2) := rfl
  obtain ⟨errors, same, -⟩ := @instrument_ignores_wrapping {} { nullableWrapping := true } _ _ _ _ _
    rfl (run _) (run _)
  obtain ⟨-, -, equal⟩ := @instrument_ignores_wrapping {}
    { nullableWrapping := true, strictNullChecks := true } _ _ _ _ _ rfl (run _) (run _)
  exact ⟨fine, other, errors, same, equal rfl rfl⟩

end Reify
