import Reify.Number.Double

/-!
# Shortest digits

The fewest decimal digits that single out a binary64 value: of the decimals that round to the
value, one with the least number of digits and, of those, the nearest.  Two can be equally near:
which of them is taken is for the format to say (`Tie`).  All tests are exact comparisons of
natural numbers.
-/

namespace Reify

/-- Which of two equally near decimals is taken. -/
inductive Tie where
  /-- The one whose last digit is even. -/
  | even
  /-- The one farther from zero. -/
  | away
deriving DecidableEq, Repr

/-- The decimal that a tie between `c` and `c + 1` goes to. -/
def Tie.pick : Tie → Nat → Nat
  | .even, c => c + c % 2
  | .away, c => c + 1

/-- `digits · 10 ^ exponent`. -/
structure Digits where
  digits : Nat
  exponent : Int
deriving DecidableEq, Repr, Inhabited

namespace Digits

/-- Drops trailing zeros, at most `fuel` of them. -/
def strip : Nat → Digits → Digits
  | 0, x => x
  | fuel + 1, x =>
    if x.digits ≠ 0 ∧ x.digits % 10 = 0 then strip fuel ⟨x.digits / 10, x.exponent + 1⟩ else x

/-- The largest `k` with `10 ^ k ≤ m · 2 ^ e`, for a positive `m`. -/
def floorLog10 (m : Nat) (e : Int) : Int :=
  if 0 ≤ e then ((Nat.toDigits 10 (m * Nat.pow 2 e.toNat)).length : Int) - 1
  else ((Nat.toDigits 10 (m * Nat.pow 5 (-e).toNat)).length : Int) - 1 + e

/-- The two factors that make `y · 2 ^ q` and `c · 10 ^ p` comparable as `y · a` and `c · b`. -/
def factors (q p : Int) : Nat × Nat :=
  (Nat.pow 2 q.toNat * Nat.pow 10 (-p).toNat, Nat.pow 10 p.toNat * Nat.pow 2 (-q).toNat)

/-- The decimal on the grid `10 ^ p` that rounds to `m · 2 ^ e`: of the value's two neighbours
the nearer one that lies in the rounding interval.  The interval reaches half a unit up and half
a unit down, or a quarter down at a power of two; its ends belong to it for an even `m`. -/
def onGrid? (tie : Tie) (m : Nat) (e p : Int) : Option Nat :=
  let (a, b) := factors (e - 2) p
  let below := if m = Nat.pow 2 52 ∧ e ≠ Double.minExponent then 1 else 2
  let value := 4 * m * a
  let lo := (4 * m - below) * a
  let hi := (4 * m + 2) * a
  let inside (c : Nat) : Bool :=
    if m % 2 = 0 then lo ≤ c * b && c * b ≤ hi else lo < c * b && c * b < hi
  let c := value / b
  let down := inside c
  let up := inside (c + 1)
  if down && up then
    if value - c * b < (c + 1) * b - value then some c
    else if (c + 1) * b - value < value - c * b then some (c + 1)
    else some (tie.pick c)
  else if down then some c
  else if up then some (c + 1)
  else none

/-- The shortest digits of `m · 2 ^ e`.  Seventeen digits always suffice. -/
def shortest (tie : Tie) (m : Nat) (e : Int) : Digits :=
  if m = 0 then ⟨0, 0⟩
  else
    let k := floorLog10 m e
    let found := (List.range 17).findSome? fun (n : Nat) =>
      let p := k - n
      (onGrid? tie m e p).map fun c => Digits.mk c p
    strip 20 (found.getD ⟨0, 0⟩)

/-- The digits as characters. -/
def chars (x : Digits) : List Char := Nat.toDigits 10 x.digits

/-- The power of ten of the leading digit. -/
def leading (x : Digits) : Int := x.chars.length - 1 + x.exponent

/-- Positional notation: digits, and a point only if there is a fraction. -/
def positional (x : Digits) : String :=
  let ds := x.chars
  if 0 ≤ x.exponent then String.ofList (ds ++ List.replicate x.exponent.toNat '0')
  else
    let places := (-x.exponent).toNat
    let padded := List.replicate (places + 1 - ds.length) '0' ++ ds
    String.ofList (padded.take (padded.length - places)) ++ "." ++
      String.ofList (padded.drop (padded.length - places))

/-- Scientific notation: one digit before the point and a signed exponent. -/
def scientific (x : Digits) : String :=
  let fraction := x.chars.drop 1
  let k := x.leading
  String.ofList (x.chars.take 1) ++
    (if fraction.isEmpty then "" else "." ++ String.ofList fraction) ++
    (if k < 0 then "e-" else "e+") ++ toString k.natAbs

end Digits

namespace Double

/-- Plain decimal text without an exponent, however long; a tie goes away from zero. -/
def positionalText : Double → String
  | .finite s m e => (if s then "-" else "") ++ (Digits.shortest .away m e).positional
  | .infinite s => if s then "-inf" else "inf"
  | .nan => "NaN"

/-- The text of a numeric literal in source: integers below `10 ^ 15` in magnitude as integers,
so that both zeros are `0`, all else in plain decimal. -/
def literalText (x : Double) : String :=
  match x.toInt? with
  | some n => if n.natAbs < Nat.pow 10 15 then toString n else x.positionalText
  | none => x.positionalText

/-- The text of a number in JSON: positional with at least one place while the leading digit
stands for a power of ten from `-5` to `15`, scientific otherwise, and `null` for values that
are not finite.  A tie goes to the even digit. -/
def jsonText : Double → String
  | .finite s m e =>
    let x := Digits.shortest .even m e
    let body :=
      if m = 0 then "0.0"
      else if -5 ≤ x.leading ∧ x.leading ≤ 15 then
        x.positional ++ (if 0 ≤ x.exponent then ".0" else "")
      else x.scientific
    (if s then "-" else "") ++ body
  | _ => "null"

end Double

end Reify
