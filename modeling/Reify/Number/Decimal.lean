import Reify.Number.Double

/-!
# Decimal numerals

Reading decimal numerals as binary64 values.  `Double.ofDecimal` rounds a decimal once.
`Double.ofText?` reads the free form used for numeric literals in types.  `Double.scale` is
the two-step reading used for JSON numbers: the digits are rounded as an integer and then
scaled by a rounded power of ten.
-/

namespace Reify

/-- The value of a decimal digit. -/
def digitValue (c : Char) : Nat := c.toNat - '0'.toNat

/-- The number written by decimal digits. -/
def natOfDigits (cs : List Char) : Nat := cs.foldl (fun n c => 10 * n + digitValue c) 0

namespace Double

/-- The value nearest to `± digits · 10 ^ exponent`.  The two bounds keep the powers small: past
them the value is infinite or zero whatever the digits are. -/
def ofDecimal (negative : Bool) (digits : Nat) (exponent : Int) : Double :=
  let size : Int := (Nat.toDigits 10 digits).length + exponent
  if digits = 0 then zero negative
  else if 310 < size then .infinite negative
  else if size < -330 then zero negative
  else if 0 ≤ exponent then ofRatio negative (digits * Nat.pow 10 exponent.toNat) 1
  else ofRatio negative digits (Nat.pow 10 (-exponent).toNat)

/-- The power of ten `10 ^ n`, rounded. -/
def powerOfTen (n : Nat) : Double := ofRatio false (Nat.pow 10 n) 1

/-- `digits · 10 ^ exponent` in two steps: the digits are rounded, then multiplied or divided by
a rounded power of ten, at most `10 ^ 308` at a time.  Nothing if the value leaves the finite
range. -/
def scale (negative : Bool) (digits : Nat) (exponent : Int) : Option Double :=
  let x := ofNat digits
  let signed (y : Double) : Double := if negative then y.neg else y
  if x.isZero then some (signed x)
  else if 0 ≤ exponent then
    if 308 < exponent then none
    else
      let y := x.mul (powerOfTen exponent.toNat)
      if y.isInfinite then none else some (signed y)
  else some (signed (shrink 3 x (-exponent).toNat))
where
  /-- Division by `10 ^ n` in steps of at most `10 ^ 308`; after three full steps every value
  is zero. -/
  shrink : Nat → Double → Nat → Double
    | 0, _, _ => zero false
    | steps + 1, y, n =>
      if n ≤ 308 then y.div (powerOfTen n)
      else if y.isZero then y
      else shrink steps (y.div (powerOfTen 308)) (n - 308)

/-- The exponent part of a numeral: nothing, or `e` with an optional sign and digits. -/
def exponentPart? : List Char → Option Int
  | [] => some 0
  | 'e' :: '-' :: cs => (digits? cs).map fun n => -(n : Int)
  | 'e' :: '+' :: cs => (digits? cs).map fun n => (n : Int)
  | 'e' :: cs => (digits? cs).map fun n => (n : Int)
  | _ => none
where
  /-- A number of at least one digit. -/
  digits? (cs : List Char) : Option Nat :=
    if !cs.isEmpty && cs.all Char.isDigit then some (natOfDigits cs) else none

/-- A numeral without sign, in lower case: `inf`, `infinity`, `nan`, or digits with an optional
point among or around them and an optional exponent. -/
def ofUnsigned? (negative : Bool) (cs : List Char) : Option Double :=
  if cs = "inf".toList || cs = "infinity".toList then some (.infinite negative)
  else if cs = "nan".toList then some .nan
  else
    let whole := cs.takeWhile Char.isDigit
    let rest := cs.dropWhile Char.isDigit
    let (fraction, rest) :=
      match rest with
      | '.' :: rest => (rest.takeWhile Char.isDigit, rest.dropWhile Char.isDigit)
      | _ => ([], rest)
    if whole.isEmpty && fraction.isEmpty then none
    else (exponentPart? rest).map fun e =>
      ofDecimal negative (natOfDigits (whole ++ fraction)) (e - fraction.length)

/-- The value written by a text in lower case, with an optional sign. -/
def ofText? (s : String) : Option Double :=
  match s.toList with
  | '-' :: cs => ofUnsigned? true cs
  | '+' :: cs => ofUnsigned? false cs
  | cs => ofUnsigned? false cs

end Double

end Reify
