import Reify.Number.Decimal
import Reify.Syntax.Synthetic

/-!
# Numerals in types

A literal type or a key may be a numeral in any notation: decimal, or with a radix mark, with
underscores between digits and a sign in front.  Its value becomes a number literal; a text that
is no numeral, or one with a radix that does not fit 64 bits, stays a string.
-/

namespace Reify

/-- The value of a digit in a radix up to 16, in lower case. -/
def radixDigit? (radix : Nat) (c : Char) : Option Nat :=
  let value :=
    if c.isDigit then some (c.toNat - '0'.toNat)
    else if 'a' ≤ c && c ≤ 'f' then some (c.toNat - 'a'.toNat + 10)
    else none
  value.filter (· < radix)

/-- The natural number written by at least one digit in a radix. -/
def natInRadix? (radix : Nat) : List Char → Option Nat
  | [] => none
  | cs => (cs.mapM (radixDigit? radix)).map (·.foldl (fun n d => radix * n + d) 0)

/-- The integer of 64 bits written in a radix, with an optional sign. -/
def wordInRadix? (radix : Nat) (cs : List Char) : Option Int :=
  let value := match cs with
    | '-' :: cs => (natInRadix? radix cs).map fun n => -(n : Int)
    | '+' :: cs => (natInRadix? radix cs).map fun n => (n : Int)
    | cs => (natInRadix? radix cs).map fun n => (n : Int)
  value.filter fun n => -(Int.pow 2 63) ≤ n && n < Int.pow 2 63

/-- The value of a numeral without the sign in front, in lower case. -/
def numeralValue? (cs : List Char) : Option Double :=
  let clean (cs : List Char) : List Char := cs.filter (· ≠ '_')
  match cs with
  | '0' :: 'x' :: cs => (wordInRadix? 16 (clean cs)).map Double.ofInt
  | '0' :: 'o' :: cs => (wordInRadix? 8 (clean cs)).map Double.ofInt
  | '0' :: 'b' :: cs => (wordInRadix? 2 (clean cs)).map Double.ofInt
  | cs => Double.ofText? (String.ofList (clean cs))

/-- The number literal for a numeral, or a string literal for any other text. -/
def numeral (loc : Loc) (text : String) : Expr :=
  let value := match text.toList.map Char.toLower with
    | '-' :: cs => (numeralValue? cs).map Double.neg
    | cs => numeralValue? cs
  match value with
  | some x => Synthetic.num loc x
  | none => Synthetic.str loc text

end Reify
