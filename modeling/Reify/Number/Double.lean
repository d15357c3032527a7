/-!
# Binary64 numbers

The values of the IEEE 754 binary64 format, with rounding done exactly on natural numbers:
`Double.ofRatio` is the value nearest to a quotient, and all arithmetic here is a quotient
computed exactly and rounded once.
-/

namespace Reify

/-- A binary64 value.  `finite s m e` stands for `± m · 2 ^ e`; the functions of this module
build it with `m < 2 ^ 53`, `-1074 ≤ e` and, unless `e = -1074`, `2 ^ 52 ≤ m`. -/
inductive Double where
  | finite (negative : Bool) (mantissa : Nat) (exponent : Int)
  | infinite (negative : Bool)
  | nan
deriving DecidableEq, Repr, Inhabited

namespace Double

/-- The least exponent: subnormal values and zero carry it. -/
def minExponent : Int := -1074

/-- The largest exponent of a finite value. -/
def maxExponent : Int := 971

/-- Zero of the given sign. -/
def zero (negative : Bool) : Double := .finite negative 0 minExponent

/-- The natural number nearest to `num / den`, the even one of two. -/
def roundHalfEven (num den : Nat) : Nat :=
  let q := num / den
  let r := num % den
  if 2 * r < den then q else if den < 2 * r then q + 1 else q + q % 2

/-- `num / den` scaled by `2 ^ (-e)`, as a quotient. -/
def scaleByTwo (num den : Nat) (e : Int) : Nat × Nat :=
  if 0 ≤ e then (num, den * Nat.pow 2 e.toNat) else (num * Nat.pow 2 (-e).toNat, den)

/-- The largest `k` with `2 ^ k ≤ num / den`, for a positive quotient. -/
def floorLog2 (num den : Nat) : Int :=
  let k : Int := (Nat.log2 num : Int) - Nat.log2 den
  let (n, d) := scaleByTwo num den k
  if d ≤ n then k else k - 1

/-- The value nearest to `± num / den`, the one with an even mantissa of two. -/
def ofRatio (negative : Bool) (num den : Nat) : Double :=
  if num = 0 then zero negative
  else
    let e := max (floorLog2 num den - 52) minExponent
    let (n, d) := scaleByTwo num den e
    let m := roundHalfEven n d
    let (m, e) := if m = Nat.pow 2 53 then (Nat.pow 2 52, e + 1) else (m, e)
    if maxExponent < e then .infinite negative else .finite negative m e

/-- The value nearest to a natural number. -/
def ofNat (n : Nat) : Double := ofRatio false n 1

/-- The value nearest to an integer. -/
def ofInt (n : Int) : Double := ofRatio (n < 0) n.natAbs 1

/-- The value of the other sign. -/
def neg : Double → Double
  | .finite s m e => .finite (!s) m e
  | .infinite s => .infinite (!s)
  | .nan => .nan

/-- Whether the value is zero, of either sign. -/
def isZero : Double → Bool
  | .finite _ m _ => m == 0
  | _ => false

/-- Whether the value is infinite. -/
def isInfinite : Double → Bool
  | .infinite _ => true
  | _ => false

/-- The sign; `nan` has none. -/
def isNegative : Double → Bool
  | .finite s _ _ | .infinite s => s
  | .nan => false

/-- `m · 2 ^ e` as a quotient. -/
def ratio (m : Nat) (e : Int) : Nat × Nat :=
  if 0 ≤ e then (m * Nat.pow 2 e.toNat, 1) else (m, Nat.pow 2 (-e).toNat)

/-- The product, rounded once. -/
def mul : Double → Double → Double
  | .finite s m e, .finite s' m' e' =>
    let (n, d) := ratio m e
    let (n', d') := ratio m' e'
    ofRatio (s != s') (n * n') (d * d')
  | .nan, _ | _, .nan => .nan
  | x, y =>
    let negative := x.isNegative != y.isNegative
    if x.isZero || y.isZero then .nan else .infinite negative

/-- The quotient by a value that is not zero, rounded once. -/
def div : Double → Double → Double
  | .finite s m e, .finite s' m' e' =>
    let (n, d) := ratio m e
    let (n', d') := ratio m' e'
    if n' = 0 then .nan else ofRatio (s != s') (n * d') (d * n')
  | .finite s _ _, .infinite s' => zero (s != s')
  | .infinite s, .finite s' _ _ => .infinite (s != s')
  | _, _ => .nan

/-- Equality of values: the two zeros are equal, and nothing equals `nan`. -/
def same : Double → Double → Bool
  | .finite s m e, .finite s' m' e' =>
    (m == 0 && m' == 0) || (s == s' && m == m' && e == e')
  | .infinite s, .infinite s' => s == s'
  | _, _ => false

/-- The integer that a value is, if it is one. -/
def toInt? : Double → Option Int
  | .finite s m e =>
    let (n, d) := ratio m e
    if n % d = 0 then some (if s then -((n / d : Nat) : Int) else (n / d : Nat)) else none
  | _ => none

end Double

end Reify
