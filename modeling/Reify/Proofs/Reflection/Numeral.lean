import Mathlib.Data.Nat.Log
import Mathlib.Tactic.IntervalCases
import Reify.Reflection.Reflect

/-!
# Literals in a radix

The text of a number literal may be written with a radix mark, in either case and with underscores
between its digits.  `Radix.Digits` says which number such digits denote.  The reflection reads them
as a signed word and turns this into a double.

* `Double.ofInt_of_lt`: integers below `2 ^ 53` are doubles.
* `numeral_radix`: a numeral that fits the word is a number, any other stays a text.
-/

namespace Reify

open List

/-! ### Small integers are exact -/

namespace Double

theorem floorLog2_one {n : Nat} (h : n ≠ 0) : floorLog2 n 1 = n.log2 := by
  have le : 2 ^ n.log2 ≤ n := Nat.log2_self_le h
  have one : Nat.log2 1 = 0 := by decide
  simp [floorLog2, scaleByTwo, one, le]

theorem scaleByTwo_neg (n j : Nat) : scaleByTwo n 1 (-j) = (n * 2 ^ j, 1) := by
  cases j with
  | zero => simp [scaleByTwo]
  | succ j => rw [scaleByTwo, if_neg (by omega)]; simp

theorem ratio_neg (m j : Nat) : ratio m (-j) = (m, 2 ^ j) := by
  cases j with
  | zero => simp [ratio]
  | succ j => rw [ratio, if_neg (by omega)]; simp

/-- Integers below `2 ^ 53` are values. -/
theorem ofInt_of_lt {n : Nat} (h : n < 2 ^ 53) :
    ∃ j : Nat, ofInt n = .finite false (n * 2 ^ j) (-j) := by
  by_cases zero : n = 0
  · subst zero
    refine ⟨1074, ?_⟩
    rw [Nat.zero_mul]
    rfl
  · have log : n.log2 < 53 := (Nat.log2_lt zero).2 h
    obtain ⟨j, hj⟩ : ∃ j, n.log2 + j = 52 := ⟨52 - n.log2, by omega⟩
    have small : n * 2 ^ j < 2 ^ 53 := by
      calc n * 2 ^ j < 2 ^ (n.log2 + 1) * 2 ^ j := by
            gcongr
            exact Nat.lt_log2_self
        _ = 2 ^ 53 := by rw [← pow_add, Nat.add_right_comm, hj]
    have exponent : max (floorLog2 n 1 - 52) minExponent = -j := by
      rw [floorLog2_one zero, minExponent]
      omega
    refine ⟨j, ?_⟩
    rw [ofInt, ofRatio, Int.natAbs_natCast, if_neg zero]
    have rounded : roundHalfEven (n * 2 ^ j) 1 = n * 2 ^ j := by simp [roundHalfEven, Nat.mod_one]
    have finite : ¬maxExponent < -(j : Int) := by
      rw [maxExponent]
      omega
    simp only [exponent, scaleByTwo_neg, rounded, Nat.pow_eq, if_neg small.ne, if_neg finite]
    congr

theorem toInt?_finite (negative : Bool) (n j : Nat) :
    (finite negative (n * 2 ^ j) (-j)).toInt? = some (if negative then -(n : Int) else n) := by
  simp [toInt?, ratio_neg]

end Double

/-! ### Numerals -/

/-- The radices that have a mark. -/
inductive Radix where
  | hexadecimal
  | octal
  | binary

namespace Radix

def base : Radix → Nat
  | hexadecimal => 16
  | octal => 8
  | binary => 2

def mark : Radix → Char
  | hexadecimal => 'x'
  | octal => 'o'
  | binary => 'b'

/-- A digit, in either case. -/
def Digit (r : Radix) (c : Char) (d : Nat) : Prop := d < r.base ∧ c.toLower = d.digitChar

/-- **Digits and the number they denote**, with single underscores between them. -/
inductive Digits (r : Radix) : List Char → Nat → Prop where
  | one {c d} (h : r.Digit c d) : Digits r [c] d
  | next {cs n gap c d} (init : Digits r cs n) (hg : gap = [] ∨ gap = ['_']) (h : r.Digit c d) :
      Digits r (cs ++ gap ++ [c]) (r.base * n + d)

theorem Digit.value {r : Radix} {c d} (h : r.Digit c d) :
    radixDigit? r.base c.toLower = some d ∧ c.toLower ∉ ['_', '-', '+'] := by
  obtain ⟨lt, same⟩ := h
  rw [same]
  have : d < 16 := lt.trans_le (by cases r <;> decide)
  cases r <;> simp only [base] at lt ⊢ <;> interval_cases d <;> decide

/-- Digits in lower case, without what stands between them. -/
def plain (cs : List Char) : List Char := (cs.map Char.toLower).filter (· ≠ '_')

theorem Digit.plain_append {r : Radix} {c d} (h : r.Digit c d) {gap} (hg : gap = [] ∨ gap = ['_'])
    (cs : List Char) : plain (cs ++ gap ++ [c]) = plain cs ++ [c.toLower] := by
  have kept : c.toLower ≠ '_' := fun same => h.value.2 (by simp [same])
  have blank : '_'.toLower = '_' := by decide
  rcases hg with rfl | rfl <;> simp [plain, kept, blank]

/-- Digits start with no sign, and are read one by one. -/
theorem Digits.read {r : Radix} {cs n} (h : r.Digits cs n) :
    ∃ c rest ds, plain cs = c :: rest ∧ c ∉ ['_', '-', '+'] ∧
      (plain cs).mapM (radixDigit? r.base) = some ds ∧
      ds.foldl (fun n d => r.base * n + d) 0 = n := by
  induction h with
  | @one c d h =>
    have only : plain [c] = [c.toLower] := h.plain_append (.inl rfl) []
    rw [only]
    exact ⟨c.toLower, [], [d], rfl, h.value.2, by simp [h.value.1], by simp⟩
  | @next cs n gap c d _ hg h ih =>
    obtain ⟨first, rest, ds, starts, sign, digits, rfl⟩ := ih
    rw [h.plain_append hg]
    refine ⟨first, rest ++ [c.toLower], ds ++ [d], by rw [starts]; rfl, sign, ?_, by simp⟩
    simp [mapM_append, digits, h.value.1]

theorem Digits.word {r : Radix} {cs n} (h : r.Digits cs n) :
    wordInRadix? r.base (plain cs) = if n < 2 ^ 63 then some (n : Int) else none := by
  obtain ⟨c, rest, ds, starts, sign, digits, rfl⟩ := h.read
  have nat : natInRadix? r.base (plain cs) = some (ds.foldl (fun n d => r.base * n + d) 0) := by
    rw [starts] at digits ⊢
    rw [natInRadix?, digits]
    · rfl
    · nofun
  rw [wordInRadix?, nat]
  · change Option.filter _ (some (_ : Int)) = _
    rw [Option.filter_some]
    split <;> split <;> simp_all [Int.pow]
    all_goals omega
  all_goals
    intro _ same
    rw [starts] at same
    cases same
    simp at sign

end Radix

/-- A numeral with a radix mark. -/
def radixText (negative : Bool) (mark : Char) (digits : List Char) : String :=
  .ofList ((if negative then ['-'] else []) ++ '0' :: mark :: digits)

theorem numeralValue?_radix {r : Radix} {cs n} (h : r.Digits cs n) :
    numeralValue? ('0' :: r.mark :: cs.map Char.toLower) =
      if n < 2 ^ 63 then some (Double.ofInt n) else none := by
  have word := congrArg (Option.map Double.ofInt) h.word
  cases r <;> refine word.trans ?_ <;> split <;> rfl

theorem numeral_radix (loc : Loc) {r : Radix} {mark cs n} (hm : mark.toLower = r.mark)
    (h : r.Digits cs n) (negative : Bool) :
    numeral loc (radixText negative mark cs) =
      if n < 2 ^ 63 then
        Synthetic.num loc (if negative then (Double.ofInt n).neg else Double.ofInt n)
      else Synthetic.str loc (radixText negative mark cs) := by
  have chars : (radixText negative mark cs).toList.map Char.toLower =
      (if negative then ['-'] else []) ++ '0' :: r.mark :: cs.map Char.toLower := by
    have zero : '0'.toLower = '0' := by decide
    have sign : '-'.toLower = '-' := by decide
    cases negative <;> simp [radixText, zero, sign, hm]
  have value := numeralValue?_radix h
  unfold numeral
  rw [chars]
  by_cases small : n < 2 ^ 63
  · rw [if_pos small] at value ⊢
    cases negative <;> simp [value]
  · rw [if_neg small] at value ⊢
    cases negative <;> simp [value]

/-- **A literal type in a radix reflects as a number if it fits a signed word**, and as its text
otherwise; below `2 ^ 53` the number is the one denoted. -/
theorem Scope.reflect_radix_literal (s : Scope) (site : Site) {r : Radix} {mark cs n}
    (hm : mark.toLower = r.mark) (h : r.Digits cs n) (negative : Bool) :
    (s.reflect (TypeExpr.literal site (.num (radixText negative mark cs))) =
      .ok (s.primitive site.loc "number"
        [if n < 2 ^ 63 then
          Synthetic.num site.loc (if negative then (Double.ofInt n).neg else Double.ofInt n)
        else Synthetic.str site.loc (radixText negative mark cs)])) ∧
    (n < 2 ^ 53 →
      (if negative then (Double.ofInt n).neg else Double.ofInt n).toInt? =
        some (if negative then -(n : Int) else n)) := by
  constructor
  · rw [← numeral_radix site.loc hm h negative]
    rfl
  · intro small
    obtain ⟨j, same⟩ := Double.ofInt_of_lt small
    rw [same]
    cases negative
    · exact Double.toInt?_finite false n j
    · exact Double.toInt?_finite true n j

theorem Scope.reflect_radix_literal_negative :
    (({} : Scope).reflect (TypeExpr.literal {} (.num "-0XfF")) =
      .ok (({} : Scope).primitive {} "number" [Synthetic.num {} (Double.ofInt 255).neg])) ∧
    (Double.ofInt 255).neg.toInt? = some (-255) := by
  have digit : Radix.hexadecimal.Digit 'f' 15 := ⟨by decide, by decide⟩
  have upper : Radix.hexadecimal.Digit 'F' 15 := ⟨by decide, by decide⟩
  have digits : Radix.hexadecimal.Digits ['f', 'F'] 255 := .next (.one digit) (.inl rfl) upper
  obtain ⟨reflected, exact⟩ :=
    Scope.reflect_radix_literal {} {} (show 'X'.toLower = Radix.hexadecimal.mark by decide) digits
      true
  exact ⟨reflected, exact (by decide)⟩

/-- A literal too wide for a signed word reflects as a string. -/
theorem wide_literal_quoted :
    ({} : Scope).reflect (TypeExpr.literal {} (.num "0x8000000000000000")) =
      .ok (({} : Scope).primitive {} "number" [Synthetic.str {} "0x8000000000000000"]) := by
  rfl

end Reify
