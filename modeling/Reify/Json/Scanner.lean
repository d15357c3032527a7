import Reify.Json
import Reify.Number.Decimal

/-!
# Reading JSON text

A reader that goes through the text once, from left to right, and stops at the first fault.
A fault is one of three: the text ends early, it is not JSON, or it is JSON of a shape that
the reader does not expect.  Arrays and objects nest at most `maxDepth` deep.

Values that are only skipped are checked less: their nesting, the range of their numbers and
the pairing of surrogates in their strings do not matter.
-/

namespace Reify

/-- Why a text cannot be read. -/
inductive Fault where
  /-- The text ends early. -/
  | truncated
  /-- The text is not JSON. -/
  | malformed
  /-- The text is JSON of another shape. -/
  | mismatch
deriving DecidableEq, Repr, Inhabited

/-- A reader: takes a value off the front of the text, or stops at a fault. -/
abbrev Scan := StateT (List Char) (Except Fault)

namespace Scan

/-- Stops at a fault. -/
def fail {α : Type} (f : Fault) : Scan α := throw f

/-- The blanks of JSON. -/
def isBlank (c : Char) : Bool := c == ' ' || c == '\n' || c == '\t' || c == '\r'

/-- The next character that is not blank, left in place. -/
def peek? : Scan (Option Char) := do
  modify (·.dropWhile isBlank)
  return (← get).head?

/-- Drops one character. -/
def drop : Scan Unit := modify (·.drop 1)

/-- The next character that is not blank, left in place; a fault at the end of the text. -/
def peek : Scan Char := do
  match ← peek? with
  | some c => return c
  | none => fail .truncated

/-- Reads the given characters, without blanks before them. -/
def word : List Char → Scan Unit
  | [] => return ()
  | c :: cs => do
    match (← get).head? with
    | none => fail .truncated
    | some d => if c = d then drop; word cs else fail .malformed

/-- Takes digits off the front of the text. -/
def digits : Scan (List Char) := do
  let cs ← get
  set (cs.dropWhile Char.isDigit)
  return cs.takeWhile Char.isDigit

/-! ### Numbers -/

/-- The largest number of 64 bits. -/
def maxWord : Nat := Nat.pow 2 64 - 1

/-- Adds digits to a number while it fits 64 bits; also the number of digits left over. -/
def gather (n : Nat) : List Char → Nat × Nat
  | [] => (n, 0)
  | c :: cs =>
    let n' := 10 * n + digitValue c
    if n' ≤ maxWord then gather n' cs else (n, cs.length + 1)

/-- The value of a number with a point or an exponent. -/
def scaled (negative : Bool) (significand : Nat) (exponent : Int) : Scan Json :=
  match Double.scale negative significand exponent with
  | some x => return .float x
  | none => fail .malformed

/-- The exponent of a number, its `e` already read. -/
def exponent (negative : Bool) (significand : Nat) (start : Int) : Scan Json := do
  let below ← match (← get).head? with
    | some '+' => drop; pure false
    | some '-' => drop; pure true
    | _ => pure false
  match (← get).head? with
  | none => fail .truncated
  | some c =>
    if !c.isDigit then fail .malformed
    else
      let n := natOfDigits (← digits)
      if n ≤ Nat.pow 2 31 - 1 then
        scaled negative significand (if below then start - n else start + n)
      else if significand ≠ 0 && !below then fail .malformed
      else return .float (.zero negative)

/-- What follows the digits of a number: an exponent or nothing. -/
def afterDigits (negative : Bool) (significand : Nat) (start : Int) : Scan Json := do
  match (← get).head? with
  | some 'e' | some 'E' => drop; exponent negative significand start
  | _ => scaled negative significand start

/-- The fraction of a number, its point already read. -/
def fraction (negative : Bool) (significand : Nat) (start : Int) : Scan Json := do
  let ds ← digits
  if ds.isEmpty then
    fail (if (← get).isEmpty then .truncated else .malformed)
  let (n, left) := gather significand ds
  afterDigits negative n (start - ((ds.length - left : Nat) : Int))

/-- A number written without point and exponent. -/
def integer (negative : Bool) (n : Nat) : Json :=
  if !negative then .int n
  else if n = 0 || Nat.pow 2 63 < n then .float (Double.ofNat n).neg
  else .int (-(n : Int))

/-- A number, its sign already read. -/
def number (negative : Bool) : Scan Json := do
  let ds ← digits
  match ds with
  | [] => fail (if (← get).isEmpty then .truncated else .malformed)
  | '0' :: _ :: _ => fail .malformed
  | _ =>
    let (n, left) := gather 0 ds
    match (← get).head? with
    | some '.' => drop; fraction negative n left
    | some 'e' | some 'E' => drop; exponent negative n left
    | _ => if left = 0 then return integer negative n else scaled negative n left

/-- A number that is only skipped, its sign already read. -/
def skipNumber : Scan Unit := do
  let ds ← digits
  match ds with
  | [] | '0' :: _ :: _ => fail .malformed
  | _ => pure ()
  if (← get).head? = some '.' then
    drop
    if (← digits).isEmpty then fail .malformed
  match (← get).head? with
  | some 'e' | some 'E' =>
    drop
    match (← get).head? with
    | some '+' | some '-' => drop
    | _ => pure ()
    if (← digits).isEmpty then fail .malformed
  | _ => return ()

/-! ### Strings -/

/-- The value of a hexadecimal digit. -/
def hexValue? (c : Char) : Option Nat :=
  if c.isDigit then some (c.toNat - '0'.toNat)
  else if 'a' ≤ c && c ≤ 'f' then some (c.toNat - 'a'.toNat + 10)
  else if 'A' ≤ c && c ≤ 'F' then some (c.toNat - 'A'.toNat + 10)
  else none

/-- Four hexadecimal digits.  Less than four bytes of text are a text that ends early. -/
def hexEscape : Scan Nat := do
  let cs ← get
  if cs.foldr (fun c n => c.utf8Size + n) 0 < 4 then fail .truncated
  match (cs.take 4).mapM hexValue? with
  | some ds =>
    set (cs.drop 4)
    return ds.foldl (fun n d => 16 * n + d) 0
  | none => fail .malformed

/-- A character escaped as one or two units of UTF-16, its `\u` already read. -/
def unicodeEscape : Scan Char := do
  let n ← hexEscape
  if 0xDC00 ≤ n && n ≤ 0xDFFF then fail .malformed
  if n < 0xD800 || 0xDBFF < n then return Char.ofNat n
  word ['\\', 'u']
  let n₂ ← hexEscape
  if n₂ < 0xDC00 || 0xDFFF < n₂ then fail .malformed
  return Char.ofNat (0x10000 + (n - 0xD800) * 0x400 + (n₂ - 0xDC00))

/-- The character that a backslash and `c` stand for. -/
def escape? (c : Char) : Option Char :=
  match c with
  | '"' => some '"'
  | '\\' => some '\\'
  | '/' => some '/'
  | 'b' => some (Char.ofNat 8)
  | 'f' => some (Char.ofNat 12)
  | 'n' => some '\n'
  | 'r' => some '\r'
  | 't' => some '\t'
  | _ => none

/-- The rest of a string, its opening quote already read.  A string that is only skipped may
hold any units of UTF-16. -/
def stringTail (keep : Bool) : Nat → List Char → Scan String
  | 0, _ => fail .truncated
  | fuel + 1, acc => do
    match (← get).head? with
    | none => fail .truncated
    | some '"' => drop; return String.ofList acc.reverse
    | some '\\' =>
      drop
      match (← get).head? with
      | none => fail .truncated
      | some 'u' =>
        drop
        if keep then
          let c ← unicodeEscape
          stringTail keep fuel (c :: acc)
        else
          let _ ← hexEscape
          stringTail keep fuel acc
      | some c =>
        match escape? c with
        | some d => drop; stringTail keep fuel (d :: acc)
        | none => fail .malformed
    | some c => if c.toNat < 32 then fail .malformed else drop; stringTail keep fuel (c :: acc)

/-- A string, its opening quote already read. -/
def string : Scan String := do stringTail true ((← get).length + 1) []

/-! ### Values -/

/-- How deeply arrays and objects may nest. -/
def maxDepth : Nat := 127

/-- Whether an array goes on: past the comma that must stand before every item but the first. -/
def moreItems (first : Bool) : Scan Bool := do
  let c ← peek
  if c = ']' then return false
  if first then return true
  if c ≠ ',' then fail .malformed
  drop
  if (← peek) = ']' then fail .malformed
  return true

/-- Whether an object goes on: up to the quote of the next key. -/
def moreMembers (first : Bool) : Scan Bool := do
  let c ← peek
  if c = '\x7d' then return false
  if !first then
    if c ≠ ',' then fail .malformed
    drop
  if (← peek) = '"' then return true else fail .malformed

/-- The colon between key and value. -/
def colon : Scan Unit := do
  if (← peek) = ':' then drop else fail .malformed

/-- The next key of an object, after `moreMembers`. -/
def key : Scan String := do
  drop
  string

/-- A value that is not an array or an object. -/
def scalar (c : Char) : Scan Json := do
  match c with
  | 'n' => word "null".toList; return .null
  | 't' => word "true".toList; return .bool true
  | 'f' => word "false".toList; return .bool false
  | '"' => drop; return .str (← string)
  | '-' => drop; number true
  | _ => if c.isDigit then number false else fail .malformed

mutual

/-- A value, with `depth` levels of nesting left. -/
def value : Nat → Nat → Scan Json
  | 0, _ => fail .malformed
  | fuel + 1, depth => do
    let c ← peek
    if c = '[' then
      match depth with
      | 0 => fail .malformed
      | depth + 1 => do
        drop
        let xs ← items fuel depth true
        drop
        return .arr xs
    else if c = '\x7b' then
      match depth with
      | 0 => fail .malformed
      | depth + 1 => do
        drop
        let ms ← members fuel depth true
        drop
        return .obj ms
    else scalar c

/-- The items of an array, up to its closing bracket. -/
def items : Nat → Nat → Bool → Scan (List Json)
  | 0, _, _ => fail .malformed
  | fuel + 1, depth, first => do
    if ← moreItems first then
      let x ← value fuel depth
      let xs ← items fuel depth false
      return x :: xs
    else return []

/-- The members of an object, up to its closing brace. -/
def members : Nat → Nat → Bool → Scan (List (String × Json))
  | 0, _, _ => fail .malformed
  | fuel + 1, depth, first => do
    if ← moreMembers first then
      let k ← key
      colon
      let x ← value fuel depth
      let xs ← members fuel depth false
      return (k, x) :: xs
    else return []

end

/-- Enough fuel for any value in the rest of the text: every step takes a character. -/
def fuel : Scan Nat := return 2 * (← get).length + 2

/-- A value that is only skipped, with any nesting. -/
def skip : Nat → Scan Unit
  | 0 => fail .malformed
  | n + 1 => do
    let c ← peek
    match c with
    | '[' => drop; skipItems n true
    | '\x7b' => drop; skipMembers n true
    | '"' => drop; let _ ← stringTail false ((← get).length + 1) []
    | '-' => drop; skipNumber
    | _ => if c.isDigit then skipNumber else let _ ← scalar c
where
  /-- The rest of an array that is only skipped. -/
  skipItems : Nat → Bool → Scan Unit
    | 0, _ => fail .malformed
    | n + 1, first => do
      if ← moreItems first then
        skip n
        skipItems n false
      else drop
  /-- The rest of an object that is only skipped. -/
  skipMembers : Nat → Bool → Scan Unit
    | 0, _ => fail .malformed
    | n + 1, first => do
      if ← moreMembers first then
        drop
        let _ ← stringTail false ((← get).length + 1) []
        colon
        skip n
        skipMembers n false
      else drop

/-- A value that must not be an array or an object. -/
def datum : Scan Json := do
  let c ← peek
  if c = '[' || c = '\x7b' then fail .mismatch else scalar c

/-- The closing bracket of an array. -/
def close : Scan Unit := do
  if (← peek) = ']' then drop else fail .malformed

/-- The fields of a record in an array, in order, as far as they go. -/
def recordItems {σ : Type} (field : String → σ → Scan σ) : List String → Bool → σ → Scan σ
  | [], _, s => do
    close
    return s
  | name :: names, first, s => do
    if ← moreItems first then
      let s ← field name s
      recordItems field names false s
    else
      drop
      return s

/-- The fields of a record in an object; a known field must not repeat, others are skipped. -/
def recordMembers {σ : Type} (field : String → σ → Scan σ) (names : List String) :
    Nat → List String → Bool → σ → Scan σ
  | 0, _, _, _ => fail .malformed
  | n + 1, seen, first, s => do
    if ← moreMembers first then
      let k ← key
      if names.contains k then
        if seen.contains k then fail .mismatch
        colon
        let s ← field k s
        recordMembers field names n (k :: seen) false s
      else
        colon
        skip (← fuel)
        recordMembers field names n seen false s
    else
      drop
      return s

/-- A record, read field by field from an object or from an array. -/
def record {σ : Type} (names : List String) (field : String → σ → Scan σ) (s : σ) : Scan σ := do
  let c ← peek
  if c = '[' then
    drop
    recordItems field names true s
  else if c = '\x7b' then
    drop
    recordMembers field names (← fuel) [] true s
  else
    let _ ← scalar c
    fail .mismatch

/-- The end of the text. -/
def finish : Scan Unit := do
  if (← peek?).isSome then fail .malformed

/-- Runs a reader over a whole text. -/
def run {α : Type} (s : Scan α) (text : String) : Except Fault α :=
  Prod.fst <$> StateT.run (do let x ← s; finish; return x) text.toList

end Scan

/-- The value written by a text. -/
def Json.parse (text : String) : Except Fault Json :=
  Scan.run (do Scan.value (← Scan.fuel) Scan.maxDepth) text

end Reify
