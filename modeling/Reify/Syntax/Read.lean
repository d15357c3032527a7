import Reify.Syntax.Decode

/-!
# Trees from JSON text

Statements, expressions and types are read as a whole before their parts are looked at, except
that a tag is checked where it stands.  A unit is read statement by statement.  So of two
faults in a text the one that this order meets first is reported.
-/

namespace Reify

namespace Scan

/-- The tag of an alternative. -/
def tag (variants : List Variant) : Scan String := do
  match ← datum with
  | .str s => if variants.any (·.tag == s) then return s else fail .mismatch
  | _ => fail .mismatch

/-- The rest of an object that holds an alternative: its tag, once read, and the other members. -/
def taggedMembers (variants : List Variant) (depth : Nat) :
    Nat → Bool → Option String → List (String × Json) → Scan Json
  | 0, _, _, _ => fail .malformed
  | n + 1, first, seen, others => do
    if ← moreMembers first then
      let k ← key
      if k == tagKey then
        if seen.isSome then fail .mismatch
        colon
        taggedMembers variants depth n false (some (← tag variants)) others
      else
        colon
        let v ← value (← fuel) depth
        taggedMembers variants depth n false seen ((k, v) :: others)
    else
      drop
      match seen with
      | some s => return .obj ((tagKey, .str s) :: others.reverse)
      | none => fail .mismatch

/-- A value with a tag, with `depth` levels of nesting left. -/
def tagged (variants : List Variant) (depth : Nat) : Scan Json := do
  let c ← peek
  match depth with
  | 0 =>
    if c = '[' || c = '\x7b' then fail .malformed
    let _ ← scalar c
    fail .mismatch
  | depth + 1 =>
    if c = '[' then
      drop
      if !(← moreItems true) then fail .mismatch
      let s ← tag variants
      let rest ← items (← fuel) depth false
      drop
      return .arr (.str s :: rest)
    else if c = '\x7b' then
      drop
      taggedMembers variants depth (← fuel) true none []
    else
      let _ ← scalar c
      fail .mismatch

/-- A tree of a category whose alternatives have inline tags. -/
def tree (c : Category) (depth : Nat) : Scan (Tree c) := do
  match Tree.ofJson? .plain c (← tagged c.variants depth) with
  | some t => return t
  | none => fail .mismatch

/-- The statements of a list, one after the other. -/
def stmts (depth : Nat) : Nat → Bool → Scan (List (Tree .stmt))
  | 0, _ => fail .malformed
  | n + 1, first => do
    if ← moreItems first then
      let t ← tree .stmt depth
      return t :: (← stmts depth n false)
    else
      drop
      return []

/-- A list of statements. -/
def stmtList (depth : Nat) : Scan (List (Tree .stmt)) := do
  let c ← peek
  if c = '[' then
    match depth with
    | 0 => fail .malformed
    | depth + 1 =>
      drop
      stmts depth (← fuel) true
  else
    let _ ← datum
    fail .mismatch

/-- A unit. -/
def unit : Scan (Tree .unit) := do
  let body ← record ["body"] (fun _ _ => some <$> stmtList (maxDepth - 1)) none
  match body with
  | some ts => return .node (c := .unit) () (.one {}) (.cons (Tree.ofList ts) .nil)
  | none => fail .mismatch

end Scan

namespace Tree

/-- A type, an expression or a statement from its JSON text. -/
def parse (c : Category) (text : String) : Except Fault (Tree c) :=
  Scan.run (Scan.tree c Scan.maxDepth) text

/-- A unit from its JSON text. -/
def parseUnit (text : String) : Except Fault (Tree .unit) := Scan.run Scan.unit text

end Tree

end Reify
