import Reify.Syntax.Schema
import Reify.Syntax.Tree

/-!
# Trees as JSON

The JSON of a tree leaves its marks out.  Fields stand in the order of the schema, a tag first,
and an absent part is `null`.
-/

namespace Reify

/-- Fills the fields of a form with the values of its subtrees. -/
def Slot.fill : List Slot → List Json → List Json
  | [], _ => []
  | .datum v :: slots, subtrees => v :: fill slots subtrees
  | .tree :: slots, v :: subtrees => v :: fill slots subtrees
  | .tree :: slots, [] => .null :: fill slots []

/-- What an alternative holds, given the values of its fields. -/
def Body.content (body : Body) (values : List Json) : Option Json :=
  match body with
  | .fields names => some (.obj (names.zip values))
  | .bare => values.head?
  | .empty => none

/-- The members of an object. -/
def Json.members : Json → List (String × Json)
  | .obj members => members
  | _ => []

/-- A tag and the content that belongs to it. -/
def Style.assemble (style : Style) (tag : String) (content : Option Json) : Json :=
  match style with
  | .plain => content.getD .null
  | .inline => .obj ((tagKey, .str tag) :: (content.getD .null).members)
  | .wrapped => .obj ((tagKey, .str tag) :: (content.map (contentKey, ·)).toList)
  | .nested field => .obj [(field, .obj ((tagKey, .str tag) :: (content.getD .null).members))]

/-- Results of one type, as a list. -/
def Results.values {α : Type} : {cs : List Category} → Results (fun _ => α) cs → List α
  | [], () => []
  | _ :: _, (x, xs) => x :: values xs

/-- What the alternative of a tag holds. -/
def Category.body (c : Category) (tag : String) : Body :=
  match c.variants.find? (·.tag == tag) with
  | some v => v.body
  | none => .empty

/-- The JSON of a form, from the JSON of its subtrees. -/
def Form.toJson : {c : Category} → (f : Form c) → Results (fun _ => Json) f.arity → Json
  | .many _, _, rs => .arr rs.values
  | .maybe _, false, () => .null
  | .maybe _, true, (v, ()) => v
  | c, f, rs => c.style.assemble f.tag ((c.body f.tag).content (Slot.fill f.slots rs.values))

namespace Tree

variable {c : Category}

/-- The JSON of a tree. -/
def toJson : Tree c → Json := fold (X := fun _ => Json) fun f _ _ rs => f.toJson rs

/-- Whether two trees are built alike, whatever their marks. -/
def same (t u : Tree c) : Bool := t.toJson.same u.toJson

end Tree

end Reify
