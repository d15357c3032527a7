import Reify.Syntax.Numbering
import Reify.Syntax.Render
import Reify.Syntax.Synthetic

/-!
# Overloads

A list of members may hold several signatures of one method.  `mergeOverloads` puts one method
in the place of the first of them: at each position it takes the union of the types that the
signatures have there, told apart by their text.

`classEntries` gives the members of a class as members of an object type: constructors are left
out, overload signatures hide the method that implements them, and a getter and a setter of one
name count once.
-/

namespace Reify

/-- The name under which members of object types belong together. -/
def TypeKey.group : TypeKey → String
  | TypeKey.ident name => name
  | TypeKey.str value => value
  | TypeKey.num text => text
  | TypeKey.computed key => "[" ++ Expr.text key ++ "]"

/-- A member of a class or of an object type. -/
structure MemberEntry where
  static : Bool
  member : TypeMember

namespace MemberEntry

/-- The overloads that a method belongs to. -/
def group? (e : MemberEntry) : Option (Bool × String) :=
  match e.member with
  | TypeMember.method _ _ key _ _ _ => some (e.static, TypeKey.group key)
  | _ => none

/-- A member that is not static. -/
def ofMember (member : TypeMember) : MemberEntry := ⟨false, member⟩

end MemberEntry

/-! ### Distinct types -/

/-- The text of a type, where none is as good as `any`. -/
def textOrAny (t : Option TypeExpr) : String := (t.map TypeExpr.text).getD "any"

/-- The types whose texts have not been seen before. -/
def distinctTypes : List String → List (Option TypeExpr) → List (Option TypeExpr)
  | _, [] => []
  | seen, t :: ts =>
    if seen.contains (textOrAny t) then distinctTypes seen ts
    else t :: distinctTypes (textOrAny t :: seen) ts

/-- The union of the distinct types of a list, or the one type that they all are. -/
def unionOf (loc : Loc) (types : List (Option TypeExpr)) : Option TypeExpr :=
  match distinctTypes [] types with
  | [] => none
  | [t] => t
  | ts => some (.union (.synthetic loc) (.ofList (ts.map (·.getD (Synthetic.any loc)))))

/-! ### Merging -/

/-- A method signature. -/
structure MethodSig where
  params : List SigParam
  result : Option TypeExpr

/-- The method signature of a member, if it is one. -/
def MemberEntry.sig? (e : MemberEntry) : Option MethodSig :=
  match e.member with
  | TypeMember.method _ _ _ _ params result => some ⟨params.toList, result.toOption⟩
  | _ => none

/-- The type of a parameter. -/
def SigParam.type? : SigParam → Option TypeExpr
  | SigParam.mk _ _ type => type.toOption

/-- The first parameter with another type. -/
def SigParam.withUnion (types : List (Option TypeExpr)) : SigParam → SigParam
  | SigParam.mk mark form _ => .mk mark form (unionOf mark.loc types)

/-- The parameters of merged signatures: at each position the first parameter that stands there,
with the union of the types. -/
def mergeParams (sigs : List MethodSig) : List SigParam :=
  (List.range ((sigs.map (·.params.length)).foldl max 0)).filterMap fun i =>
    let params := sigs.filterMap (·.params[i]?)
    params.head?.map (SigParam.withUnion (params.map SigParam.type?))

/-- One member for the signatures of a method. -/
def mergeGroup (first : MemberEntry) (group : List MemberEntry) : MemberEntry :=
  match first.member, group with
  | TypeMember.method site optional key typeParams _ _, _ :: _ :: _ =>
    let sigs := group.filterMap MemberEntry.sig?
    { first with
      member := .method (.synthetic site.loc) optional key typeParams (mergeParams sigs)
        (unionOf site.loc (sigs.map MethodSig.result)) }
  | _, _ => first

/-- The entries that are not methods, and the first of each group of methods. -/
def firstEntries : List (Bool × String) → List MemberEntry → List MemberEntry
  | _, [] => []
  | seen, e :: es =>
    match e.group? with
    | none => e :: firstEntries seen es
    | some g => if seen.contains g then firstEntries seen es else e :: firstEntries (g :: seen) es

/-- One member in the place of all signatures of a method. -/
def mergeOverloads (entries : List MemberEntry) : List MemberEntry :=
  (firstEntries [] entries).map fun e =>
    match e.group? with
    | none => e
    | some g => mergeGroup e (entries.filter (·.group? == some g))

/-! ### Classes -/

/-- The key of a class member as a key of an object type. -/
def MemberKey.toTypeKey : MemberKey → TypeKey
  | MemberKey.direct _ name => .ident name
  | MemberKey.computed key => .computed key

namespace ClassMember

/-- The name under which members of a class belong together. -/
def group : ClassMember → Bool × String
  | ClassMember.mk _ form _ key _ _ => (form.static, TypeKey.group (MemberKey.toTypeKey key))

/-- Whether a member is a method without a body. -/
def isOverload : ClassMember → Bool
  | ClassMember.mk _ _ _ _ _ (MemberVal.function _ .method (Func.mk _ _ _ _ _ body)) =>
    body.toOption.isNone
  | _ => false

/-- Whether a member is a method with a body. -/
def isImplementation : ClassMember → Bool
  | ClassMember.mk _ _ _ _ _ (MemberVal.function _ .method (Func.mk _ _ _ _ _ body)) =>
    body.toOption.isSome
  | _ => false

/-- Whether a member is a getter or a setter. -/
def isAccessor : ClassMember → Bool
  | ClassMember.mk _ _ _ _ _ (MemberVal.function _ .getter _) => true
  | ClassMember.mk _ _ _ _ _ (MemberVal.function _ .setter _) => true
  | _ => false

end ClassMember

/-- The declared type of a parameter. -/
def Param.type? : Param → Option TypeExpr
  | Param.mk _ _ _ _ type _ => type.toOption

/-- A parameter as a parameter of a signature. -/
def Param.toSigParam (p : Param) (index : Nat) : SigParam :=
  match p with
  | Param.mk mark form _ _ type _ =>
    .mk (.synthetic mark.loc) ⟨p.reflectedName index, form.optional, form.rest⟩ type

/-- The parameters of a function's signature; the receiver is none. -/
def Func.sigParams : Func → List SigParam
  | Func.mk _ _ _ params _ _ =>
    (params.toList.zipIdx.filter fun (p, _) => !Param.isReceiver p).map fun (p, i) =>
      Param.toSigParam p i

/-- A class member as a member of an object type, as it stands. -/
def ClassMember.toTypeMember : ClassMember → TypeMember
  | ClassMember.mk mark form _ key type val =>
    let site := Site.synthetic mark.loc
    let typeKey := MemberKey.toTypeKey key
    let property (t : Option TypeExpr) : TypeMember :=
      .property site form.readonly form.optional typeKey t
    match val with
    | MemberVal.property _ => property type.toOption
    | MemberVal.function _ .getter (Func.mk _ _ _ _ result _) => property result.toOption
    | MemberVal.function _ .setter (Func.mk _ _ _ params _ _) =>
      property ((params.toList.find? fun p => !Param.isReceiver p).bind Param.type?)
    | MemberVal.function _ .method func@(Func.mk _ _ typeParams _ result _) =>
      .method site form.optional typeKey typeParams (Func.sigParams func) result
    | MemberVal.index _ name key value => .index site form.readonly name key value

/-- The structural members of a class. -/
def classEntries (members : List ClassMember) : List MemberEntry :=
  go [] members
where
  /-- The groups that have overload signatures. -/
  overloaded : List (Bool × String) :=
    (members.filter ClassMember.isOverload).map ClassMember.group
  /-- The entries of the rest of the members, given the accessors seen before. -/
  go : List (Bool × String) → List ClassMember → List MemberEntry
    | _, [] => []
    | seen, m :: ms =>
      let g := ClassMember.group m
      let entry : MemberEntry := ⟨g.1, (ClassMember.toTypeMember m).detach⟩
      if ClassMember.isConstructor m then go seen ms
      else if ClassMember.isAccessor m then
        if seen.contains g then go seen ms else entry :: go (g :: seen) ms
      else if ClassMember.isImplementation m && overloaded.contains g then go seen ms
      else entry :: go seen ms

end Reify
