import Reify.Proofs.Reflection.Support
import Reify.Proofs.Syntax.Depth

/-!
# Spellings of types

The text of a type is legible if its names and numerals are written as such, its keys are not
computed, and its unions and intersections have several members (`Tree.Legible`).  What such a text
shows outside brackets tells what kind of type it is (`Tree.shown`).
-/

namespace Reify

open List Reading Tree

/-! ### Texts of phrases -/

/-- The texts of the trees of a list. -/
theorem Tree.render_many {c} (ts : Many c) : ts.render = ts.toList.map Tree.render := by
  rw [← ofList_toList ts, toList_ofList]
  exact Results.toList_fold_ofList _ _

theorem Tree.render_maybe {c} (t : Maybe c) : t.render = t.toOption.map Tree.render := by
  match t with
  | .absent => rfl
  | .present _ => rfl

namespace TypeExpr

/-- The text of a type where another type operator follows or precedes. -/
def operandText (t : TypeExpr) : String := Text.parensIf t.form.isLoose (TypeExpr.text t)

/-- The text of type parameters, nothing if there are none. -/
def typeParamsText (tps : Maybe (.many .typeParam)) : String :=
  if tps.toLists.isEmpty then "" else "<" ++ Text.commas (tps.toLists.map Tree.render) ++ ">"

/-- The text of parameters. -/
def paramsText (ps : Many .sigParam) : String :=
  Text.parens (Text.commas (ps.toList.map Tree.render))

/-- The text of an optional type after a lead. -/
def leadText (before : String) (t : Maybe .type) : String :=
  Text.lead before (t.toOption.map TypeExpr.text)

/-- The text of type arguments, if there are any. -/
def argsText (args : Maybe (.many .type)) : String :=
  Text.typeArgs (args.toOption.map fun ts => ts.toList.map TypeExpr.text)

section

variable {site : Site} {t : TypeExpr}

theorem operand_render (t : TypeExpr) : t.render.operand = operandText t := by
  match t with
  | .node (c := .type) _ _ _ => rfl

theorem typeParams_render (tps : Maybe (.many .typeParam)) :
    Text.typeParams tps.render = typeParamsText tps := by
  match tps with
  | .absent => rfl
  | .present ts =>
    change Text.typeParams (some ts.render) = if ts.toList.isEmpty then "" else
      "<" ++ Text.commas (ts.toList.map Tree.render) ++ ">"
    rw [render_many]
    cases ts.toList with
    | nil => rfl
    | cons _ _ => rfl

theorem params_render (ps : Many .sigParam) :
    Text.parens (Text.commas ps.render) = paramsText ps := by
  rw [paramsText, ← render_many]

theorem lead_render (before : String) (t : Maybe .type) :
    Text.lead before (t.render.map TypeText.text) = leadText before t := by
  rw [render_maybe, Option.map_map]
  rfl

theorem text_array (readonly : Bool) :
    TypeExpr.text (.array site readonly t) =
      Text.flag readonly "readonly" ++ operandText t ++ "[]" := by
  rw [← operand_render]
  rfl

theorem text_reference (name : EntityName) (args : Maybe (.many .type)) :
    TypeExpr.text (.reference site name args) = name.text ++ argsText args := by
  change name.text ++ Text.typeArgs (args.render.map (·.map TypeText.text)) = _
  rw [render_maybe, Option.map_map]
  refine congrArg (name.text ++ Text.typeArgs ·) (congrArg (Option.map · _) (funext fun ts => ?_))
  rw [Function.comp_apply, render_many, map_map]
  rfl

theorem text_tuple (readonly : Bool) (ts : Many .type) :
    TypeExpr.text (.tuple site readonly ts) =
      Text.flag readonly "readonly" ++ "[" ++ Text.commas (ts.toList.map TypeExpr.text) ++ "]" := by
  change _ ++ "[" ++ Text.commas (ts.render.map TypeText.text) ++ "]" = _
  rw [render_many, map_map]
  rfl

theorem text_union (ts : Many .type) :
    TypeExpr.text (.union site ts) = " | ".intercalate (ts.toList.map operandText) := by
  change " | ".intercalate (ts.render.map TypeText.operand) = _
  rw [render_many, map_map]
  exact congrArg (" | ".intercalate ·) (map_congr_left fun t _ => operand_render t)

theorem text_intersection (ts : Many .type) :
    TypeExpr.text (.intersection site ts) = " & ".intercalate (ts.toList.map operandText) := by
  change " & ".intercalate (ts.render.map TypeText.operand) = _
  rw [render_many, map_map]
  exact congrArg (" & ".intercalate ·) (map_congr_left fun t _ => operand_render t)

theorem text_func (tps : Maybe (.many .typeParam)) (ps : Many .sigParam) :
    TypeExpr.text (.func site tps ps t) =
      "" ++ typeParamsText tps ++ paramsText ps ++ " => " ++ TypeExpr.text t := by
  rw [← typeParams_render, ← params_render, String.empty_append]
  rfl

theorem text_construct (abstract : Bool) (tps : Maybe (.many .typeParam)) (ps : Many .sigParam) :
    TypeExpr.text (.construct site abstract tps ps t) =
      Text.flag abstract "abstract" ++ "new " ++ typeParamsText tps ++ paramsText ps ++ " => " ++
        TypeExpr.text t := by
  rw [← typeParams_render, ← params_render]
  rfl

theorem text_object (ms : Many .typeMember) :
    TypeExpr.text (.object site ms) = Text.bracesOf "; " (ms.toList.map Tree.render) := by
  rw [← render_many]
  rfl

end

end TypeExpr

open TypeExpr

section

variable {site : Site} {mark : Mark} {key : TypeKey} {tps : Maybe (.many .typeParam)}
  {ps : Many .sigParam} {t : Maybe .type}

theorem SigParam.render_mk (form : SigParamForm) :
    (SigParam.mk mark form t).render =
      (if form.rest then "..." else "") ++ form.name ++ (if form.optional then "?" else "") ++
        leadText ": " t := by
  rw [← lead_render]
  rfl

theorem TypeParam.render_mk (name : String) (d : Maybe .type) :
    (TypeParam.mk mark name t d).render = name ++ leadText " extends " t ++ leadText " = " d := by
  rw [← lead_render, ← lead_render]
  rfl

theorem TypeMember.render_property (readonly optional : Bool) :
    (TypeMember.property site readonly optional key t).render =
      Text.flag readonly "readonly" ++ key.render ++ (if optional then "?" else "") ++
        leadText ": " t := by
  rw [← lead_render]
  rfl

theorem TypeMember.render_method (optional : Bool) :
    (TypeMember.method site optional key tps ps t).render =
      key.render ++ (if optional then "?" else "") ++ typeParamsText tps ++ paramsText ps ++
        leadText ": " t := by
  rw [← lead_render, ← typeParams_render, ← params_render]
  rfl

theorem TypeMember.render_construct :
    (TypeMember.construct site tps ps t).render =
      "new " ++ typeParamsText tps ++ paramsText ps ++ leadText ": " t := by
  rw [← lead_render, ← typeParams_render, ← params_render]
  rfl

theorem TypeMember.render_call :
    (TypeMember.call site tps ps t).render =
      typeParamsText tps ++ paramsText ps ++ leadText ": " t := by
  rw [← lead_render, ← typeParams_render, ← params_render]
  rfl

theorem TypeMember.render_index (readonly : Bool) (name : String) (k v : TypeExpr) :
    (TypeMember.index site readonly name k v).render =
      Text.flag readonly "readonly" ++ "[" ++ name ++ ": " ++ TypeExpr.text k ++ "]: " ++
        TypeExpr.text v := rfl

end

/-! ### Legible types -/

/-- Whether a type is of a kind that can be reflected, names and numerals are written as such, and
unions and intersections have several members. -/
def TypeExpr.isLegible : TypeExpr → Bool
  | .reference _ name _ | .query _ name => isName name
  | .literal _ (.num digits) => isNumeral digits
  | .union _ ts | .intersection _ ts => 2 ≤ ts.toList.length
  | t => TypeExpr.isReflectable t

/-- Whether a key is written as a name, a string or a numeral. -/
def TypeKey.isLegible : TypeKey → Bool
  | .ident name => isIdentifier name
  | .str _ => true
  | .num digits => isNumeral digits
  | .computed _ => false

/-- Whether the parameter of an index signature has a name. -/
def TypeMemberForm.isLegible : TypeMemberForm → Bool
  | .index _ name => isIdentifier name
  | _ => true

/-- Whether the text of a tree can be read, if the texts of its parts can. -/
def Tree.Legible : (c : Category) → Tree c → Prop
  | .type, t => TypeExpr.isLegible t = true
  | .typeMember, t => TypeMemberForm.isLegible t.form = true
  | .typeKey, t => TypeKey.isLegible t = true
  | .typeParam, t => isIdentifier t.form = true
  | .sigParam, t => isIdentifier (SigParamForm.name t.form) = true
  | _, _ => True

/-- A tree that is legible everywhere. -/
abbrev Tree.Clear {c : Category} (t : Tree c) : Prop := t.Everywhere Tree.Legible

theorem Tree.Legible.reflectable {c t} (h : Tree.Legible c t) : Tree.Reflectable c t := by
  cases c with
  | type =>
    match t with
    | TypeExpr.reference _ _ _ | TypeExpr.query _ _ | TypeExpr.union _ _
    | TypeExpr.intersection _ _ | TypeExpr.literal _ (.num _) => rfl
    | TypeExpr.keyword _ _ | TypeExpr.array _ _ _ | TypeExpr.tuple _ _ _ | TypeExpr.func _ _ _ _
    | TypeExpr.construct _ _ _ _ _ | TypeExpr.object _ _ | TypeExpr.paren _ _
    | TypeExpr.literal _ (.bool _) | TypeExpr.literal _ (.str _) => rfl
    | TypeExpr.operator _ _ _ | TypeExpr.indexed _ _ _ | TypeExpr.conditional _ _ _ _ _
    | TypeExpr.infer _ _ _ | TypeExpr.mapped _ _ _ _ | TypeExpr.predicate _ _ _ _ => cases h
  | _ => trivial

/-! ### Kinds -/

/-- What can be told from what a type shows. -/
inductive TypeKind where
  | callable
  | union
  | intersection
  | tuple
  | array
  | object
  | paren
  | word
deriving DecidableEq

/-- The kind of the types of a form. -/
def TypeForm.kind : TypeForm → TypeKind
  | func | construct _ => .callable
  | union => .union
  | intersection => .intersection
  | tuple _ => .tuple
  | array _ => .array
  | object => .object
  | paren => .paren
  | _ => .word

theorem TypeForm.kind_of_tight {f : TypeForm} (h : f.isLoose = false) :
    f.kind ∉ [.callable, .union, .intersection] := by
  cases f <;> simp_all [kind, isLoose]

/-- The kind of a type that shows a character last, after `v`, and no operator. -/
def TypeKind.last (v : List Char) : Char → TypeKind
  | '[' => if v.getLast?.all (· == ' ') then .tuple else .array
  | '\x7b' => .object
  | '(' => .paren
  | _ => .word

/-- The kind of a type that shows `u`. -/
def TypeKind.of (u : List Char) : TypeKind :=
  if '>' ∈ u then .callable
  else if '|' ∈ u then .union
  else if '&' ∈ u then .intersection
  else last u.dropLast (u.getLast?.getD ' ')

/-- What is shown ends with something other than a space. -/
def Ended (u : List Char) : Prop := ∃ v c, u = v ++ [c] ∧ c ≠ ' '

/-- What is shown ends, and no operator or separator is shown. -/
def Tight (u : List Char) : Prop := Ended u ∧ ∀ c ∈ u, c ∉ ['>', '|', '&', ',', ';', ':', '=']

/-- What a type of a kind shows. -/
structure TypeKind.Shows (k : TypeKind) (u : List Char) : Prop where
  ended : Ended u
  quiet : ∀ c ∈ u, c ∉ [',', ';', ':', '=']
  kind : TypeKind.of u = k

theorem Ended.append {u} (h : Ended u) (v : List Char) : Ended (v ++ u) := by
  obtain ⟨w, c, rfl, hc⟩ := h
  exact ⟨v ++ w, c, (append_assoc v w [c]).symm, hc⟩

namespace TypeKind

variable {u v : List Char} {c : Char} {k : TypeKind}

theorem Shows.tight (h : k.Shows u) (hk : k ∉ [.callable, .union, .intersection]) : Tight u := by
  refine ⟨h.ended, fun c hc mem => ?_⟩
  have kind := h.kind
  rw [TypeKind.of] at kind
  split_ifs at kind with arrow bar amp
  · exact hk (by simp [← kind])
  · exact hk (by simp [← kind])
  · exact hk (by simp [← kind])
  · have quiet := h.quiet c hc
    simp only [mem_cons, not_mem_nil, or_false] at mem quiet
    rcases mem with rfl | rfl | rfl | other
    · exact arrow hc
    · exact bar hc
    · exact amp hc
    · exact quiet other

theorem shows_of_tight (h : Tight (v ++ [c])) : (last v c).Shows (v ++ [c]) where
  ended := h.1
  quiet d hd mem := h.2 d hd (by simp_all)
  kind := by
    have free (d : Char) (hd : d ∈ ['>', '|', '&', ',', ';', ':', '=']) : d ∉ v ++ [c] :=
      fun mem => h.2 d mem hd
    rw [TypeKind.of, if_neg (free '>' (by decide)), if_neg (free '|' (by decide)),
      if_neg (free '&' (by decide))]
    simp

theorem last_of_isNumeralPart (h : isNumeralPart c = true) : last v c = .word := by
  unfold last
  split <;> first | rfl | exact absurd h (by decide)

/-- The kind is seen after words with a space behind them. -/
theorem of_append {p : List Char} (hp : ∀ c ∈ p, c ∉ ['>', '|', '&'])
    (space : p.getLast? = some ' ') (h : Ended u) : TypeKind.of (p ++ u) = TypeKind.of u := by
  obtain ⟨v, c, rfl, -⟩ := h
  have front (d : Char) (hd : d ∈ ['>', '|', '&']) : (d ∈ p ++ (v ++ [c])) = (d ∈ v ++ [c]) :=
    propext (mem_append.trans (or_iff_right fun mem => hp d mem hd))
  have before : last (p ++ v) c = last v c := by
    unfold last
    rw [getLast?_append, space]
    cases v.getLast? <;> rfl
  rw [TypeKind.of, TypeKind.of]
  simp only [front '>' (by decide), front '|' (by decide), front '&' (by decide)]
  rw [← append_assoc, dropLast_concat, dropLast_concat, getLast?_concat, getLast?_concat]
  simp only [Option.getD_some, before]

end TypeKind

/-! ### Texts of types -/

namespace Reading

variable {a : String}

/-- Words show themselves. -/
theorem Spans.words (h : ∀ c ∈ a.toList, isNumeralPart c = true ∨ c = ' ') : Spans a a.toList := by
  refine .word fun c hc mem => ?_
  have special : ∀ d ∈ ['=', '"', '(', '[', '\x7b', '<', ')', ']', '\x7d', '>'],
    ¬(isNumeralPart d = true ∨ d = ' ') := by decide
  exact special c mem (h c hc)

/-- Words with spaces between them are a type of one word. -/
theorem shows_words (h : ∀ c ∈ a.toList, isNumeralPart c = true ∨ c = ' ') {b : String}
    (hb : ∀ c ∈ b.toList, isNumeralPart c = true) (some : b.toList ≠ []) :
    ∃ u, Spans (a ++ b) u ∧ TypeKind.word.Shows u := by
  have special : ∀ d ∈ ['>', '|', '&', ',', ';', ':', '='],
    ¬(isNumeralPart d = true ∨ d = ' ') := by decide
  refine ⟨_, (Spans.words h).append (.words fun c hc => .inl (hb c hc)), ?_⟩
  obtain ⟨v, c, last⟩ := (eq_nil_or_concat' b.toList).resolve_left some
  rw [last] at hb ⊢
  have part := hb c (by simp)
  have space : c ≠ ' ' := by
    rintro rfl
    exact absurd part (by decide)
  rw [← append_assoc, ← TypeKind.last_of_isNumeralPart (v := a.toList ++ v) part]
  refine TypeKind.shows_of_tight ⟨⟨_, c, rfl, space⟩, fun d hd mem => special d mem ?_⟩
  rw [append_assoc] at hd
  exact (mem_append.1 hd).elim (h d) fun hd => .inl (hb d hd)

theorem shows_word (h : ∀ c ∈ a.toList, isNumeralPart c = true) (some : a.toList ≠ []) :
    ∃ u, Spans a u ∧ TypeKind.word.Shows u := by
  simpa using shows_words (a := "") (by simp) h some

theorem word_of_isName {n : EntityName} (h : isName n = true) :
    (∀ c ∈ n.text.toList, isNumeralPart c = true) ∧ n.text.toList ≠ [] := by
  obtain ⟨c, cs, chars, -, parts⟩ := toList_of_isName h
  rw [chars]
  exact ⟨fun d hd => by rw [isNumeralPart, parts d hd, Bool.true_or, Bool.true_or],
    cons_ne_nil c cs⟩

theorem word_of_isNumeral {w : String} (h : isNumeral w = true) :
    (∀ c ∈ w.toList, isNumeralPart c = true) ∧ w.toList ≠ [] := by
  rw [isNumeral, Bool.and_eq_true, all_eq_true] at h
  refine ⟨h.2, fun none => ?_⟩
  rw [none] at h
  cases h.1

theorem separator : ∀ c ∈ ['>', '|', '&', ',', ';', ':', '='], ¬isNumeralPart c = true := by decide

theorem spans_intercalate {α : Type} {f : α → String} {sep : String} (hs : ∃ u, Spans sep u) :
    {xs : List α} → (∀ x ∈ xs, ∃ u, Spans (f x) u) → ∃ u, Spans (sep.intercalate (xs.map f)) u
  | [], _ => ⟨[], .empty⟩
  | [x], h => by simpa using h
  | x :: y :: xs, h => by
    obtain ⟨⟨u, hu⟩, rest⟩ := forall_mem_cons.1 h
    obtain ⟨v, hv⟩ := spans_intercalate hs rest
    obtain ⟨w, hw⟩ := hs
    rw [map_cons, map_cons, String.intercalate_cons_cons]
    exact ⟨_, (hu.append hw).append hv⟩

/-- What operands with an operator between them show. -/
theorem shows_operands {sep : String} {m : Char} (hs : Spans sep [' ', m, ' ']) :
    {xs : List String} → xs ≠ [] → (∀ x ∈ xs, ∃ u, Spans x u ∧ Tight u) →
      ∃ u, Spans (sep.intercalate xs) u ∧ Ended u ∧
        (∀ c ∈ u, c = m ∨ c ∉ ['>', '|', '&', ',', ';', ':', '=']) ∧ (2 ≤ xs.length → m ∈ u)
  | [x], _, h => by
    obtain ⟨u, hu, ended, free⟩ := h x mem_cons_self
    refine ⟨u, by simpa using hu, ended, fun c hc => .inr (free c hc), nofun⟩
  | x :: y :: xs, _, h => by
    obtain ⟨⟨u, hu, -, free⟩, rest⟩ := forall_mem_cons.1 h
    obtain ⟨v, hv, ended, free', -⟩ := shows_operands hs (cons_ne_nil y xs) rest
    rw [String.intercalate_cons_cons]
    refine ⟨_, (hu.append hs).append hv, ended.append _, fun c hc => ?_, fun _ => by simp⟩
    simp only [mem_append, mem_cons, not_mem_nil, or_false] at hc
    rcases hc with (hc | rfl | rfl | rfl) | hc
    · exact .inr (free c hc)
    · exact .inr (by decide)
    · exact .inl rfl
    · exact .inr (by decide)
    · exact free' c hc

end Reading

/-- What is shown by the text of a tree. -/
def Tree.Shown : (c : Category) → Tree c → Prop
  | .type, t => ∃ u, Spans (TypeExpr.text t) u ∧ (TypeForm.kind t.form).Shows u
  | .typeMember, t => Item ';' t.render
  | .typeKey, t => ∃ v c, Spans t.render (v ++ [c]) ∧
      ∀ d ∈ v ++ [c], isNumeralPart d = true ∨ d = '"'
  | .typeParam, t => Item ',' t.render
  | .sigParam, t => Item ',' t.render
  | _, _ => True

namespace TypeExpr

variable {t : TypeExpr} {ts : Many .type} {tps : Maybe (.many .typeParam)} {ps : Many .sigParam}

/-- What is shown where a type is an operand. -/
theorem tight_operand (h : Tree.Shown .type t) : ∃ u, Spans (operandText t) u ∧ Tight u := by
  obtain ⟨u, hu, shows⟩ := h
  rw [operandText]
  cases loose : t.form.isLoose with
  | true => exact ⟨['('], hu.parens, ⟨[], '(', rfl, by decide⟩, by decide⟩
  | false => exact ⟨u, hu, shows.tight (TypeForm.kind_of_tight loose)⟩

theorem spans_of_everywhere (h : ts.Everywhere Tree.Shown) :
    ∃ u, Spans (Text.commas (ts.toList.map TypeExpr.text)) u := by
  refine spans_intercalate ⟨_, .word (by decide)⟩ fun t ht => ?_
  obtain ⟨u, hu, -⟩ := (h.toList t ht).root
  exact ⟨u, hu⟩

theorem spans_params (h : ps.Everywhere Tree.Shown) : Spans (paramsText ps) ['('] := by
  have inside : ∃ u, Spans (Text.commas (ps.toList.map Tree.render)) u := by
    refine spans_intercalate ⟨_, .word (by decide)⟩ fun p hp => ?_
    obtain ⟨⟨u, hu, -⟩, -⟩ := (h.toList p hp).root
    exact ⟨u, hu⟩
  obtain ⟨u, hu⟩ := inside
  exact hu.parens

theorem spans_typeParams (h : tps.Everywhere Tree.Shown) :
    Spans (typeParamsText tps) (if tps.toLists.isEmpty then [] else ['<']) := by
  have inside : ∃ u, Spans (Text.commas (tps.toLists.map Tree.render)) u := by
    refine spans_intercalate ⟨_, .word (by decide)⟩ fun p hp => ?_
    obtain ⟨⟨u, hu, -⟩, -⟩ := (h.toLists p hp).root
    exact ⟨u, hu⟩
  obtain ⟨u, hu⟩ := inside
  rw [typeParamsText]
  split
  · exact .empty
  · exact hu.group (fun _ _ => rfl) fun _ _ => rfl

/-- A function type shows an arrow. -/
theorem shows_callable {lead : String} (hl : ∀ c ∈ lead.toList, isNumeralPart c = true ∨ c = ' ')
    (ht : tps.Everywhere Tree.Shown) (hp : ps.Everywhere Tree.Shown) (h : Tree.Shown .type t) :
    ∃ u, Spans (lead ++ typeParamsText tps ++ paramsText ps ++ " => " ++ text t) u ∧
      TypeKind.callable.Shows u := by
  obtain ⟨u, hu, shows⟩ := h
  refine ⟨_, ((((Spans.words hl).append (spans_typeParams ht)).append (spans_params hp)).append
    .arrow).append hu, shows.ended.append _, ?_, ?_⟩
  · have words : ∀ d ∈ [',', ';', ':', '='], ¬(isNumeralPart d = true ∨ d = ' ') := by decide
    simp only [forall_mem_append]
    refine ⟨⟨⟨⟨fun c hc mem => words c mem (hl c hc), ?_⟩, by decide⟩, by decide⟩, shows.quiet⟩
    split <;> decide
  · simp [TypeKind.of]

/-- A union and an intersection show their operator. -/
theorem shows_joined {sep : String} {m : Char} {k : TypeKind} (hs : Spans sep [' ', m, ' '])
    (hm : (m, k) ∈ [('|', .union), ('&', TypeKind.intersection)]) (two : 2 ≤ ts.toList.length)
    (h : ts.Everywhere Tree.Shown) :
    ∃ u, Spans (sep.intercalate (ts.toList.map operandText)) u ∧ k.Shows u := by
  have each : ∀ x ∈ ts.toList.map operandText, ∃ u, Spans x u ∧ Tight u := by
    intro x hx
    obtain ⟨t, ht, rfl⟩ := mem_map.1 hx
    exact tight_operand (h.toList t ht).root
  have some : ts.toList.map operandText ≠ [] := by
    rintro none
    simp_all
  obtain ⟨u, hu, ended, free, shown⟩ := shows_operands hs some each
  have shown := shown (by simpa using two)
  have other (c : Char) (hc : c ∈ ['>', '|', '&', ',', ';', ':', '=']) (ne : c ≠ m) : c ∉ u :=
    fun mem => (free c mem).elim ne fun none => none hc
  simp only [mem_cons, Prod.mk.injEq, not_mem_nil, or_false] at hm
  rcases hm with ⟨rfl, rfl⟩ | ⟨rfl, rfl⟩
  · refine ⟨u, hu, ended, fun c hc mem => ?_, ?_⟩
    · refine other c ?_ ?_ hc
      · simp_all
      · rintro rfl
        exact absurd mem (by decide)
    · rw [TypeKind.of, if_neg (other '>' (by decide) (by decide)), if_pos shown]
  · refine ⟨u, hu, ended, fun c hc mem => ?_, ?_⟩
    · refine other c ?_ ?_ hc
      · simp_all
      · rintro rfl
        exact absurd mem (by decide)
    · rw [TypeKind.of, if_neg (other '>' (by decide) (by decide)),
        if_neg (other '|' (by decide) (by decide)), if_pos shown]

theorem spans_flag (readonly : Bool) :
    Spans (Text.flag readonly "readonly") (Text.flag readonly "readonly").toList :=
  .words (by cases readonly <;> decide)

/-- What the text of a type shows. -/
theorem shown {form : TypeForm} {marks : Marks 2} {ts : Children form.arity}
    (legible : isLegible (.node (c := .type) form marks ts) = true)
    (h : ts.Everywhere Tree.Shown) : Tree.Shown .type (.node (c := .type) form marks ts) := by
  match form, marks, ts, legible, h with
  | .keyword k, .two site, .nil, _, _ =>
    refine shows_word ?_ ?_
    · change ∀ c ∈ k.text.toList, _
      cases k <;> decide
    · change k.text.toList ≠ []
      cases k <;> decide
  | .literal (.bool b), .two site, .nil, _, _ =>
    cases b with
    | true => exact shows_word (a := "true") (by decide) (by decide)
    | false => exact shows_word (a := "false") (by decide) (by decide)
  | .literal (.num digits), .two site, .nil, legible, _ =>
    obtain ⟨parts, some⟩ := word_of_isNumeral legible
    exact shows_word parts some
  | .literal (.str value), .two site, .nil, _, _ =>
    exact ⟨_, .quote value, ⟨[], '"', rfl, by decide⟩, by decide, rfl⟩
  | .query name, .two site, .nil, legible, _ =>
    obtain ⟨parts, some⟩ := word_of_isName legible
    exact shows_words (a := "typeof ") (by decide) parts some
  | .paren, .two site, .cons t .nil, _, h =>
    obtain ⟨u, hu, -⟩ := h.1.root
    exact ⟨_, hu.parens, ⟨[], '(', rfl, by decide⟩, by decide, rfl⟩
  | .reference name, .two site, .cons args .nil, legible, h =>
    obtain ⟨parts, some⟩ := word_of_isName legible
    change ∃ u, Spans (text (.reference site name args)) u ∧ TypeKind.word.Shows u
    rw [text_reference]
    match args, h with
    | .absent, _ => simpa [argsText, Text.typeArgs, toOption] using shows_word parts some
    | .present ts, h =>
      obtain ⟨u, hu⟩ := spans_of_everywhere (h.1.toOption ts rfl)
      refine ⟨_, (Spans.words fun c hc => .inl (parts c hc)).append
        (hu.group (c := '<') (fun _ _ => rfl) fun _ _ => rfl), ?_⟩
      refine TypeKind.shows_of_tight (v := name.text.toList) ⟨⟨_, '<', rfl, by decide⟩, ?_⟩
      exact forall_mem_append.2 ⟨fun c hc mem => absurd (parts c hc) (separator c mem), by decide⟩
  | .array readonly, .two site, .cons elem .nil, _, h =>
    obtain ⟨u, hu, ⟨v, c, rfl, hc⟩, free⟩ := tight_operand h.1.root
    change ∃ u, Spans (text (.array site readonly elem)) u ∧ TypeKind.array.Shows u
    rw [text_array]
    refine ⟨_, ((spans_flag readonly).append hu).append (fun _ _ => rfl : Spans "[]" ['[']), ?_⟩
    have kind : TypeKind.last ((Text.flag readonly "readonly").toList ++ (v ++ [c])) '[' =
        .array := by
      simp [TypeKind.last, hc]
    rw [← kind]
    refine TypeKind.shows_of_tight ⟨⟨_, '[', rfl, by decide⟩, ?_⟩
    refine forall_mem_append.2 ⟨forall_mem_append.2 ⟨?_, free⟩, by decide⟩
    cases readonly <;> decide
  | .tuple readonly, .two site, .cons ts .nil, _, h =>
    obtain ⟨u, hu⟩ := spans_of_everywhere h.1
    change ∃ u, Spans (text (.tuple site readonly ts)) u ∧ TypeKind.tuple.Shows u
    have parts : text (.tuple site readonly ts) = Text.flag readonly "readonly" ++
        ("[" ++ Text.commas (ts.toList.map text) ++ "]") := by
      rw [text_tuple]
      simp only [String.append_assoc]
    rw [parts]
    refine ⟨_, (spans_flag readonly).append (hu.group (fun _ _ => rfl) fun _ _ => rfl), ?_⟩
    cases readonly with
    | true => exact ⟨⟨"readonly ".toList, '[', rfl, by decide⟩, by decide, rfl⟩
    | false => exact ⟨⟨[], '[', rfl, by decide⟩, by decide, rfl⟩
  | .union, .two site, .cons ts .nil, legible, h =>
    change ∃ u, Spans (text (.union site ts)) u ∧ TypeKind.union.Shows u
    rw [text_union]
    exact shows_joined (.word (by decide)) (by decide) (of_decide_eq_true legible) h.1
  | .intersection, .two site, .cons ts .nil, legible, h =>
    change ∃ u, Spans (text (.intersection site ts)) u ∧ TypeKind.intersection.Shows u
    rw [text_intersection]
    exact shows_joined (.word (by decide)) (by decide) (of_decide_eq_true legible) h.1
  | .func, .two site, .cons tps (.cons ps (.cons t .nil)), _, h =>
    simp only [Children.everywhere_cons] at h
    change ∃ u, Spans (text (.func site tps ps t)) u ∧ TypeKind.callable.Shows u
    rw [text_func]
    exact shows_callable (by decide) h.1 h.2.1 h.2.2.1.root
  | .construct abstract, .two site, .cons tps (.cons ps (.cons t .nil)), _, h =>
    simp only [Children.everywhere_cons] at h
    change ∃ u, Spans (text (.construct site abstract tps ps t)) u ∧ TypeKind.callable.Shows u
    rw [text_construct]
    exact shows_callable (by cases abstract <;> decide) h.1 h.2.1 h.2.2.1.root
  | .object, .two site, .cons ms .nil, _, h =>
    change ∃ u, Spans (text (.object site ms)) u ∧ TypeKind.object.Shows u
    rw [text_object, Text.bracesOf]
    refine ⟨['\x7b'], ?_, ⟨[], '\x7b', rfl, by decide⟩, by decide, rfl⟩
    split
    · exact fun _ _ => rfl
    · have inside : ∃ u, Spans ("; ".intercalate (ms.toList.map Tree.render)) u := by
        refine spans_intercalate ⟨_, .word (by decide)⟩ fun m hm => ?_
        obtain ⟨⟨u, hu, -⟩, -⟩ := (h.1.toList m hm).root
        exact ⟨u, hu⟩
      obtain ⟨u, hu⟩ := inside
      exact hu.group (fun _ _ => rfl) fun _ _ => rfl

theorem lacks_text {c : Char} (h : Tree.Shown .type t) (hc : c ∈ [',', ';', ':', '=']) :
    Lacks c (text t) := by
  obtain ⟨u, hu, shows⟩ := h
  exact ⟨u, hu, fun mem => shows.quiet c mem hc⟩

theorem lacks_lead {c : Char} {before : String} {x : Option TypeExpr} (hb : Lacks c before)
    (h : ∀ t ∈ x, Tree.Shown .type t) (hc : c ∈ [',', ';', ':', '=']) :
    Lacks c (Text.lead before (x.map text)) := by
  cases x with
  | none => exact .empty
  | some t => exact hb.append (lacks_text (h t rfl) hc)

end TypeExpr

/-! ### Texts of members -/

namespace Reading

variable {c : Char} {w : String}

/-- Names show themselves. -/
theorem lacks_word (h : ∀ d ∈ w.toList, isNumeralPart d = true) (hc : isNumeralPart c = false) :
    Lacks c w :=
  ⟨_, .words fun d hd => .inl (h d hd), fun mem => by simp [h c mem] at hc⟩

theorem word_of_isIdentifier (h : isIdentifier w = true) :
    (∀ d ∈ w.toList, isNumeralPart d = true) ∧ w.toList ≠ [] := by
  obtain ⟨c, cs, chars, -, parts, -⟩ := toList_of_isIdentifier h
  rw [chars]
  exact ⟨fun d hd => by simp [isNumeralPart, isNamePart, parts d hd], cons_ne_nil c cs⟩

theorem lacks_identifier (h : isIdentifier w = true) (hc : isNumeralPart c = false) : Lacks c w :=
  lacks_word (word_of_isIdentifier h).1 hc

theorem Lacks.ite {a : String} (h : Lacks c a) (on : Bool) : Lacks c (if on then a else "") := by
  cases on with
  | true => exact h
  | false => exact .empty

end Reading

/-- What is written before the type of a parameter. -/
def SigParamForm.front (form : SigParamForm) : String :=
  (if form.rest then "..." else "") ++ form.name ++ (if form.optional then "?" else "")

theorem SigParamForm.lacks_front {form : SigParamForm} (h : isIdentifier form.name = true)
    {c : Char} (hc : c ∈ [',', ':']) : Lacks c form.front := by
  have other : ∀ d ∈ [',', ':'], isNumeralPart d = false ∧ d ∉ "...".toList ∧ d ∉ "?".toList := by
    decide
  obtain ⟨part, dots, mark⟩ := other c hc
  exact ((Lacks.ite ⟨_, .word (by decide), dots⟩ _).append (lacks_identifier h part)).append
    (Lacks.ite ⟨_, .word (by decide), mark⟩ _)

/-- What a key shows. -/
theorem TypeKey.shown {k : TypeKey} (h : isLegible k = true) : Tree.Shown .typeKey k := by
  have words {w : String} (parts : ∀ d ∈ w.toList, isNumeralPart d = true) (some : w.toList ≠ []) :
      ∃ v c, Spans w (v ++ [c]) ∧ ∀ d ∈ v ++ [c], isNumeralPart d = true ∨ d = '"' := by
    obtain ⟨v, c, last⟩ := (eq_nil_or_concat' w.toList).resolve_left some
    rw [last] at parts
    refine ⟨v, c, last ▸ .words fun d hd => .inl ?_, fun d hd => .inl (parts d hd)⟩
    exact parts d (last ▸ hd)
  match k, h with
  | .ident name, h =>
    obtain ⟨parts, some⟩ := word_of_isIdentifier h
    exact words parts some
  | .str value, _ => exact ⟨[], '"', .quote value, by simp⟩
  | .num digits, h =>
    obtain ⟨parts, some⟩ := word_of_isNumeral h
    exact words parts some
  | .computed _, h => cases h

namespace TypeMember

open TypeExpr

/-- A key and the mark of an optional member. -/
def slot (key : TypeKey) (optional : Bool) : String := key.render ++ (if optional then "?" else "")

/-- What is written before the type of a member. -/
def front : TypeMember → String
  | .property _ readonly optional key _ => Text.flag readonly "readonly" ++ slot key optional
  | .method _ optional key tps ps _ => slot key optional ++ typeParamsText tps ++ paramsText ps
  | .construct _ tps ps _ => "new " ++ typeParamsText tps ++ paramsText ps
  | .call _ tps ps _ => "" ++ typeParamsText tps ++ paramsText ps
  | .index _ readonly name key _ =>
    Text.flag readonly "readonly" ++ ("[" ++ (name ++ Text.lead ": " (some (text key)) ++ "]"))

/-- The type of a member. -/
def type? : TypeMember → Option TypeExpr
  | .property _ _ _ _ t | .method _ _ _ _ _ t | .construct _ _ _ t | .call _ _ _ t => t.toOption
  | .index _ _ _ _ t => some t

theorem render_eq (m : TypeMember) : m.render = front m ++ Text.lead ": " ((type? m).map text) := by
  match m with
  | .property _ _ _ _ _ =>
    refine (render_property _ _).trans ?_
    simp only [front, slot, String.append_assoc]
    rfl
  | .method _ _ _ _ _ _ => exact render_method _
  | .construct _ _ _ _ => exact render_construct
  | .call _ _ _ _ =>
    refine render_call.trans ?_
    simp [front, type?, leadText]
  | .index _ readonly name key t =>
    refine (render_index readonly name key t).trans ?_
    simp only [front, type?, Text.lead, String.append_assoc, Option.map_some]
    rfl

/-- The bracket at the end of what is written before the type. -/
def bracket? (m : TypeMember) : Option Char :=
  match m.form with
  | .property _ _ => none
  | .index _ _ => some '['
  | _ => some '('

theorem shows_front {form : TypeMemberForm} {marks : Marks 2} {ts : Children form.arity}
    (legible : form.isLegible = true) (h : ts.Everywhere Tree.Shown) :
    ∃ v c, Spans (front (.node (c := .typeMember) form marks ts)) (v ++ [c]) ∧
      (∀ d ∈ v ++ [c], d ∉ [':', ';']) ∧
      (if c ∈ ['(', '['] then some c else none) =
        bracket? (.node (c := .typeMember) form marks ts) := by
  have callable {lead : String} {u : List Char} (hl : Spans lead u) (free : ∀ d ∈ u, d ∉ [':', ';'])
      {tps : Maybe (.many .typeParam)} {ps : Many .sigParam} (ht : tps.Everywhere Tree.Shown)
      (hp : ps.Everywhere Tree.Shown) :
      ∃ v c, Spans (lead ++ typeParamsText tps ++ paramsText ps) (v ++ [c]) ∧
        (∀ d ∈ v ++ [c], d ∉ [':', ';']) ∧
        (if c ∈ ['(', '['] then some c else none) = some '(' := by
    refine ⟨_, '(', (hl.append (spans_typeParams ht)).append (spans_params hp), ?_, rfl⟩
    simp only [forall_mem_append]
    refine ⟨⟨free, ?_⟩, by decide⟩
    split <;> decide
  have other {d : Char} (hd : isNumeralPart d = true ∨ d = '"') : d ∉ [':', ';', '(', '['] := by
    have each : ∀ e ∈ [':', ';', '(', '['], ¬(isNumeralPart e = true ∨ e = '"') := by decide
    exact fun mem => each d mem hd
  have mark (optional : Bool) : Spans (if optional then "?" else "")
      (if optional then ['?'] else []) := by
    cases optional with
    | true => exact .word (by decide)
    | false => exact .empty
  match form, marks, ts, legible, h with
  | .property readonly optional, .two site, .cons key (.cons t .nil), _, h =>
    obtain ⟨v, c, hk, parts⟩ := h.1.root
    have front := (spans_flag readonly).append (hk.append (mark optional))
    rw [← append_assoc, ← append_assoc] at front
    have free : ∀ d ∈ (Text.flag readonly "readonly").toList ++ v ++ [c], d ∉ [':', ';'] := by
      rw [append_assoc]
      refine forall_mem_append.2 ⟨by cases readonly <;> decide, fun d hd mem => ?_⟩
      exact other (parts d hd) (by simp_all)
    cases optional with
    | true => exact ⟨_, '?', front, forall_mem_append.2 ⟨free, by decide⟩, rfl⟩
    | false =>
      change Spans _ (_ ++ []) at front
      rw [append_nil] at front
      refine ⟨_, c, front, free, if_neg fun mem => ?_⟩
      exact other (parts c (by simp)) (by simp_all)
  | .method optional, .two site, .cons key (.cons tps (.cons ps (.cons t .nil))), _, h =>
    simp only [Children.everywhere_cons] at h
    obtain ⟨v, c, hk, parts⟩ := h.1.root
    refine callable (hk.append (mark optional)) (forall_mem_append.2 ⟨fun d hd mem => ?_, ?_⟩) h.2.1
      h.2.2.1
    · exact other (parts d hd) (by simp_all)
    · cases optional <;> decide
  | .construct, .two site, .cons tps (.cons ps (.cons t .nil)), _, h =>
    simp only [Children.everywhere_cons] at h
    exact callable (.word (by decide)) (by decide) h.1 h.2.1
  | .call, .two site, .cons tps (.cons ps (.cons t .nil)), _, h =>
    simp only [Children.everywhere_cons] at h
    exact callable .empty (by simp) h.1 h.2.1
  | .index readonly name, .two site, .cons k (.cons v .nil), legible, h =>
    obtain ⟨u, hu, -⟩ := h.1.root
    obtain ⟨parts, -⟩ := word_of_isIdentifier legible
    have inside := ((Spans.words fun d hd => .inl (parts d hd)).append (.word (a := ": ")
      (by decide))).append hu
    have square := inside.group (o := "[") (e := "]") (c := '[') (fun _ _ => rfl) fun _ _ => rfl
    simp only [String.append_assoc] at square
    refine ⟨_, '[', (spans_flag readonly).append ?_,
      forall_mem_append.2 ⟨by cases readonly <;> decide, by decide⟩, rfl⟩
    simpa only [Text.lead, String.append_assoc] using square

/-- A member shows no semicolon. -/
theorem shown {form : TypeMemberForm} {marks : Marks 2} {ts : Children form.arity}
    (legible : form.isLegible = true) (h : ts.Everywhere Tree.Shown) :
    Tree.Shown .typeMember (.node (c := .typeMember) form marks ts) := by
  have typed : ∀ t ∈ type? (.node (c := .typeMember) form marks ts), Tree.Shown .type t := by
    clear legible
    intro t ht
    match form, marks, ts, h, ht with
    | .property _ _, .two _, .cons _ (.cons r .nil), h, ht => exact (h.2.1.toOption t ht).root
    | .method _, .two _, .cons _ (.cons _ (.cons _ (.cons r .nil))), h, ht =>
      exact (h.2.2.2.1.toOption t ht).root
    | .construct, .two _, .cons _ (.cons _ (.cons r .nil)), h, ht
    | .call, .two _, .cons _ (.cons _ (.cons r .nil)), h, ht => exact (h.2.2.1.toOption t ht).root
    | .index _ _, .two _, .cons _ (.cons r .nil), h, ht =>
      obtain rfl : r = t := Option.some.inj ht
      exact h.2.1.root
  obtain ⟨v, c, hf, free, -⟩ := @shows_front form marks ts legible h
  change Item ';' (Tree.render (c := .typeMember) _)
  rw [render_eq]
  refine ⟨Lacks.append ⟨_, hf, fun mem => free _ mem (by decide)⟩
    (lacks_lead ⟨_, .word (by decide), by decide⟩ typed (by decide)), fun none => ?_⟩
  obtain ⟨none, -⟩ := String.append_eq_empty_iff.1 none
  rw [none] at hf
  simpa using hf.unique .empty

end TypeMember

/-- **What texts show.** -/
theorem Tree.shown {c} {t : Tree c} (h : t.Everywhere Tree.Legible) : t.Everywhere Tree.Shown := by
  refine h.induction ?_
  intro c form marks ts legible parts
  cases c with
  | type => exact TypeExpr.shown legible parts
  | typeMember => exact TypeMember.shown legible parts
  | typeKey => exact TypeKey.shown legible
  | typeParam =>
    obtain _ | mark := marks
    obtain _ | ⟨t, _ | ⟨d, _ | _⟩⟩ := ts
    simp only [Children.everywhere_cons] at parts
    have legible : isIdentifier form = true := legible
    change Item ',' (TypeParam.mk mark form t d).render
    rw [TypeParam.render_mk]
    have bound : Lacks ',' (leadText " extends " t) := lacks_lead ⟨_, .word (by decide), by decide⟩
      (fun u hu => (parts.1.toOption u hu).root) (by decide)
    have default : Lacks ',' (leadText " = " d) := lacks_lead ⟨_, .equals, by decide⟩
      (fun u hu => (parts.2.1.toOption u hu).root) (by decide)
    refine ⟨((lacks_identifier legible (by decide)).append bound).append default, fun none => ?_⟩
    exact (word_of_isIdentifier legible).2 (by simp_all)
  | sigParam =>
    obtain _ | mark := marks
    obtain _ | ⟨t, _ | _⟩ := ts
    simp only [Children.everywhere_cons] at parts
    have legible : isIdentifier (SigParamForm.name form) = true := legible
    change Item ',' (SigParam.mk mark form t).render
    rw [SigParam.render_mk]
    refine ⟨(SigParamForm.lacks_front legible (by decide)).append (lacks_lead ⟨_, .word (by decide),
      by decide⟩ (fun u hu => (parts.1.toOption u hu).root) (by decide)), fun none => ?_⟩
    exact (word_of_isIdentifier legible).2 (by simp_all)
  | _ => exact trivial

end Reify
