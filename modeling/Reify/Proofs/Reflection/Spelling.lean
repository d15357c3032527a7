import Reify.Proofs.Reflection.Merging
import Reify.Proofs.Syntax.Spelling

/-!
# Reflections and texts

The text of a type fixes its reflection up to marks: what a text shows outside brackets tells how it
is put together, so types with one text have parts with one text (`Reflection.like_of_text`).  So
overloads may be told apart by the texts of their types.
-/

namespace Reify

open List Reading Tree

/-! ### Trees without marks -/

/-- Trees that differ in marks at most. -/
def Tree.SameShape (c : Category) (t t' : Tree c) : Prop := t.bare = t'.bare

theorem Tree.sameShape_node {c form m m' ts ts'} (h : ts.Related Tree.SameShape ts') :
    Tree.SameShape c (.node form m ts) (.node form m' ts') := by
  have parts {cs : List Category} {ts ts' : Children cs} (h : ts.Related Tree.SameShape ts') :
      (ts.fold fun form marks _ parts => Tree.node form marks.cleared parts.toChildren).toChildren =
        (ts'.fold fun form marks _ parts => Tree.node form marks.cleared parts.toChildren).toChildren := by
    induction h with
    | nil => rfl
    | cons head _ ih => exact congrArg₂ Children.cons head ih
  exact congrArg₂ (Tree.node form) (Marks.cleared_eq m m') (parts h)

theorem Scope.congruent_bare (s : Scope) : s.Congruent s (fun _ _ => True) Tree.SameShape where
  library := rfl
  localName _ := rfl
  declared := rfl
  generics := rfl
  node _ parts := sameShape_node parts
  loc _ := trivial

/-- A scope corresponds to itself up to marks. -/
theorem Scope.corresponds_bare (s : Scope) :
    s.Corresponds s (fun _ _ => True) Tree.SameShape where
  toCongruent := s.congruent_bare
  primitive {loc loc'} _ name _ _ h := by
    have inner : Tree.SameShape .expr (s.libraryCall loc name _) (s.libraryCall loc' name _) :=
      s.congruent_bare.libraryCall trivial name h
    rw [Scope.primitive, Scope.primitive, Scope.nullable, Scope.nullable]
    split
    · exact s.congruent_bare.libraryCall trivial "n" (.cons inner .nil)
    · exact inner

/-! ### Spellings -/

namespace Reflection

open TypeExpr

variable (s : Scope)

/-- Types with reflections that differ in marks at most. -/
abbrev Like (t t' : TypeExpr) : Prop :=
  Agrees (fun _ _ => True) Tree.SameShape s.reflectUnder s.reflectUnder t t'

variable {s}

theorem Like.of_parts {t t'} (h : TypeRelated (fun _ _ => True) Tree.SameShape (Like s) t t') :
    Like s t t' := by
  intro bound
  rw [s.reflectUnder_eq bound t, s.reflectUnder_eq bound t']
  exact Agrees.step s.corresponds_bare h bound

/-! ### Texts of parts -/

theorem forall₂_of_map {α β : Type} {f : α → β} {R : α → α → Prop} {xs ys : List α}
    (same : xs.map f = ys.map f) (h : ∀ x ∈ xs, ∀ y ∈ ys, f x = f y → R x y) : Forall₂ R xs ys := by
  induction xs generalizing ys with
  | nil =>
    cases ys with
    | nil => exact .nil
    | cons _ _ => cases same
  | cons x xs ih =>
    cases ys with
    | nil => cases same
    | cons y ys =>
      obtain ⟨first, rest⟩ := List.cons.inj same
      exact .cons (h x mem_cons_self y mem_cons_self first) (ih rest fun x hx y hy =>
        h x (mem_cons_of_mem _ hx) y (mem_cons_of_mem _ hy))

variable {T : TypeExpr → TypeExpr → Prop}

theorem option_of_map {x y : Option TypeExpr} (same : x.map text = y.map text)
    (each : ∀ t ∈ x, ∀ u ∈ y, text t = text u → T t u) : Option.Rel T x y := by
  cases x with
  | none =>
    cases y with
    | none => exact .none
    | some _ => cases same
  | some t =>
    cases y with
    | none => cases same
    | some u => exact .some (each t rfl u rfl (Option.some.inj same))

/-- A question mark is seen after what does not show one. -/
theorem optional_inj {a b : String} (ha : Lacks '?' a) (hb : Lacks '?' b) {x y : Bool}
    (same : a ++ (if x then "?" else "") = b ++ (if y then "?" else "")) : a = b ∧ x = y := by
  have lead (x : Bool) : (if x then "?" else "") =
      Text.lead ("" ++ "?" ++ "") (if x then some "" else none) := by
    cases x <;> rfl
  rw [lead, lead] at same
  obtain ⟨front, flags⟩ := lead_inj (separates rfl (by decide)) .empty ha hb same
  refine ⟨front, ?_⟩
  cases x <;> cases y <;> first | rfl | cases flags

theorem front_inj {f g : SigParamForm} (hf : isIdentifier f.name = true)
    (hg : isIdentifier g.name = true) (same : f.front = g.front) : f = g := by
  have lacks {f : SigParamForm} (hf : isIdentifier f.name = true) :
      Lacks '?' ((if f.rest then "..." else "") ++ f.name) :=
    (Lacks.ite ⟨_, .word (by decide), by decide⟩ _).append (lacks_identifier hf (by decide))
  have undotted (w : String) : isIdentifier ("..." ++ w) = false := by
    rw [isIdentifier, String.toList_append]
    rfl
  obtain ⟨name, optional, rest⟩ := f
  obtain ⟨name', optional', rest'⟩ := g
  obtain ⟨front, rfl⟩ := optional_inj (lacks hf) (lacks hg) same
  cases rest <;> cases rest' <;> simp at front <;> subst front <;> simp_all

/-- Parameters with one text are related. -/
theorem sigParam_of_text {p p' : SigParam} (h : p.Clear)
    (h' : p'.Clear) (same : p.render = p'.render)
    (each : ∀ t ∈ SigParam.type? p, ∀ u ∈ SigParam.type? p', text t = text u → T t u) :
    SigParam.Related (fun _ _ => True) T p p' := by
  match p, p', h, h', each with
  | SigParam.mk mark form t, SigParam.mk mark' form' t', h, h', each =>
    rw [SigParam.render_mk, SigParam.render_mk] at same
    obtain ⟨front, types⟩ := lead_inj (p := "") (q := " ") (separates (s := ":") rfl (by decide))
      .empty (SigParamForm.lacks_front h.root (by decide))
      (SigParamForm.lacks_front h'.root (by decide)) same
    obtain rfl := front_inj h.root h'.root front
    exact .mk trivial (option_of_map types each)

/-- Type parameters with one text are related. -/
theorem typeParam_of_text {p p' : TypeParam} (h : p.Clear)
    (h' : p'.Clear) (same : p.render = p'.render)
    (each : ∀ t ∈ TypeParam.constraint? p, ∀ u ∈ TypeParam.constraint? p',
      text t = text u → T t u) :
    TypeParam.Related (fun _ _ => True) T p p' := by
  match p, p', h, h', each with
  | TypeParam.mk mark name t d, TypeParam.mk mark' name' t' d', h, h', each =>
    rw [TypeParam.render_mk, TypeParam.render_mk] at same
    have equals : Separates "= " '=' :=
      separates_pair rfl (by decide) (by simp [Scan.read, Scan.step, Scan.plain, Scan.emit])
    have bounded {name : String} {t d : Maybe .type} {mark : Mark}
        (h : (TypeParam.mk mark name t d).Clear) :
        Lacks '=' (name ++ leadText " extends " t) :=
      (lacks_identifier h.root (by decide)).append (lacks_lead ⟨_, .word (by decide), by decide⟩
        (fun u hu => ((Tree.shown h).parts.1.toOption u hu).root) (by decide))
    obtain ⟨front, -⟩ := lead_inj (p := " ") (q := "") equals
      ⟨_, .word (by decide), by decide⟩ (bounded h) (bounded h') same
    obtain ⟨rfl, types⟩ := lead_inj (p := "") (q := "extends ")
      (separates (s := " ") rfl (by decide)) .empty
      (lacks_identifier h.root (by decide)) (lacks_identifier h'.root (by decide)) front
    exact .mk trivial (option_of_map types each)

/-- A text that shows no bracket of a signature. -/
def Unbracketed (a : String) : Prop := Lacks '(' a ∧ Lacks '<' a

theorem unbracketed_words {a : String} (h : ∀ c ∈ a.toList, isNumeralPart c = true ∨ c = ' ') :
    Unbracketed a := by
  have other : ∀ d ∈ ['(', '<'], ¬(isNumeralPart d = true ∨ d = ' ') := by decide
  exact ⟨⟨_, .words h, fun mem => other _ (by decide) (h _ mem)⟩,
    ⟨_, .words h, fun mem => other _ (by decide) (h _ mem)⟩⟩

section

variable {a b : String} {tps tps' : Maybe (.many .typeParam)} {ps ps' : Many .sigParam}

/-- Signatures whose type parameters and parameters have one text. -/
def SameSignature (tps tps' : Maybe (.many .typeParam)) (ps ps' : Many .sigParam) : Prop :=
  tps.toLists.map Tree.render = tps'.toLists.map Tree.render ∧
    ps.toList.map Tree.render = ps'.toList.map Tree.render

variable (ht : tps.Clear) (ht' : tps'.Clear) (hp : ps.Clear) (hp' : ps'.Clear)

include ht ht' hp hp'

/-- Type parameters and parameters are told apart from what is before them. -/
theorem signature_inj (ha : Unbracketed a) (hb : Unbracketed b)
    (same : a ++ typeParamsText tps ++ paramsText ps = b ++ typeParamsText tps' ++ paramsText ps') :
    a = b ∧ SameSignature tps tps' ps ps' := by
  have comma : Separates "," ',' := separates rfl (by decide)
  have angle (tps : Maybe (.many .typeParam)) : typeParamsText tps =
      Text.lead ("" ++ "<" ++ "") (if tps.toLists.isEmpty then none
        else some (Text.commas (tps.toLists.map Tree.render) ++ ">")) := by
    rw [typeParamsText]
    split
    · rfl
    · simp only [Text.lead, String.append_assoc]
      rfl
  have lacks {tps : Maybe (.many .typeParam)} (ht : tps.Clear) : Lacks '(' (typeParamsText tps) :=
    ⟨_, spans_typeParams (Tree.shown ht), by split <;> decide⟩
  have round (ps : Many .sigParam) : paramsText ps =
    "(" ++ (Text.commas (ps.toList.map Tree.render) ++ ")") := String.append_assoc
  rw [round, round] at same
  obtain ⟨front, params⟩ := (ha.1.append (lacks ht)).cut (hb.1.append (lacks ht'))
    (separates rfl (by decide)) same
  rw [angle, angle] at front
  obtain ⟨first, lists⟩ := lead_inj (separates rfl (by decide)) .empty ha.2 hb.2 front
  refine ⟨first, ?_, ?_⟩
  · split at lists <;> split at lists
    · simp_all
    · cases lists
    · cases lists
    · exact intercalate_inj (p := "") (q := " ") comma .empty
        (forall_mem_map.2 fun p hp => (Tree.shown (ht.toLists p hp)).root)
        (forall_mem_map.2 fun p hp => (Tree.shown (ht'.toLists p hp)).root)
        ((String.append_left_inj _).1 (Option.some.inj lists))
  · exact intercalate_inj (p := "") (q := " ") comma .empty
      (forall_mem_map.2 fun p hq => (Tree.shown (hp.toList p hq)).root)
      (forall_mem_map.2 fun p hq => (Tree.shown (hp'.toList p hq)).root)
      ((String.append_left_inj _).1 params)

/-- Functions with parts of one text are related. -/
theorem function_of_text {r r' : Option TypeExpr} (same : SameSignature tps tps' ps ps')
    (result : r.map text = r'.map text)
    (each : ∀ t ∈ MemberEntry.functionTypes tps.toLists ps.toList r,
      ∀ u ∈ MemberEntry.functionTypes tps'.toLists ps'.toList r', text t = text u → T t u) :
    FunctionRelated (fun _ _ => True) T tps tps' ps ps' r r' := by
  refine ⟨forall₂_of_map same.1 fun p hq p' hq' same => ?_,
    forall₂_of_map same.2 fun p hq p' hq' same => ?_, option_of_map result fun t h u h' => ?_⟩
  · exact typeParam_of_text (ht.toLists p hq) (ht'.toLists p' hq') same fun t h u h' =>
      each t (mem_append_left _ (mem_filterMap.2 ⟨p, hq, h⟩)) u
        (mem_append_left _ (mem_filterMap.2 ⟨p', hq', h'⟩))
  · exact sigParam_of_text (hp.toList p hq) (hp'.toList p' hq') same fun t h u h' =>
      each t (mem_append_right _ (mem_append_left _ (mem_filterMap.2 ⟨p, hq, h⟩))) u
        (mem_append_right _ (mem_append_left _ (mem_filterMap.2 ⟨p', hq', h'⟩)))
  · exact each t (mem_append_right _ (mem_append_right _ (Option.mem_toList.2 h))) u
      (mem_append_right _ (mem_append_right _ (Option.mem_toList.2 h')))

end

theorem isStart_of_startsNumeral {c : Char} {cs : List Char} (h : startsNumeral (c :: cs) = true) :
    isStart c = false := by
  have digits : ∀ n < 58, 48 ≤ n → isStart (Char.ofNat n) = false := by decide
  rw [startsNumeral.eq_def] at h
  split at h
  case h_1 same =>
    obtain ⟨rfl, -⟩ := List.cons.inj same
    rfl
  case h_2 same =>
    obtain ⟨rfl, -⟩ := List.cons.inj same
    rfl
  case h_3 same =>
    obtain ⟨rfl, -⟩ := List.cons.inj same
    simp only [Char.isDigit, Bool.and_eq_true, decide_eq_true_eq, ge_iff_le, UInt32.le_iff_toNat_le]
      at h
    have other := digits c.toNat (Nat.lt_succ_of_le h.2) h.1
    rwa [Char.ofNat_toNat] at other
  case h_4 => cases h

/-- The string that a text quotes. -/
def valueOf (w : String) : String := .ofList ((unquote w.toList.tail).elim [] Prod.fst)

theorem valueOf_quote (value : String) :
    (Json.quote value).toList.head? = some '"' ∧ valueOf (Json.quote value) = value := by
  obtain ⟨text, back⟩ := unquote_quote value []
  rw [append_nil] at text
  simp [valueOf, text, back]

/-- The key that a text spells. -/
def keyOf (w : String) : TypeKey :=
  if w.toList.head? = some '"' then .str (valueOf w)
  else if w.toList.head?.any isStart then .ident w else .num w

theorem head_of_isNumeral {w : String} (h : isNumeral w = true) :
    ∃ c cs, w.toList = c :: cs ∧ c ≠ '"' ∧ isStart c = false := by
  rw [isNumeral, Bool.and_eq_true] at h
  cases chars : w.toList with
  | nil =>
    rw [chars] at h
    cases h.1
  | cons c cs =>
    rw [chars] at h
    refine ⟨c, cs, rfl, ?_, isStart_of_startsNumeral h.1⟩
    rintro rfl
    cases h.1

theorem keyOf_render {k : TypeKey} (h : TypeKey.isLegible k = true) : keyOf k.render = k := by
  match k, h with
  | .ident name, h =>
    obtain ⟨c, cs, chars, first, -⟩ := toList_of_isIdentifier h
    change keyOf name = _
    have quote : c ≠ '"' := by
      rintro rfl
      cases first
    simp [keyOf, chars, first, quote]
  | .num digits, h =>
    obtain ⟨c, cs, chars, quote, first⟩ := head_of_isNumeral h
    change keyOf digits = _
    simp [keyOf, chars, first, quote]
  | .str value, _ =>
    obtain ⟨head, back⟩ := valueOf_quote value
    change keyOf (Json.quote value) = _
    rw [keyOf, if_pos head, back]
  | .computed _, h => cases h

theorem key_of_text {k k' : TypeKey} (h : k.Clear)
    (h' : k'.Clear) (same : k.render = k'.render) : k = k' := by
  rw [← keyOf_render h.root, same, keyOf_render h'.root]

theorem key_related (key : TypeKey) : KeyRelated (fun _ _ => True) Tree.SameShape key key := by
  intro loc loc' _
  have M := Scope.corresponds_bare {}
  match key with
  | TypeKey.ident name => exact M.str trivial name
  | TypeKey.str value => exact M.str trivial value
  | TypeKey.num digits => exact M.numeral trivial digits
  | TypeKey.computed _ => rfl

theorem item_slot {k : TypeKey} {c : Char} (h : k.Clear) (optional : Bool)
    (hc : (isNumeralPart c || c == '"' || c == '?') = false) :
    Item c (TypeMember.slot k optional) := by
  obtain ⟨v, e, spans, parts⟩ := (Tree.shown h).root
  simp only [Bool.or_eq_false_iff, beq_eq_false_iff_ne] at hc
  refine ⟨Lacks.append ⟨_, spans, fun mem => ?_⟩ (.ite ⟨_, .word (by decide), ?_⟩ _),
    fun none => ?_⟩
  · exact (parts c mem).elim (by simp [hc]) hc.1.2
  · simpa using hc.2
  · rw [(String.append_eq_empty_iff.1 none).1] at spans
    simpa using spans.unique .empty

theorem slot_inj {k k' : TypeKey} (h : k.Clear) (h' : k'.Clear)
    {x y : Bool} (same : TypeMember.slot k x = TypeMember.slot k' y) : k = k' ∧ x = y := by
  have lacks {k : TypeKey} (h : k.Clear) : Lacks '?' k.render := by
    obtain ⟨v, e, spans, parts⟩ := (Tree.shown h).root
    exact ⟨_, spans, fun mem => absurd (parts _ mem) (by decide)⟩
  obtain ⟨keys, flags⟩ := optional_inj (lacks h) (lacks h') same
  exact ⟨key_of_text h h' keys, flags⟩

theorem unbracketed_slot {k : TypeKey} (h : k.Clear) (optional : Bool) :
    Unbracketed (TypeMember.slot k optional) :=
  ⟨(item_slot h optional (by decide)).1, (item_slot h optional (by decide)).1⟩

/-- Some words `readonly`. -/
def readonlys : Nat → String
  | 0 => ""
  | k + 1 => "readonly " ++ readonlys k

theorem flag_readonly (readonly : Bool) :
    Text.flag readonly "readonly" = readonlys readonly.toNat := by
  cases readonly <;> rfl

theorem unmodified {a : String} (h : Lacks ' ' a) (r : String) : a ≠ "readonly " ++ r := by
  have ne := h.ne (a := "readonly") (s := " ") ⟨_, .word (by decide), by decide⟩
    (separates rfl (by decide)) r
  rwa [← String.append_assoc] at ne

/-- It is seen how often `readonly` comes before what does not start with it. -/
theorem readonlys_inj {a b : String} (ha : ∀ r, a ≠ "readonly " ++ r)
    (hb : ∀ r, b ≠ "readonly " ++ r) :
    {k l : Nat} → readonlys k ++ a = readonlys l ++ b → k = l ∧ a = b
  | 0, 0, same => ⟨rfl, by simpa [readonlys] using same⟩
  | 0, l + 1, same => (ha _ (by simpa [readonlys, String.append_assoc] using same)).elim
  | k + 1, 0, same => (hb _ (by simpa [readonlys, String.append_assoc] using same.symm)).elim
  | k + 1, l + 1, same => by
    obtain ⟨rfl, rest⟩ := readonlys_inj ha hb (k := k) (l := l)
      (by simpa [readonlys, String.append_assoc] using same)
    exact ⟨rfl, rest⟩

/-- Members with one text are related. -/
theorem member_of_text {m m' : TypeMember} (h : m.Clear)
    (h' : m'.Clear) (same : m.render = m'.render)
    (each : ∀ t ∈ (MemberEntry.ofMember m).types, ∀ u ∈ (MemberEntry.ofMember m').types,
      text t = text u → T t u) :
    EntryRelated (fun _ _ => True) Tree.SameShape T (.ofMember m) (.ofMember m') := by
  have shows {m : TypeMember} (h : m.Clear) :
      ∃ v c, Spans (TypeMember.front m) (v ++ [c]) ∧ (∀ d ∈ v ++ [c], d ∉ [':', ';']) ∧
        (if c ∈ ['(', '['] then some c else none) = TypeMember.bracket? m := by
    match m, h with
    | .node (c := .typeMember) form marks ts, h =>
      exact TypeMember.shows_front h.root (Tree.shown h).parts
  obtain ⟨v, c, spans, free, mark⟩ := shows h
  obtain ⟨v', c', spans', free', mark'⟩ := shows h'
  rw [TypeMember.render_eq, TypeMember.render_eq] at same
  obtain ⟨front, types⟩ := lead_inj (p := "") (q := " ") (separates (s := ":") rfl (by decide))
    .empty ⟨_, spans, fun mem => free _ mem (by decide)⟩
    ⟨_, spans', fun mem => free' _ mem (by decide)⟩ same
  rw [← front] at spans'
  obtain ⟨-, last⟩ := append_inj' (spans.unique spans') rfl
  obtain rfl : c = c' := by simpa using last
  rw [mark] at mark'
  clear spans spans' free free' same mark shows
  have words : Unbracketed "new " ∧ Unbracketed "" :=
    ⟨unbracketed_words (by decide), unbracketed_words (by decide)⟩
  have named {k : TypeKey} (hk : k.Clear) (optional : Bool) :
      TypeMember.slot k optional ≠ "" ∧ TypeMember.slot k optional ≠ "new " := by
    have item := item_slot (c := ' ') hk optional (by decide)
    exact ⟨item.2, item.1.ne (a := "new") (s := " ") ⟨_, .word (by decide), by decide⟩
      (separates rfl (by decide)) ""⟩
  match m, m', h, h', each, front, types, mark' with
  | .property _ readonly x k _, .property _ readonly' y k' _, h, h', each, front, types, _ =>
    rw [TypeMember.front, TypeMember.front, flag_readonly, flag_readonly] at front
    obtain ⟨-, slots⟩ := readonlys_inj (unmodified (item_slot h.parts.1 x (by decide)).1)
      (unmodified (item_slot h'.parts.1 y (by decide)).1) front
    obtain ⟨rfl, rfl⟩ := slot_inj h.parts.1 h'.parts.1 slots
    exact ⟨.property trivial (key_related k) (option_of_map types fun t ht u hu =>
      each t (Option.mem_toList.2 ht) u (Option.mem_toList.2 hu)), rfl⟩
  | .method _ x k _ _ _, .method _ y k' _ _ _, h, h', each, front, types, _ =>
    obtain ⟨hk, ht, hp, -⟩ := h.parts
    obtain ⟨hk', ht', hp', -⟩ := h'.parts
    obtain ⟨slots, parts⟩ := signature_inj ht ht' hp hp' (unbracketed_slot hk x)
      (unbracketed_slot hk' y) front
    obtain ⟨rfl, rfl⟩ := slot_inj hk hk' slots
    exact ⟨.method trivial (key_related k) (function_of_text ht ht' hp hp' parts types each), rfl⟩
  | .call _ _ _ _, .call _ _ _ _, h, h', each, front, types, _ =>
    obtain ⟨ht, hp, -⟩ := h.parts
    obtain ⟨ht', hp', -⟩ := h'.parts
    obtain ⟨-, parts⟩ := signature_inj ht ht' hp hp' words.2 words.2 front
    exact ⟨.call trivial (function_of_text ht ht' hp hp' parts types each), rfl⟩
  | .construct _ _ _ _, .construct _ _ _ _, h, h', each, front, types, _ =>
    obtain ⟨ht, hp, -⟩ := h.parts
    obtain ⟨ht', hp', -⟩ := h'.parts
    obtain ⟨-, parts⟩ := signature_inj ht ht' hp hp' words.1 words.1 front
    exact ⟨.construct trivial (function_of_text ht ht' hp hp' parts types each), rfl⟩
  | .index _ readonly _ key value, .index _ readonly' _ key' value', h, h', each, front,
      types, _ =>
    have flags (readonly : Bool) : Lacks '[' (Text.flag readonly "readonly") :=
      .ite ⟨_, .word (by decide), by decide⟩ _
    obtain ⟨-, inside⟩ := (flags readonly).cut (flags readonly') (separates rfl (by decide)) front
    obtain ⟨rfl, keys⟩ := lead_inj (p := "") (q := " ") (separates (s := ":") rfl (by decide))
      .empty (lacks_identifier h.root (by decide))
      (lacks_identifier h'.root (by decide)) ((String.append_left_inj _).1 inside)
    exact ⟨.index trivial (each key mem_cons_self key' mem_cons_self (Option.some.inj keys))
      (each value (mem_cons_of_mem _ mem_cons_self) value' (mem_cons_of_mem _ mem_cons_self)
        (Option.some.inj types)), rfl⟩
  | .method _ x _ _ _ _, .call _ _ _ _, h, h', _, front, _, _ =>
    obtain ⟨hk, ht, hp, -⟩ := h.parts
    obtain ⟨ht', hp', -⟩ := h'.parts
    exact ((named hk x).1 (signature_inj ht ht' hp hp' (unbracketed_slot hk x) words.2 front).1).elim
  | .method _ x _ _ _ _, .construct _ _ _ _, h, h', _, front, _, _ =>
    obtain ⟨hk, ht, hp, -⟩ := h.parts
    obtain ⟨ht', hp', -⟩ := h'.parts
    exact ((named hk x).2 (signature_inj ht ht' hp hp' (unbracketed_slot hk x) words.1 front).1).elim
  | .call _ _ _ _, .method _ x _ _ _ _, h, h', _, front, _, _ =>
    obtain ⟨ht, hp, -⟩ := h.parts
    obtain ⟨hk, ht', hp', -⟩ := h'.parts
    exact ((named hk x).1 (signature_inj ht ht' hp hp' words.2 (unbracketed_slot hk x)
      front).1.symm).elim
  | .construct _ _ _ _, .method _ x _ _ _ _, h, h', _, front, _, _ =>
    obtain ⟨ht, hp, -⟩ := h.parts
    obtain ⟨hk, ht', hp', -⟩ := h'.parts
    exact ((named hk x).2 (signature_inj ht ht' hp hp' words.1 (unbracketed_slot hk x)
      front).1.symm).elim
  | .call _ _ _ _, .construct _ _ _ _, h, h', _, front, _, _ =>
    exact absurd (signature_inj h.parts.1 h'.parts.1 h.parts.2.1 h'.parts.2.1 words.2 words.1
      front).1 (by decide)
  | .construct _ _ _ _, .call _ _ _ _, h, h', _, front, _, _ =>
    exact absurd (signature_inj h.parts.1 h'.parts.1 h.parts.2.1 h'.parts.2.1 words.1 words.2
      front).1 (by decide)

/-! ### Texts of types -/

theorem readonlys_append (k : Nat) (readonly : Bool) :
    readonlys k ++ Text.flag readonly "readonly" = readonlys (k + readonly.toNat) := by
  induction k with
  | zero => cases readonly <;> rfl
  | succ k ih =>
    rw [readonlys, String.append_assoc, ih, Nat.add_right_comm]
    rfl

theorem unmodified_head {a : String} (h : a.toList.head? ≠ some 'r') (r : String) :
    a ≠ "readonly " ++ r := by
  rintro rfl
  rw [String.toList_append] at h
  exact h rfl

/-- The kind of a type is seen after `readonly`. -/
theorem shows_readonlys {a : String} {u : List Char} {kind : TypeKind} (hu : Spans a u)
    (h : kind.Shows u) (k : Nat) : ∃ v, Spans (readonlys k ++ a) v ∧ kind.Shows v := by
  induction k with
  | zero => exact ⟨u, by simpa [readonlys] using hu, h⟩
  | succ k ih =>
    obtain ⟨v, hv, ended, quiet, of⟩ := ih
    rw [readonlys, String.append_assoc]
    exact ⟨_, Spans.append (.word (by decide)) hv, ended.append _,
      forall_mem_append.2 ⟨by decide, quiet⟩, (TypeKind.of_append (by decide) rfl ended).trans of⟩

theorem not_isReserved_of_isName {n : EntityName} (h : isName n = true) :
    isReserved n.text = false := by
  match n, h with
  | .ident w, h =>
    obtain ⟨-, -, -, -, -, free⟩ := toList_of_isIdentifier h
    exact free
  | .qualified left w, _ =>
    -- A word that is a type of its own has no dots.
    have dotted : '.' ∈ (EntityName.qualified left w).text.toList := by simp [EntityName.text]
    rw [Bool.eq_false_iff]
    intro reserved
    simp only [isReserved, Bool.or_eq_true, beq_iff_eq, Option.isSome_iff_exists] at reserved
    rcases reserved with (⟨k, hk⟩ | same) | same
    · have same := find?_some hk
      rw [beq_iff_eq] at same
      rw [← same] at dotted
      revert dotted
      cases k <;> decide
    · rw [same] at dotted
      revert dotted
      decide
    · rw [same] at dotted
      revert dotted
      decide

/-- The word that a type of one word is written with. -/
def wordOf : TypeForm → String
  | .keyword k => k.text
  | .literal value => value.text
  | .query name => "typeof " ++ name.text
  | .reference name => name.text
  | _ => ""

/-- The form of a type that is written with a word. -/
def formOf (w : String) : TypeForm :=
  if w.toList.head? = some '"' then .literal (.str (valueOf w))
  else if ' ' ∈ w.toList then .query (name (w.toList.drop 7))
  else if w = "true" then .literal (.bool true)
  else if w = "false" then .literal (.bool false)
  else match keyword? w with
    | some k => .keyword k
    | none => if w.toList.head?.any isStart then .reference (name w.toList) else .literal (.num w)

theorem formOf_word {t : TypeExpr} (h : isLegible t = true)
    (kind : TypeForm.kind t.form = .word) :
    formOf (wordOf t.form) = t.form ∧ Lacks '<' (wordOf t.form) ∧
      ∀ r, wordOf t.form ≠ "readonly " ++ r := by
  have plain {w : String} (parts : ∀ c ∈ w.toList, isNumeralPart c = true) :
      Lacks '<' w ∧ (∀ r, w ≠ "readonly " ++ r) ∧ w.toList.head? ≠ some '"' ∧ ' ' ∉ w.toList :=
    ⟨lacks_word parts (by decide), unmodified (lacks_word parts (by decide)),
      fun head => absurd (parts _ (mem_of_mem_head? head)) (by decide),
      fun mem => absurd (parts _ mem) (by decide)⟩
  match t, h, kind with
  | .keyword _ k, _, _ =>
    change formOf k.text = .keyword k ∧ Lacks '<' k.text ∧ ∀ r, k.text ≠ "readonly " ++ r
    have parts : ∀ c ∈ k.text.toList, isNumeralPart c = true := by cases k <;> decide
    exact ⟨by cases k <;> rfl, (plain parts).1, (plain parts).2.1⟩
  | .literal _ (.bool b), _, _ =>
    cases b with
    | true =>
      obtain ⟨lacks, first, -⟩ := plain (w := "true") (by decide)
      exact ⟨(by simp [formOf] : formOf "true" = .literal (.bool true)), lacks, first⟩
    | false =>
      obtain ⟨lacks, first, -⟩ := plain (w := "false") (by decide)
      exact ⟨(by simp [formOf] : formOf "false" = .literal (.bool false)), lacks, first⟩
  | .literal _ (.str value), _, _ =>
    obtain ⟨head, back⟩ := valueOf_quote value
    change formOf (Json.quote value) = .literal (.str value) ∧ Lacks '<' (Json.quote value) ∧
      ∀ r, Json.quote value ≠ "readonly " ++ r
    refine ⟨by rw [formOf, if_pos head, back], ⟨_, .quote value, by decide⟩, unmodified_head ?_⟩
    rw [head]
    decide
  | .literal _ (.num w), h, _ =>
    obtain ⟨lacks, first, quote, space⟩ := plain (word_of_isNumeral h).1
    obtain ⟨c, cs, chars, -, head⟩ := head_of_isNumeral h
    refine ⟨?_, lacks, first⟩
    change formOf w = .literal (.num w)
    have word (v : String) (hv : isNumeral v = false) : w ≠ v := by
      rintro rfl
      cases hv.symm.trans h
    have other : keyword? w = none := by
      rw [Option.eq_none_iff_forall_ne_some]
      intro k hk
      have same := find?_some hk
      exact word k.text (by cases k <;> rfl) (beq_iff_eq.1 same).symm
    rw [formOf, if_neg quote, if_neg space, if_neg (word "true" rfl), if_neg (word "false" rfl),
      other]
    simp [chars, head]
  | .query _ n, h, _ =>
    have chars : ("typeof " ++ n.text).toList = "typeof ".toList ++ n.text.toList :=
      String.toList_append
    have head : ("typeof " ++ n.text).toList.head? = some 't' := by
      rw [chars]
      rfl
    refine ⟨?_, Lacks.append ⟨_, .word (by decide), by decide⟩ (lacks_word (word_of_isName h).1
      (by decide)), unmodified_head (head ▸ by decide)⟩
    change formOf ("typeof " ++ n.text) = .query n
    rw [formOf, if_neg (head ▸ by decide), if_pos (by simp [chars]), chars]
    exact congrArg TypeForm.query (name_text h)
  | .reference _ n args, h, _ =>
    have h : isName n = true := h
    obtain ⟨lacks, first, quote, space⟩ := plain (word_of_isName h).1
    obtain ⟨c, cs, chars, start, -⟩ := toList_of_isName h
    have free := not_isReserved_of_isName h
    simp only [isReserved, Bool.or_eq_false_iff, Option.isSome_eq_false_iff,
      Option.isNone_iff_eq_none, beq_eq_false_iff_ne] at free
    refine ⟨?_, lacks, first⟩
    change formOf n.text = .reference n
    rw [formOf, if_neg quote, if_neg space, if_neg free.1.2, if_neg free.2, free.1.1]
    simp only [chars, head?_cons, Option.any_some, start, if_true]
    rw [← chars, name_text h]

/-- Texts that are equal but for how often they say `readonly` in front. -/
def SameText (a b : String) : Prop := ∃ k l, readonlys k ++ a = readonlys l ++ b

theorem SameText.of_eq {a b : String} (h : a = b) : SameText a b := ⟨0, 0, congrArg _ h⟩

theorem SameText.eq {a b : String} {c : Char} (ha : a.toList.head? = some c)
    (hb : b.toList.head? = some c) (hc : c ≠ 'r') (same : SameText a b) : a = b := by
  obtain ⟨k, l, same⟩ := same
  have first {a : String} (ha : a.toList.head? = some c) : a.toList.head? ≠ some 'r' := by
    rw [ha]
    exact fun same => hc (Option.some.inj same)
  exact (readonlys_inj (unmodified_head (first ha)) (unmodified_head (first hb)) same).2

theorem text_of_parens {a b : String} (same : SameText (Text.parens a) (Text.parens b)) :
    a = b := by
  have same := same.eq (c := '(') (by simp [Text.parens]) (by simp [Text.parens]) (by decide)
  exact (String.append_right_inj _).1 ((String.append_left_inj _).1 same)

theorem kind_of_text {t t' : TypeExpr} (h : t.Clear)
    (h' : t'.Clear) (same : SameText (text t) (text t')) :
    TypeForm.kind t.form = TypeForm.kind t'.form := by
  obtain ⟨k, l, same⟩ := same
  obtain ⟨u, hu, shows⟩ := (Tree.shown h).root
  obtain ⟨u', hu', shows'⟩ := (Tree.shown h').root
  obtain ⟨v, hv, shown⟩ := shows_readonlys hu shows k
  obtain ⟨v', hv', shown'⟩ := shows_readonlys hu' shows' l
  rw [same] at hv
  rw [← shown.kind, ← shown'.kind, hv.unique hv']

theorem words_readonlys (k : Nat) :
    ∀ c ∈ (readonlys k).toList, isNumeralPart c = true ∨ c = ' ' := by
  induction k with
  | zero => nofun
  | succ k ih =>
    rw [readonlys, String.toList_append]
    exact forall_mem_append.2 ⟨by decide, ih⟩

theorem lacks_readonlys {c : Char} (hc : (isNumeralPart c || c == ' ') = false) (k : Nat) :
    Lacks c (readonlys k) := by
  refine ⟨_, .words (words_readonlys k), fun mem => ?_⟩
  simp only [Bool.or_eq_false_iff, beq_eq_false_iff_ne] at hc
  exact (words_readonlys k c mem).elim (by simp [hc.1]) hc.2

theorem item_of_spans {a : String} {c : Char} {u : List Char} (hu : Spans a u) (ended : Ended u)
    (free : c ∉ u) : Item c a := by
  refine ⟨⟨u, hu, free⟩, ?_⟩
  rintro rfl
  obtain ⟨v, d, rfl, -⟩ := ended
  simpa using hu.unique .empty

/-- Lists of types with one text have types with one text. -/
theorem types_of_text {xs ys : List TypeExpr} (hx : ∀ t ∈ xs, t.Clear)
    (hy : ∀ t ∈ ys, t.Clear)
    (same : Text.commas (xs.map text) = Text.commas (ys.map text))
    (each : ∀ t ∈ xs, ∀ u ∈ ys, text t = text u → T t u) : Forall₂ T xs ys := by
  have item {xs : List TypeExpr} (hx : ∀ t ∈ xs, t.Clear) :
      ∀ x ∈ xs.map text, Item ',' x := by
    refine forall_mem_map.2 fun t ht => ?_
    obtain ⟨u, hu, shows⟩ := (Tree.shown (hx t ht)).root
    exact item_of_spans hu shows.ended fun mem => shows.quiet _ mem (by decide)
  have comma : Separates "," ',' := separates rfl (by decide)
  exact forall₂_of_map (intercalate_inj (p := "") (q := " ") comma .empty (item hx)
    (item hy) same) each

/-- Operands with one text, but for `readonly` before the first. -/
theorem operands_of_text {o : String} {c : Char} (hs : o.toList = [c]) (hc : c ∈ ['|', '&'])
    {xs ys : List TypeExpr} (hx : ∀ t ∈ xs, t.Clear)
    (hy : ∀ t ∈ ys, t.Clear) (some : xs ≠ []) (some' : ys ≠ [])
    (same : SameText ((" " ++ o ++ " ").intercalate (xs.map operandText))
      ((" " ++ o ++ " ").intercalate (ys.map operandText)))
    (each : ∀ t ∈ xs, ∀ u ∈ ys, SameText (operandText t) (operandText u) → T t u) :
    Forall₂ T xs ys := by
  have operator : ∀ d ∈ ['|', '&'], d ∈ ['>', '|', '&', ',', ';', ':', '='] ∧
    d ∉ ['=', ')', ']', '\x7d', '>'] ∧ (isNumeralPart d || d == ' ') = false ∧ d ≠ ' ' := by decide
  obtain ⟨loud, separating, other, space⟩ := operator c hc
  have items {k : Nat} {xs : List TypeExpr} (hx : ∀ t ∈ xs, t.Clear) :
      ∀ x ∈ xs.map fun t => readonlys k ++ operandText t, Item c x := by
    refine forall_mem_map.2 fun t ht => ?_
    obtain ⟨u, hu, ended, free⟩ := tight_operand (Tree.shown (hx t ht)).root
    obtain ⟨v, hv, quiet⟩ := lacks_readonlys other k
    exact item_of_spans (hv.append hu) (ended.append v)
      (by simpa [quiet] using fun mem => free c mem loud)
  have front (sep : String) (k : Nat) (x : String) (xs : List String) :
      readonlys k ++ sep.intercalate (x :: xs) = sep.intercalate ((readonlys k ++ x) :: xs) := by
    cases xs <;> simp [String.intercalate_cons_cons, String.append_assoc]
  obtain ⟨k, l, same⟩ := same
  match xs, ys, hx, hy, some, some', same, each with
  | x :: xs, y :: ys, hx, hy, _, _, same, each =>
    rw [map_cons, map_cons, front, front] at same
    have first := intercalate_inj (separates hs separating)
      ⟨_, .word (by decide), by simpa using space⟩
      (forall_mem_cons.2 ⟨items (k := k) hx _ mem_cons_self,
        by simpa [readonlys] using (forall_mem_cons.1 (items (k := 0) hx)).2⟩)
      (forall_mem_cons.2 ⟨items (k := l) hy _ mem_cons_self,
        by simpa [readonlys] using (forall_mem_cons.1 (items (k := 0) hy)).2⟩) same
    obtain ⟨head, tail⟩ := List.cons.inj first
    exact .cons (each x mem_cons_self y mem_cons_self ⟨k, l, head⟩)
      (forall₂_of_map tail fun t ht u hu same => each t (mem_cons_of_mem x ht) u
        (mem_cons_of_mem y hu) (.of_eq same))

/-- Types of a kind, from their parts. -/
def Made : TypeKind → TypeExpr → Prop
  | .callable, t => (∃ site tps ps r, t = .func site tps ps r) ∨
      ∃ site abstract tps ps r, t = .construct site abstract tps ps r
  | .union, t => ∃ site ts, t = .union site ts
  | .intersection, t => ∃ site ts, t = .intersection site ts
  | .tuple, t => ∃ site readonly ts, t = .tuple site readonly ts
  | .array, t => ∃ site readonly e, t = .array site readonly e
  | .object, t => ∃ site ms, t = .object site ms
  | .paren, t => ∃ site u, t = .paren site u
  | .word, _ => True

theorem made_of_kind {kind : TypeKind} {t : TypeExpr} (h : TypeForm.kind t.form = kind) :
    Made kind t := by
  subst h
  match t with
  | .func _ _ _ _ => exact .inl ⟨_, _, _, _, rfl⟩
  | .construct _ _ _ _ _ => exact .inr ⟨_, _, _, _, _, rfl⟩
  | .union _ _ | .intersection _ _ | .object _ _ | .paren _ _ => exact ⟨_, _, rfl⟩
  | .tuple _ _ _ | .array _ _ _ => exact ⟨_, _, _, rfl⟩
  | .keyword _ _ | .literal _ _ | .query _ _ | .reference _ _ _ | .operator _ _ _ | .indexed _ _ _
  | .conditional _ _ _ _ _ | .infer _ _ _ | .mapped _ _ _ _ | .predicate _ _ _ _ => trivial

/-- An operand is in parentheses, or its text is its own. -/
theorem operand_cases (s : Scope) {t : TypeExpr} (h : t.Clear) :
    (∃ u, operandText t = Text.parens (text u) ∧ u.Clear ∧
      u.height ≤ t.height ∧ ∀ bound, s.reflectUnder bound t = s.reflectUnder bound u) ∨
    operandText t = text t ∧ TypeForm.kind t.form ≠ .paren := by
  cases loose : t.form.isLoose with
  | true => exact .inl ⟨t, by rw [operandText, loose]; rfl, h, Nat.le_refl _, fun _ => rfl⟩
  | false =>
    have text : operandText t = text t := by
      rw [operandText, loose]
      rfl
    by_cases kind : TypeForm.kind t.form = .paren
    · obtain ⟨site, u, rfl⟩ := made_of_kind kind
      have lower : u.height < (TypeExpr.paren site u).height :=
        lt_height_node (mem_singleton_self _)
      refine .inl ⟨u, text, h.parts.1, Nat.le_of_lt lower, fun bound => ?_⟩
      rw [s.reflectUnder_eq]
      rfl
    · exact .inr ⟨text, kind⟩

/-- Operands with one text have one reflection, if types below them do. -/
theorem like_operand {t t' : TypeExpr} (h : t.Clear)
    (h' : t'.Clear)
    (lower : ∀ u, u.height ≤ t.height → u.Clear → ∀ u', u'.Clear →
      SameText (text u) (text u') → Like s u u')
    (same : SameText (operandText t) (operandText t')) : Like s t t' := by
  have paren {u : TypeExpr} (hu : u.Clear) :
      (TypeExpr.paren {} u).Clear :=
    Tree.everywhere_node.2 ⟨rfl, Children.everywhere_cons.2 ⟨hu, Children.everywhere_nil⟩⟩
  rcases operand_cases s h with ⟨u, text, hu, low, reflect⟩ | ⟨text, kind⟩
  · rcases operand_cases s h' with ⟨u', text', hu', -, reflect'⟩ | ⟨text', kind'⟩
    · intro bound
      rw [reflect, reflect']
      refine lower u low hu u' hu' (.of_eq ?_) bound
      rw [text, text'] at same
      exact text_of_parens same
    · rw [text, text'] at same
      exact (kind' (kind_of_text (paren hu) h' same).symm).elim
  · rcases operand_cases s h' with ⟨u', text', hu', -, reflect'⟩ | ⟨text', kind'⟩
    · rw [text, text'] at same
      exact (kind (kind_of_text h (paren hu') same)).elim
    · rw [text, text'] at same
      exact lower t (Nat.le_refl _) h t' h' same

/-- The type arguments of a reference. -/
def argsOf : TypeExpr → Maybe (.many .type)
  | .reference _ _ args => args
  | _ => .absent

theorem text_word {t : TypeExpr} (h : isLegible t = true)
    (kind : TypeForm.kind t.form = .word) :
    text t = wordOf t.form ++ Text.lead ("" ++ "<" ++ "") ((argsOf t).toOption.map
      fun ts => Text.commas (ts.toList.map text) ++ ">") := by
  match t, h, kind with
  | .keyword _ _, _, _ | .literal _ _, _, _ | .query _ _, _, _ => exact String.append_empty.symm
  | .reference _ name args, _, _ =>
    rw [text_reference]
    refine congrArg (name.text ++ ·) ?_
    match args with
    | .absent => rfl
    | .present ts => exact String.append_assoc

theorem args_inj {xs ys : Maybe (.many .type)}
    (same : xs.toOption.map (fun ts => Text.commas (ts.toList.map text) ++ ">") =
      ys.toOption.map (fun ts => Text.commas (ts.toList.map text) ++ ">")) :
    Text.commas (xs.toLists.map text) = Text.commas (ys.toLists.map text) := by
  match xs, ys with
  | .absent, .absent => rfl
  | .present _, .present _ => exact (String.append_left_inj _).1 (Option.some.inj same)
  | .absent, .present _ | .present _, .absent => cases same

/-- Types of one word with one text are related. -/
theorem word_of_text {t t' : TypeExpr} (h : t.Clear)
    (h' : t'.Clear) (kind : TypeForm.kind t.form = .word)
    (kind' : TypeForm.kind t'.form = .word) (same : SameText (text t) (text t'))
    (each : ∀ u ∈ (argsOf t).toLists, ∀ u' ∈ (argsOf t').toLists,
      text u = text u' → T u u') :
    TypeRelated (fun _ _ => True) Tree.SameShape T t t' := by
  obtain ⟨form, lacks, first⟩ := formOf_word h.root kind
  obtain ⟨form', lacks', first'⟩ := formOf_word h'.root kind'
  obtain ⟨k, l, same⟩ := same
  rw [text_word h.root kind, text_word h'.root kind', ← String.append_assoc, ← String.append_assoc]
    at same
  obtain ⟨words, args⟩ := lead_inj (separates rfl (by decide)) .empty
    ((lacks_readonlys (by decide) k).append lacks) ((lacks_readonlys (by decide) l).append lacks')
    same
  have forms : t.form = t'.form := by
    rw [← form, ← form', (readonlys_inj first first' words).2]
  clear same words form form' lacks lacks' first first' kind'
  match t, h.root, kind, forms, h, args, each with
  | .keyword _ k, _, _, forms, _, _, _ =>
    match t', forms with
    | .keyword _ k', forms =>
      obtain rfl : k = k' := TypeForm.keyword.inj forms
      exact .keyword trivial
  | .literal _ v, _, _, forms, _, _, _ =>
    match t', forms with
    | .literal _ v', forms =>
      obtain rfl : v = v' := TypeForm.literal.inj forms
      exact .literal trivial
  | .query _ n, _, _, forms, _, _, _ =>
    match t', forms with
    | .query _ n', forms =>
      obtain rfl : n = n' := TypeForm.query.inj forms
      exact .query trivial
  | .reference _ n xs, _, _, forms, h, args, each =>
    match t', forms, h', args, each with
    | .reference _ n' ys, forms, h', args, each =>
      obtain rfl : n = n' := TypeForm.reference.inj forms
      exact .reference trivial (types_of_text h.parts.1.toLists h'.parts.1.toLists
        (args_inj args) each)

/-- Function types with one text have parts with one text. -/
theorem callable_inj {a b : String} {tps tps' : Maybe (.many .typeParam)} {ps ps' : Many .sigParam}
    {r r' : TypeExpr} (ha : ∀ c ∈ a.toList, isNumeralPart c = true ∨ c = ' ')
    (hb : ∀ c ∈ b.toList, isNumeralPart c = true ∨ c = ' ') (ht : tps.Clear) (ht' : tps'.Clear)
    (hp : ps.Clear) (hp' : ps'.Clear)
    (same : SameText (a ++ typeParamsText tps ++ paramsText ps ++ " => " ++ text r)
      (b ++ typeParamsText tps' ++ paramsText ps' ++ " => " ++ text r')) :
    SameText a b ∧ SameSignature tps tps' ps ps' ∧ text r = text r' := by
  have words {a : String} (ha : ∀ c ∈ a.toList, isNumeralPart c = true ∨ c = ' ') (k : Nat) :
      ∀ c ∈ (readonlys k ++ a).toList, isNumeralPart c = true ∨ c = ' ' := by
    rw [String.toList_append]
    exact forall_mem_append.2 ⟨words_readonlys k, ha⟩
  have lacks {a : String} {tps : Maybe (.many .typeParam)} {ps : Many .sigParam}
      (ha : ∀ c ∈ a.toList, isNumeralPart c = true ∨ c = ' ')
      (ht : tps.Clear) (hp : ps.Clear) :
      Lacks '>' (a ++ typeParamsText tps ++ paramsText ps ++ " ") :=
    ((Lacks.append ⟨_, .words ha, fun mem => absurd (ha _ mem) (by decide)⟩
      ⟨_, spans_typeParams (Tree.shown ht), by split <;> decide⟩).append
      ⟨_, spans_params (Tree.shown hp), by decide⟩).append ⟨_, .word (by decide), by decide⟩
  have arrow : Separates "=>" '>' :=
    separates_pair rfl (by decide) (by simp [Scan.read, Scan.step, Scan.plain, Scan.emit])
  have apart (x : String) : " => " ++ x = " " ++ ("=>" ++ (" " ++ x)) := by
    rw [← String.append_assoc, ← String.append_assoc]
    rfl
  obtain ⟨k, l, same⟩ := same
  simp only [String.append_assoc, apart] at same
  obtain ⟨front, result⟩ := (lacks (words ha k) ht hp).cut (lacks (words hb l) ht' hp') arrow
    (by simpa only [String.append_assoc] using same)
  obtain ⟨first, parts⟩ := signature_inj ht ht' hp hp'
    (unbracketed_words (words ha k)) (unbracketed_words (words hb l))
    ((String.append_left_inj _).1 front)
  exact ⟨⟨k, l, first⟩, parts, (String.append_right_inj _).1 result⟩

theorem bracesOf_inj {xs ys : List String} (hx : ∀ x ∈ xs, Item ';' x) (hy : ∀ y ∈ ys, Item ';' y)
    (same : Text.bracesOf "; " xs = Text.bracesOf "; " ys) : xs = ys := by
  have empty (a : String) : Text.emptyBraces ≠ Text.braces a := by
    intro same
    have chars := congrArg String.toList same
    simp [Text.emptyBraces, Text.braces] at chars
  rw [Text.bracesOf, Text.bracesOf] at same
  split at same <;> split at same
  · simp_all
  · exact (empty _ same).elim
  · exact (empty _ same.symm).elim
  · exact intercalate_inj (p := "") (q := " ") (separates (s := ";") rfl (by decide))
      .empty hx hy ((String.append_right_inj _).1 ((String.append_left_inj _).1 same))

theorem merges_of_text :
    Merges (fun _ _ => True) (fun t t' => text t = text t' ∧ Like s t t')
      (Like s) where
  same h := h.2
  text h := h.1
  union {loc loc' ts ts'} _ h := by
    refine Like.of_parts (.union trivial ?_)
    rw [toList_ofList, toList_ofList]
    refine h.imp fun t t' related => ?_
    rcases related with related | ⟨rfl, rfl⟩
    · exact related.2
    · exact Like.of_parts (.keyword trivial)


section

variable {t t' : TypeExpr} (h : t.Clear) (h' : t'.Clear)
  (same : SameText (text t) (text t'))
  (lower : ∀ u, u.height < t.height → u.Clear → ∀ u', u'.Clear →
    SameText (text u) (text u') → Like s u u')

include h h' same lower

theorem like_word (kind : TypeForm.kind t.form = .word) (kind' : TypeForm.kind t'.form = .word) :
    Like s t t' := by
  have arg {t u : TypeExpr} (h : t.Clear) (hu : u ∈ (argsOf t).toLists) :
      u.height < t.height ∧ u.Clear := by
    match t, h, hu with
    | .reference _ _ _, h, hu =>
      exact ⟨Nat.lt_trans (height_lt_of_mem_toLists hu) (lt_height_node (mem_singleton_self _)),
        h.parts.1.toLists u hu⟩
  exact Like.of_parts (word_of_text h h' kind kind' same fun u hu u' hu' same =>
    lower u (arg h hu).1 (arg h hu).2 u' (arg h' hu').2 (.of_eq same))

theorem like_callable (kind : Made .callable t) (kind' : Made .callable t') : Like s t t' := by
  have none : ∀ c ∈ "".toList, isNumeralPart c = true ∨ c = ' ' := by decide
  have construct (abstract : Bool) : ∀ c ∈ (Text.flag abstract "abstract" ++ "new ").toList,
      isNumeralPart c = true ∨ c = ' ' := by cases abstract <;> decide
  have function (abstract : Bool) :
      ¬SameText "" (Text.flag abstract "abstract" ++ "new ") ∧
        ¬SameText (Text.flag abstract "abstract" ++ "new ") "" := by
    have first : ∀ r, Text.flag abstract "abstract" ++ "new " ≠ "readonly " ++ r :=
      unmodified_head (by cases abstract <;> decide)
    have some : Text.flag abstract "abstract" ++ "new " ≠ "" := by cases abstract <;> decide
    refine ⟨fun ⟨k, l, same⟩ => some ?_, fun ⟨k, l, same⟩ => some ?_⟩
    · exact (readonlys_inj (unmodified_head (by decide)) first same).2.symm
    · exact (readonlys_inj first (unmodified_head (by decide)) same).2
  have legible {tps : Maybe (.many .typeParam)} {ps : Many .sigParam} {r u : TypeExpr}
      (ht : tps.Clear) (hp : ps.Clear) (hr : r.Clear)
      (hu : u ∈ MemberEntry.functionTypes tps.toLists ps.toList (some r)) : u.Clear :=
    everywhere_of_mem_functionTypes ht hp (by rintro _ ⟨⟩; exact hr) hu
  rcases kind with ⟨site, tps, ps, r, rfl⟩ | ⟨site, abstract, tps, ps, r, rfl⟩ <;>
    rcases kind' with ⟨_, tps', ps', r', rfl⟩ | ⟨_, abstract', tps', ps', r', rfl⟩
  · rw [text_func, text_func] at same
    obtain ⟨-, parts, result⟩ := callable_inj none none h.parts.1 h'.parts.1 h.parts.2.1
      h'.parts.2.1 same
    refine Like.of_parts (.func trivial (function_of_text h.parts.1 h'.parts.1 h.parts.2.1
      h'.parts.2.1 parts (congrArg some result) fun u hu u' hu' same => lower u ?_
        (legible h.parts.1 h.parts.2.1 h.parts.2.2.1 hu) u'
        (legible h'.parts.1 h'.parts.2.1 h'.parts.2.2.1 hu') (.of_eq same)))
    obtain ⟨bound, part⟩ := exists_functionPart hu []
    have part : Request.Part ⟨[], [], TypeExpr.func site tps ps r⟩ ⟨[], bound, u⟩ := .func part
    exact part.height_lt
  · rw [text_func, text_construct] at same
    exact ((function abstract').1 (callable_inj none (construct abstract') h.parts.1 h'.parts.1
      h.parts.2.1 h'.parts.2.1 same).1).elim
  · rw [text_func, text_construct] at same
    exact ((function abstract).2 (callable_inj (construct abstract) none h.parts.1 h'.parts.1
      h.parts.2.1 h'.parts.2.1 same).1).elim
  · rw [text_construct, text_construct] at same
    obtain ⟨-, parts, result⟩ := callable_inj (construct abstract) (construct abstract') h.parts.1
      h'.parts.1 h.parts.2.1 h'.parts.2.1 same
    refine Like.of_parts (.construct trivial (function_of_text h.parts.1 h'.parts.1 h.parts.2.1
      h'.parts.2.1 parts (congrArg some result) fun u hu u' hu' same => lower u ?_
        (legible h.parts.1 h.parts.2.1 h.parts.2.2.1 hu) u'
        (legible h'.parts.1 h'.parts.2.1 h'.parts.2.2.1 hu') (.of_eq same)))
    obtain ⟨bound, part⟩ := exists_functionPart hu []
    have part : Request.Part ⟨[], [], TypeExpr.construct site abstract tps ps r⟩ ⟨[], bound, u⟩ :=
      .construct part
    exact part.height_lt

theorem like_object (kind : Made .object t) (kind' : Made .object t') : Like s t t' := by
  obtain ⟨site, ms, rfl⟩ := kind
  obtain ⟨_, ms', rfl⟩ := kind'
  rw [text_object, text_object] at same
  have braces (xs : List String) : (Text.bracesOf "; " xs).toList.head? = some '\x7b' := by
    rw [Text.bracesOf]
    split
    · rfl
    · simp [Text.braces]
  have members := bracesOf_inj
    (forall_mem_map.2 fun m hm => (Tree.shown (h.parts.1.toList m hm)).root)
    (forall_mem_map.2 fun m hm => (Tree.shown (h'.parts.1.toList m hm)).root)
    (same.eq (braces _) (braces _) (by decide))
  refine Like.of_parts (.object trivial (mergeOverloads_related merges_of_text ?_))
  refine forall₂_map_left_iff.2 (forall₂_map_right_iff.2 (forall₂_of_map members
    fun m hm m' hm' same => ?_))
  have legible := h.parts.1.toList m hm
  have legible' := h'.parts.1.toList m' hm'
  refine member_of_text legible legible' same fun u hu u' hu' same =>
    ⟨same, lower u ?_ (everywhere_of_mem_types hu legible) u' (everywhere_of_mem_types hu' legible')
      (.of_eq same)⟩
  have member := height_lt_of_mem_toList hm
  have type := MemberEntry.height_lt_of_mem_types hu
  have whole : (TypeExpr.object site ms).height = max 0 ms.height + 1 := rfl
  change u.height < m.height at type
  omega

/-- Types with one text have one reflection, if types below them do. -/
theorem like_step : Like s t t' := by
  have operand (u : TypeExpr) (low : u.height < t.height) (hu : u.Clear) (u' : TypeExpr)
      (hu' : u'.Clear) (same : SameText (operandText u) (operandText u')) : Like s u u' :=
    like_operand hu hu' (fun v small => lower v (Nat.lt_of_le_of_lt small low)) same
  have several {ts : Many .type} (two : decide (2 ≤ ts.toList.length) = true) : ts.toList ≠ [] :=
    fun none => by simp [none] at two
  obtain ⟨kind, hk, hk'⟩ : ∃ kind, TypeForm.kind t.form = kind ∧ TypeForm.kind t'.form = kind :=
    ⟨_, rfl, (kind_of_text h h' same).symm⟩
  have made := made_of_kind hk
  have made' := made_of_kind hk'
  cases kind with
  | word => exact like_word h h' same lower hk hk'
  | callable => exact like_callable h h' same lower made made'
  | object => exact like_object h h' same lower made made'
  | union =>
    obtain ⟨site, ts, rfl⟩ := made
    obtain ⟨_, ts', rfl⟩ := made'
    rw [text_union, text_union] at same
    refine Like.of_parts (.union trivial (operands_of_text (o := "|") rfl (by decide)
      h.parts.1.toList h'.parts.1.toList (several h.root) (several h'.root) same
      fun u hu u' hu' => operand u ?_ (h.parts.1.toList u hu) u' (h'.parts.1.toList u' hu')))
    exact (@Request.Part.union [] [] site ts u hu).height_lt
  | intersection =>
    obtain ⟨site, ts, rfl⟩ := made
    obtain ⟨_, ts', rfl⟩ := made'
    rw [text_intersection, text_intersection] at same
    refine Like.of_parts (.intersection trivial (operands_of_text (o := "&") rfl (by decide)
      h.parts.1.toList h'.parts.1.toList (several h.root) (several h'.root) same
      fun u hu u' hu' => operand u ?_ (h.parts.1.toList u hu) u' (h'.parts.1.toList u' hu')))
    exact (@Request.Part.intersection [] [] site ts u hu).height_lt
  | tuple =>
    obtain ⟨site, readonly, ts, rfl⟩ := made
    obtain ⟨_, readonly', ts', rfl⟩ := made'
    obtain ⟨k, l, same⟩ := same
    rw [text_tuple, text_tuple] at same
    simp only [← String.append_assoc, readonlys_append] at same
    have same := (String.append_left_inj _).1 same
    simp only [String.append_assoc] at same
    obtain ⟨-, inside⟩ := (lacks_readonlys (by decide) _).cut (lacks_readonlys (by decide) _)
      (separates rfl (by decide)) same
    refine Like.of_parts (.tuple trivial (types_of_text h.parts.1.toList h'.parts.1.toList inside
      fun u hu u' hu' same => lower u ?_ (h.parts.1.toList u hu) u' (h'.parts.1.toList u' hu')
        (.of_eq same)))
    exact (@Request.Part.tuple [] [] site readonly ts u hu).height_lt
  | array =>
    obtain ⟨site, readonly, e, rfl⟩ := made
    obtain ⟨_, readonly', e', rfl⟩ := made'
    obtain ⟨k, l, same⟩ := same
    rw [text_array, text_array] at same
    simp only [← String.append_assoc, readonlys_append] at same
    refine Like.of_parts (.array trivial (operand e ?_ h.parts.1 e' h'.parts.1
      ⟨_, _, (String.append_left_inj _).1 same⟩))
    exact lt_height_node (mem_singleton_self _)
  | paren =>
    obtain ⟨site, u, rfl⟩ := made
    obtain ⟨_, u', rfl⟩ := made'
    refine Like.of_parts (.paren (lower u ?_ h.parts.1 u' h'.parts.1
      (.of_eq (text_of_parens same))))
    exact lt_height_node (mem_singleton_self _)

end

/-- **Types with one text have one reflection**, up to marks. -/
theorem like_of_text {t t' : TypeExpr} (h : t.Clear)
    (h' : t'.Clear) (same : SameText (text t) (text t')) :
    Like s t t' :=
  like_step h h' same fun _ _ hu _ hu' same => like_of_text hu hu' same
termination_by t.height

end Reflection

/-! ### Texts as identities -/

namespace Scope

open Reflection

variable (s : Scope) (bound : List String)

/-- Types with one text have one reflection, up to marks. -/
theorem bare_eq_of_text {t u} (ht : t.Everywhere Tree.Legible) (hu : u.Everywhere Tree.Legible)
    (same : TypeExpr.text t = TypeExpr.text u) :
    ∃ e e', s.reflectUnder bound t = .ok e ∧ s.reflectUnder bound u = .ok e' ∧ e.bare = e'.bare := by
  obtain ⟨e, he⟩ := s.exists_reflection bound (ht.mono fun _ _ => Tree.Legible.reflectable)
  have both := like_of_text (s := s) ht hu (.of_eq same) bound
  rw [he] at both
  generalize hy : s.reflectUnder bound u = y at both
  cases both with
  | ok same => exact ⟨e, _, he, rfl, same⟩

theorem exists_distinct {types t} (h : t ∈ types) (seen : List String) : textOrAny t ∈ seen ∨
      ∃ u ∈ distinctTypes seen types, textOrAny u = textOrAny t := by
  obtain ⟨u, hu, same⟩ := exists_first h (rfl : textKey t = _)
  by_cases known : textOrAny t ∈ seen
  · exact .inl known
  · refine .inr ⟨u, ?_, Option.some.inj same⟩
    rw [distinctTypes_eq, unseen_eq]
    exact mem_filter.2 ⟨hu, by simpa [same] using known⟩

/-- What is left out counts as `any`. -/
theorem optional_eq (loc : Loc) (t : Option TypeExpr) :
    optional s s.reflectUnder bound loc t = s.reflectUnder bound (t.getD (Synthetic.any loc)) := by
  cases t with
  | some t => rfl
  | none =>
    change _ = s.reflectUnder bound (Synthetic.any loc)
    rw [s.reflectUnder_eq]
    rfl

/-- **Texts are identities of types.**  Legible types with one text have reflections that differ in
marks at most.  So of the types of overloads none is dropped unless one with the same reflection is
kept. -/
theorem reflections_of_text {t u : TypeExpr} (ht : t.Everywhere Tree.Legible)
    (hu : u.Everywhere Tree.Legible) (same : TypeExpr.text t = TypeExpr.text u) :
    (∃ e e', s.reflectUnder bound t = .ok e ∧ s.reflectUnder bound u = .ok e' ∧
      e.bare = e'.bare) ∧
    ∀ (loc : Loc) (types : List (Option TypeExpr)),
      (∀ v, some v ∈ types → v.Everywhere Tree.Legible) →
      ∀ v ∈ types, ∃ w ∈ distinctTypes [] types, ∃ e e',
        optional s s.reflectUnder bound loc v = .ok e ∧
        optional s s.reflectUnder bound loc w = .ok e' ∧ e.bare = e'.bare := by
  refine ⟨bare_eq_of_text s bound ht hu same, fun loc types legible v hv => ?_⟩
  have each (v : Option TypeExpr) (hv : v ∈ types) :
      (v.getD (Synthetic.any loc)).Everywhere Tree.Legible := by
    cases v with
    | some v => exact legible v hv
    | none => exact Tree.everywhere_node.2 ⟨rfl, Children.everywhere_nil⟩
  have text (v : Option TypeExpr) : TypeExpr.text (v.getD (Synthetic.any loc)) = textOrAny v := by
    cases v with
    | _ => rfl
  rcases exists_distinct hv [] with known | ⟨w, hw, same⟩
  · cases known
  · refine ⟨w, hw, ?_⟩
    rw [optional_eq, optional_eq]
    refine bare_eq_of_text s bound (each v hv) (each w (mem_of_mem_distinctTypes hw)) ?_
    rw [text, text, same]

/-- `readonly (string | null)[][]` in two spellings. -/
theorem reflections_of_text_readonly :
    let union : TypeExpr :=
      .union {} (.ofList [TypeExpr.keyword {} .string, TypeExpr.keyword {} .null])
    let t : TypeExpr := .array {} false (.array {} true union)
    let u : TypeExpr := .array {} true (.array {} false (.paren {} union))
    TypeExpr.text t = TypeExpr.text u ∧
      ∃ e e', ({} : Scope).reflectUnder [] t = .ok e ∧ ({} : Scope).reflectUnder [] u = .ok e' ∧
        e.bare = e'.bare := by
  intro union t u
  have legible : union.Everywhere Tree.Legible := by
    refine Tree.everywhere_node.2 ⟨rfl, Children.everywhere_cons.2 ⟨?_, Children.everywhere_nil⟩⟩
    refine Tree.everywhere_ofList.2 ⟨trivial, fun t ht => ?_⟩
    simp only [List.mem_cons, List.not_mem_nil, or_false] at ht
    rcases ht with rfl | rfl
    · exact Tree.everywhere_node.2 ⟨rfl, Children.everywhere_nil⟩
    · exact Tree.everywhere_node.2 ⟨rfl, Children.everywhere_nil⟩
  have ht : t.Everywhere Tree.Legible := by
    refine Tree.everywhere_node.2 ⟨rfl, Children.everywhere_cons.2 ⟨?_, Children.everywhere_nil⟩⟩
    exact Tree.everywhere_node.2 ⟨rfl, Children.everywhere_cons.2 ⟨legible, Children.everywhere_nil⟩⟩
  have hu : u.Everywhere Tree.Legible := by
    refine Tree.everywhere_node.2 ⟨rfl, Children.everywhere_cons.2 ⟨?_, Children.everywhere_nil⟩⟩
    refine Tree.everywhere_node.2 ⟨rfl, Children.everywhere_cons.2 ⟨?_, Children.everywhere_nil⟩⟩
    exact Tree.everywhere_node.2 ⟨rfl, Children.everywhere_cons.2 ⟨legible, Children.everywhere_nil⟩⟩
  have same : TypeExpr.text t = TypeExpr.text u := by decide +kernel
  exact ⟨same, (reflections_of_text {} [] ht hu same).1⟩

end Scope

end Reify
