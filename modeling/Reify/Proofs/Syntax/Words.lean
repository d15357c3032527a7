import Reify.Syntax.Render

/-!
# Words of source text

The words that the text of a type is made of: identifiers, possibly with dots between them,
numerals, and quoted strings.  Each can be read back.
-/

namespace Reify

open List

variable {w : String} {ws : List (List Char)} {n : EntityName}

namespace Reading

/-! ### Characters -/

/-- Whether an identifier may start with a character: letters, `_`, `$` and what is outside ASCII. -/
def isStart (c : Char) : Bool := c.isAlpha || c == '_' || c == '$' || 128 ≤ c.toNat

/-- Whether a character may stand in an identifier. -/
def isPart (c : Char) : Bool := isStart c || c.isDigit

/-- Whether a character may stand in a name with dots. -/
def isNamePart (c : Char) : Bool := isPart c || c == '.'

/-- Whether a character may stand in a numeral. -/
def isNumeralPart (c : Char) : Bool := isNamePart c || c == '+' || c == '-'

/-- Whether a numeral starts here. -/
def startsNumeral : List Char → Bool
  | '-' :: _ => true
  | '.' :: c :: _ => c.isDigit
  | c :: _ => c.isDigit
  | [] => false

/-- Whether all characters of a list have a property, found out by going through the list and not
through all characters. -/
instance (priority := high) decidableForallMem (p : Char → Prop) [DecidablePred p]
    (cs : List Char) : Decidable (∀ c ∈ cs, p c) :=
  List.decidableBAll p cs

/-! ### Words -/

/-- The keywords among the types. -/
def keywords : List TypeKeyword :=
  [.any, .void, .string, .number, .boolean, .symbol, .object, .null, .undefined, .this]

/-- The type that is a keyword. -/
def keyword? (w : String) : Option TypeKeyword := keywords.find? (·.text == w)

/-- Whether a word is a type of its own, whatever it may name. -/
def isReserved (w : String) : Bool := (keyword? w).isSome || w == "true" || w == "false"

/-- Whether a text is an identifier that is no type of its own. -/
def isIdentifier (w : String) : Bool :=
  match w.toList with
  | [] => false
  | c :: cs => isStart c && cs.all isPart && !isReserved w

/-- Whether a text is a numeral in some notation, with an optional sign in front. -/
def isNumeral (w : String) : Bool := startsNumeral w.toList && w.toList.all isNumeralPart

/-- Whether all parts of a name are identifiers. -/
def isName : EntityName → Bool
  | .ident w => isIdentifier w
  | .qualified left w => isName left && isIdentifier w

/-- The characters of an identifier. -/
theorem toList_of_isIdentifier (h : isIdentifier w = true) :
    ∃ c cs, w.toList = c :: cs ∧ isStart c = true ∧ (∀ d ∈ c :: cs, isPart d = true) ∧
      isReserved w = false := by
  rw [isIdentifier] at h
  split at h
  case h_1 => cases h
  case h_2 c cs hw =>
    simp only [Bool.and_eq_true, all_eq_true, Bool.not_eq_true'] at h
    obtain ⟨⟨first, rest⟩, free⟩ := h
    refine ⟨c, cs, hw, first, ?_, free⟩
    rintro d (_ | ⟨_, hd⟩)
    · rw [isPart, first, Bool.true_or]
    · exact rest d hd

theorem isPart_of_mem (h : isIdentifier w = true) : ∀ c ∈ w.toList, isPart c = true := by
  obtain ⟨c, cs, hw, -, parts, -⟩ := toList_of_isIdentifier h
  rw [hw]
  exact parts

/-! ### Names -/

/-- The parts of a name. -/
def parts : EntityName → List (List Char)
  | .ident w => [w.toList]
  | .qualified left w => parts left ++ [w.toList]

/-- The name with the given parts. -/
def ofParts : List (List Char) → EntityName
  | [] => .ident ""
  | w :: ws => ws.foldl (fun left w => .qualified left (.ofList w)) (.ident (.ofList w))

/-- The name that a text spells. -/
def name (cs : List Char) : EntityName := ofParts (cs.splitOn '.')

theorem ofParts_snoc (h : ws ≠ []) (w : List Char) :
    ofParts (ws ++ [w]) = .qualified (ofParts ws) (.ofList w) := by
  cases ws with
  | nil => exact (h rfl).elim
  | cons v ws => simp [ofParts]

theorem parts_ne_nil (n : EntityName) : parts n ≠ [] := by cases n <;> simp [parts]

theorem ofParts_parts (n : EntityName) : ofParts (parts n) = n := by
  induction n with
  | ident w => simp [parts, ofParts]
  | qualified left w ih => rw [parts, ofParts_snoc (parts_ne_nil left), ih, String.ofList_toList]

theorem intercalate_snoc (h : ws ≠ []) (sep w : List Char) :
    sep.intercalate (ws ++ [w]) = sep.intercalate ws ++ sep ++ w := by
  induction ws with
  | nil => exact (h rfl).elim
  | cons v ws ih =>
    cases ws with
    | nil => simp [List.intercalate]
    | cons u ws =>
      have rest := ih (cons_ne_nil u ws)
      rw [cons_append] at rest
      rw [cons_append, cons_append, intercalate_cons_cons, rest,
        intercalate_cons_cons]
      simp only [append_assoc]

theorem toList_text (n : EntityName) : n.text.toList = ['.'].intercalate (parts n) := by
  induction n with
  | ident w => simp [EntityName.text, parts, List.intercalate]
  | qualified left w ih =>
    rw [EntityName.text, String.toList_append, String.toList_append, ih, parts,
      intercalate_snoc (parts_ne_nil left)]
    rfl

theorem not_dot_of_isName (h : isName n = true) : ∀ w ∈ parts n, '.' ∉ w := by
  have undotted {w : String} (h : isIdentifier w = true) : '.' ∉ w.toList :=
    fun hw => absurd (isPart_of_mem h '.' hw) (by decide)
  induction n with
  | ident w =>
    intro v hv
    rw [mem_singleton.1 hv]
    exact undotted h
  | qualified left w ih =>
    rw [isName, Bool.and_eq_true] at h
    intro v hv
    rcases mem_append.1 hv with hv | hv
    · exact ih h.1 v hv
    · rw [mem_singleton.1 hv]
      exact undotted h.2

/-- **Names** are read back from their text. -/
theorem name_text (h : isName n = true) : name n.text.toList = n := by
  rw [name, toList_text, splitOn_intercalate '.' (not_dot_of_isName h) (parts_ne_nil n),
    ofParts_parts]

/-- The characters of a name. -/
theorem toList_of_isName (h : isName n = true) :
    ∃ c cs, n.text.toList = c :: cs ∧ isStart c = true ∧ ∀ d ∈ c :: cs, isNamePart d = true := by
  induction n with
  | ident w =>
    obtain ⟨c, cs, hw, first, parts, -⟩ := toList_of_isIdentifier h
    exact ⟨c, cs, hw, first, fun d hd => by rw [isNamePart, parts d hd, Bool.true_or]⟩
  | qualified left w ih =>
    rw [isName, Bool.and_eq_true] at h
    obtain ⟨c, cs, hw, first, rest⟩ := ih h.1
    refine ⟨c, cs ++ '.' :: w.toList, ?_, first, ?_⟩
    · rw [EntityName.text, String.toList_append, String.toList_append, hw]
      simp
    · intro d hd
      rw [← cons_append] at hd
      rcases mem_append.1 hd with hd | hd
      · exact rest d hd
      · rcases mem_cons.1 hd with rfl | hd
        · rfl
        · rw [isNamePart, isPart_of_mem h.2 d hd, Bool.true_or]

/-! ### Quoted strings -/

/-- The value of a hexadecimal digit. -/
def hexValue (c : Char) : Nat :=
  if c.isDigit then c.toNat - '0'.toNat else c.toNat - 'a'.toNat + 10

/-- The character that stands escaped by another. -/
def unescape : Char → Char
  | 'n' => '\n'
  | 'r' => '\r'
  | 't' => '\t'
  | 'b' => Char.ofNat 8
  | 'f' => Char.ofNat 12
  | c => c

/-- The rest of a quoted string, up to the quote, and what follows it. -/
def unquote : List Char → Option (List Char × List Char)
  | [] => none
  | '"' :: cs => some ([], cs)
  | '\\' :: 'u' :: '0' :: '0' :: h :: l :: cs =>
    (unquote cs).map fun (s, r) => (Char.ofNat (16 * hexValue h + hexValue l) :: s, r)
  | '\\' :: c :: cs => (unquote cs).map fun (s, r) => (unescape c :: s, r)
  | c :: cs => (unquote cs).map fun (s, r) => (c :: s, r)

theorem hexValue_hexDigit : ∀ n < 32,
    16 * hexValue (Json.hexDigit (n / 16)) + hexValue (Json.hexDigit n) = n := by
  decide

theorem unquote_escapeChar (c : Char) (cs : List Char) :
    unquote (Json.escapeChar c ++ cs) = (unquote cs).map fun (s, r) => (c :: s, r) := by
  have back {n : Nat} (h : c.toNat = n) : c = Char.ofNat n := by rw [← h, Char.ofNat_toNat]
  by_cases quote : c = '"'
  · subst quote
    rfl
  by_cases backslash : c = '\\'
  · subst backslash
    rfl
  by_cases newline : c = '\n'
  · subst newline
    rfl
  by_cases carriage : c = '\r'
  · subst carriage
    rfl
  by_cases tab : c = '\t'
  · subst tab
    rfl
  by_cases backspace : c.toNat = 8
  · rw [back backspace]
    rfl
  by_cases feed : c.toNat = 12
  · rw [back feed]
    rfl
  simp only [Json.escapeChar, quote, backslash, newline, carriage, tab, backspace, feed, if_false]
  split
  case isTrue control =>
    have value := hexValue_hexDigit c.toNat control
    simp only [cons_append, nil_append, unquote, value, Char.ofNat_toNat]
  case isFalse => simp [unquote, backslash]

/-- **Quoted strings** are read back. -/
theorem unquote_quote (s : String) (r : List Char) :
    (Json.quote s).toList ++ r = '"' :: (s.toList.flatMap Json.escapeChar ++ '"' :: r) ∧
      unquote (s.toList.flatMap Json.escapeChar ++ '"' :: r) = some (s.toList, r) := by
  constructor
  · simp [Json.quote]
  · induction s.toList with
    | nil => rfl
    | cons c cs ih =>
      rw [flatMap_cons, append_assoc, unquote_escapeChar, ih]
      rfl

end Reading

end Reify
