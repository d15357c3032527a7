import Mathlib.Data.List.Basic
import Reify.Proofs.Syntax.Words

/-!
# What texts show outside brackets

`Scan` goes through a text and keeps what stands outside brackets and quotes.  A text that leaves
brackets and quotes as it finds them spans what it shows there (`Spans`).  Where a separator is
shown by neither of two texts, what is put together from them and the separator can be taken apart
in one way only (`Spans.cut`), and so can lists (`intercalate_inj`).
-/

namespace Reify

open List

namespace Reading

/-! ### Scanning -/

/-- What has just been read. -/
inductive Mode where
  | plain
  | equals
  | quoted
  | escaped

/-- How many brackets are open, what has just been read, and what was shown outside brackets. -/
structure Scan where
  depth : Nat
  mode : Mode
  shown : List Char

namespace Scan

/-- Goes on outside quotes, with a character shown outside brackets. -/
def emit (s : Scan) (c : Char) : Scan :=
  { s with mode := .plain, shown := if s.depth = 0 then s.shown ++ [c] else s.shown }

/-- Reads a character outside quotes. -/
def plain (s : Scan) (c : Char) : Scan :=
  if c = '=' then { s with mode := .equals }
  else if c = '"' then { s.emit c with mode := .quoted }
  else if c ∈ ['(', '[', '\x7b', '<'] then { s.emit c with depth := s.depth + 1 }
  else if c ∈ [')', ']', '\x7d', '>'] then { s with depth := s.depth - 1 }
  else s.emit c

/-- Reads a character.  An arrow is no bracket. -/
def step (s : Scan) (c : Char) : Scan :=
  match s.mode with
  | .plain => s.plain c
  | .equals => if c = '>' then s.emit c else (s.emit '=').plain c
  | .quoted =>
    if c = '"' then { s with mode := .plain }
    else if c = '\\' then { s with mode := .escaped }
    else s
  | .escaped => { s with mode := .quoted }

/-- Reads a text. -/
def read (s : Scan) (text : String) : Scan := text.toList.foldl step s

theorem read_append (s : Scan) (a b : String) : s.read (a ++ b) = (s.read a).read b := by
  rw [read, String.toList_append, foldl_append]
  rfl

/-- What was shown stays. -/
theorem mem_shown_read {c : Char} {s : Scan} (h : c ∈ s.shown) (text : String) :
    c ∈ (s.read text).shown := by
  have emits {s : Scan} (h : c ∈ s.shown) (d : Char) : c ∈ (s.emit d).shown := by
    rw [emit]
    split
    · exact mem_append_left _ h
    · exact h
  have reads {s : Scan} (h : c ∈ s.shown) (d : Char) : c ∈ (s.plain d).shown := by
    rw [plain]
    split_ifs <;> first | exact h | exact emits h d
  rw [read]
  induction text.toList generalizing s with
  | nil => exact h
  | cons d cs ih =>
    refine ih ?_
    rw [step]
    split
    · exact reads h d
    · split
      · exact emits h d
      · exact reads (emits h _) d
    · split_ifs <;> exact h
    · exact h

end Scan

/-- The text ends outside quotes, with the brackets open that were open before it, and shows `u` if
there are none. -/
def Spans (a : String) (u : List Char) : Prop :=
  ∀ depth shown, Scan.read ⟨depth, .plain, shown⟩ a =
    ⟨depth, .plain, if depth = 0 then shown ++ u else shown⟩

/-- A text that shows a character when it has been read, and does not overlap itself. -/
structure Separates (s : String) (c : Char) : Prop where
  shows (shown : List Char) : c ∈ (Scan.read ⟨0, .plain, shown⟩ s).shown
  apart {x r r' : List Char} : x ≠ [] → s.toList ++ r = x ++ (s.toList ++ r') → s.toList <+: x

variable {a a' b s o e : String} {t u v : List Char} {c : Char}

namespace Spans

theorem empty : Spans "" [] := by
  intro depth shown
  simp [Scan.read]

theorem append (ha : Spans a u) (hb : Spans b v) : Spans (a ++ b) (u ++ v) := by
  intro depth shown
  rw [Scan.read_append, ha, hb]
  split
  · rw [append_assoc]
  · rfl

theorem unique (h : Spans a u) (h' : Spans a v) : u = v := by
  have both := (h 0 []).symm.trans (h' 0 [])
  simpa using both

/-- Brackets show only themselves. -/
theorem group (opens : ∀ depth shown, Scan.read ⟨depth, .plain, shown⟩ o =
      ⟨depth + 1, .plain, if depth = 0 then shown ++ [c] else shown⟩)
    (closes : ∀ depth shown, Scan.read ⟨depth + 1, .plain, shown⟩ e = ⟨depth, .plain, shown⟩)
    (h : Spans a u) : Spans (o ++ a ++ e) [c] := by
  intro depth shown
  rw [Scan.read_append, Scan.read_append, opens, h, if_neg (Nat.succ_ne_zero _), closes]

theorem parens (h : Spans a u) : Spans ("(" ++ a ++ ")") ['('] :=
  h.group (fun _ _ => rfl) fun _ _ => rfl

/-- Other characters are shown. -/
theorem word (h : ∀ c ∈ a.toList, c ∉ ['=', '"', '(', '[', '\x7b', '<', ')', ']', '\x7d', '>']) :
    Spans a a.toList := by
  intro depth shown
  rw [Scan.read]
  generalize a.toList = cs at h
  induction cs generalizing shown with
  | nil => simp
  | cons c cs ih =>
    obtain ⟨first, rest⟩ := forall_mem_cons.1 h
    simp only [mem_cons, not_or] at first
    rw [foldl_cons, Scan.step, Scan.plain]
    simp only [first, mem_cons, or_self, if_false, Scan.emit]
    rw [ih _ rest]
    split <;> simp

theorem arrow : Spans " => " [' ', '>', ' '] := fun depth _ => by
  cases depth <;> simp [Scan.read, Scan.step, Scan.plain, Scan.emit]

theorem equals : Spans " = " [' ', '=', ' '] := fun depth _ => by
  cases depth <;> simp [Scan.read, Scan.step, Scan.plain, Scan.emit]

/-- Quoted strings show a quote. -/
theorem quote (value : String) : Spans (Json.quote value) ['"'] := by
  intro depth shown
  have digit (n : Nat) : Json.hexDigit n ≠ '"' ∧ Json.hexDigit n ≠ '\\' := by
    have digits : ∀ k < 16, (Nat.toDigits 16 k).headD '0' ≠ '"' ∧
      (Nat.toDigits 16 k).headD '0' ≠ '\\' := by decide
    exact digits (n % 16) (Nat.mod_lt _ (by decide))
  have inside (cs : List Char) (s : Scan) (hs : s.mode = .quoted) :
      (cs.flatMap Json.escapeChar).foldl Scan.step s = s := by
    obtain ⟨depth, mode, shown⟩ := s
    cases hs
    induction cs with
    | nil => rfl
    | cons c cs ih =>
      have one : (Json.escapeChar c).foldl Scan.step ⟨depth, .quoted, shown⟩ =
          ⟨depth, .quoted, shown⟩ := by
        rw [Json.escapeChar]
        split_ifs <;> simp [Scan.step, *]
      rw [flatMap_cons, foldl_append, one, ih]
  rw [Json.quote, Scan.read, String.toList_ofList, foldl_append]
  change Scan.step (foldl Scan.step (Scan.step ⟨depth, .plain, shown⟩ '"') _) '"' = _
  rw [inside _ _ rfl]
  rfl

theorem mem_of_append (h : Spans (a ++ (s ++ b)) u) (ha : Spans a t) (hs : Separates s c) :
    c ∈ u := by
  have whole := h 0 []
  rw [Scan.read_append, Scan.read_append, ha, if_pos rfl] at whole
  have shown := Scan.mem_shown_read (hs.shows ([] ++ t)) b
  rw [whole] at shown
  exact shown

/-- **Texts are cut at a separator that they do not show.** -/
theorem cut (ha : Spans a t) (ha' : Spans a' u) (hs : Separates s c) (ht : c ∉ t) (hu : c ∉ u)
    {r r' : String} (same : a ++ (s ++ r) = a' ++ (s ++ r')) : a = a' ∧ r = r' := by
  -- if one were longer, it would show the separator
  have longer {a a' r r' : String} {t u : List Char} (ha : Spans a t) (ha' : Spans a' u)
      (hu : c ∉ u) {x : List Char} (long : a'.toList = a.toList ++ x)
      (rest : s.toList ++ r.toList = x ++ (s.toList ++ r'.toList)) : x = [] := by
    by_contra some
    obtain ⟨y, rfl⟩ := hs.apart some rest
    have parts : a' = a ++ (s ++ String.ofList y) := String.toList_inj.1 (by simp [long])
    exact hu ((parts ▸ ha').mem_of_append ha hs)
  have chars := congrArg String.toList same
  simp only [String.toList_append] at chars
  have front : a.toList = a'.toList := by
    rcases append_eq_append_iff.1 chars with ⟨x, long, rest⟩ | ⟨x, long, rest⟩
    · rw [long, longer ha ha' hu long rest, append_nil]
    · rw [long, longer ha' ha ht long rest, append_nil]
  rw [front] at chars
  exact ⟨String.toList_inj.1 front,
    String.toList_inj.1 (append_cancel_left (append_cancel_left chars))⟩

end Spans

/-- A character that is shown separates. -/
theorem separates (hs : s.toList = [c]) (hc : c ∉ ['=', ')', ']', '\x7d', '>']) :
    Separates s c where
  shows shown := by
    simp only [mem_cons, not_or] at hc
    rw [Scan.read, hs, foldl_cons, foldl_nil, Scan.step, Scan.plain]
    split_ifs <;> simp_all [Scan.emit]
  apart {x r r'} some rest := by
    rw [hs] at rest ⊢
    cases x with
    | nil => exact (some rfl).elim
    | cons d x => simp_all

/-- Two characters separate if they show a character together. -/
theorem separates_pair {d e : Char} (hs : s.toList = [d, e]) (ne : e ≠ d)
    (shows : ∀ shown, c ∈ (Scan.read ⟨0, .plain, shown⟩ s).shown) : Separates s c where
  shows := shows
  apart {x r r'} some rest := by
    rw [hs] at rest ⊢
    match x with
    | [] => exact (some rfl).elim
    | [_] => simp [ne] at rest
    | _ :: _ :: _ => simp_all

/-- A text that does not show a character. -/
def Lacks (c : Char) (a : String) : Prop := ∃ u, Spans a u ∧ c ∉ u

theorem Lacks.empty : Lacks c "" := ⟨[], .empty, not_mem_nil⟩

theorem Lacks.append (ha : Lacks c a) (hb : Lacks c b) : Lacks c (a ++ b) := by
  obtain ⟨u, hu, free⟩ := ha
  obtain ⟨v, hv, free'⟩ := hb
  exact ⟨u ++ v, hu.append hv, by simp [free, free']⟩

/-- A text that shows a separator has it. -/
theorem Lacks.ne (h : Lacks c b) (ha : Lacks c a) (hs : Separates s c) (r : String) :
    b ≠ a ++ (s ++ r) := by
  rintro rfl
  obtain ⟨u, hu, free⟩ := h
  obtain ⟨v, hv, -⟩ := ha
  exact free (hu.mem_of_append hv hs)

theorem Lacks.cut (ha : Lacks c a) (hb : Lacks c b) (hs : Separates s c) {r r' : String}
    (same : a ++ (s ++ r) = b ++ (s ++ r')) : a = b ∧ r = r' := by
  obtain ⟨u, hu, free⟩ := ha
  obtain ⟨v, hv, free'⟩ := hb
  exact hu.cut hv hs free free' same

/-- Some text that does not show a character. -/
def Item (c : Char) (a : String) : Prop := Lacks c a ∧ a ≠ ""

/-- An optional text after a separator is told from none. -/
theorem lead_inj {p q : String} (hs : Separates s c) (hp : Lacks c p) (ha : Lacks c a)
    (hb : Lacks c b) {x y : Option String}
    (same : a ++ Text.lead (p ++ s ++ q) x = b ++ Text.lead (p ++ s ++ q) y) : a = b ∧ x = y := by
  have spelled (a x : String) : a ++ Text.lead (p ++ s ++ q) (some x) = (a ++ p) ++ (s ++ (q ++ x)) := by
    simp only [Text.lead, String.append_assoc]
  cases x with
  | none =>
    cases y with
    | none => exact ⟨by simpa [Text.lead] using same, rfl⟩
    | some y =>
      rw [spelled, Text.lead, String.append_empty] at same
      exact (ha.ne (hb.append hp) hs (q ++ y) same).elim
  | some x =>
    cases y with
    | none =>
      rw [spelled, Text.lead, String.append_empty] at same
      exact (hb.ne (ha.append hp) hs (q ++ x) same.symm).elim
    | some y =>
      rw [spelled, spelled] at same
      obtain ⟨front, rest⟩ := (ha.append hp).cut (hb.append hp) hs same
      exact ⟨(String.append_left_inj p).1 front, congrArg some ((String.append_right_inj q).1 rest)⟩

/-- **Lists are taken apart at their separators.** -/
theorem intercalate_inj {p q : String} (hs : Separates s c) (hp : Lacks c p) :
    {xs ys : List String} → (∀ x ∈ xs, Item c x) → (∀ y ∈ ys, Item c y) →
      (p ++ s ++ q).intercalate xs = (p ++ s ++ q).intercalate ys → xs = ys
  | [], [], _, _, _ => rfl
  | [x], [y], _, _, same => by simpa using same
  | [], y :: ys, _, hy, same => by
    have first := (hy y mem_cons_self).2
    cases ys <;> simp_all [String.intercalate_cons_cons]
  | x :: xs, [], hx, _, same => by
    have first := (hx x mem_cons_self).2
    cases xs <;> simp_all [String.intercalate_cons_cons]
  | [x], y :: z :: ys, hx, hy, same => by
    have front := (hy y mem_cons_self).1.append hp
    rw [String.intercalate_singleton, String.intercalate_cons_cons] at same
    exact ((hx x mem_cons_self).1.ne front hs _
      (by simpa only [String.append_assoc] using same)).elim
  | x :: w :: xs, [y], hx, hy, same => by
    have front := (hx x mem_cons_self).1.append hp
    rw [String.intercalate_singleton, String.intercalate_cons_cons] at same
    exact ((hy y mem_cons_self).1.ne front hs _
      (by simpa only [String.append_assoc] using same.symm)).elim
  | x :: w :: xs, y :: z :: ys, hx, hy, same => by
    have spelled (x y : String) : x ++ (p ++ s ++ q) ++ y = (x ++ p) ++ (s ++ (q ++ y)) := by
      simp only [String.append_assoc]
    rw [String.intercalate_cons_cons, String.intercalate_cons_cons, spelled, spelled] at same
    have front := (hx x mem_cons_self).1.append hp
    have front' := (hy y mem_cons_self).1.append hp
    obtain ⟨first, rest⟩ := front.cut front' hs same
    rw [(String.append_left_inj p).1 first, intercalate_inj hs hp (forall_mem_cons.1 hx).2
      (forall_mem_cons.1 hy).2 ((String.append_right_inj q).1 rest)]

end Reading

end Reify
