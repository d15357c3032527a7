import Reify.Diagnostic

/-!
# The text of a diagnostic

A diagnostic is shown with the lines of the source that it points at; carets below each line mark
the part that is meant.

Spans are in bytes and may lie anywhere: past the end of the text, inside a character, or with the
end before the start.  They are first turned into positions between characters.
-/

namespace Reify

/-! ### Positions -/

/-- How many characters at the start of a text fit into that many bytes. -/
def charsWithin : List Char → Nat → Nat
  | [], _ => 0
  | c :: cs, n => if c.utf8Size ≤ n then charsWithin cs (n - c.utf8Size) + 1 else 0

/-- A part of a text, as positions between its characters. -/
structure Selection where
  start : Nat
  stop : Nat

/-- The part of a text that a span means.  A position inside a character is moved before it, and
the end is not before the start. -/
def Span.select (s : Span) (text : List Char) : Selection :=
  let start := charsWithin text s.start
  ⟨start, max start (charsWithin text s.stop)⟩

/-- The number of line ends in a text. -/
def lineEnds (text : List Char) : Nat := text.count '\n'

/-- The line that a position is on, counted from 0. -/
def lineAt (text : List Char) (position : Nat) : Nat := lineEnds (text.take position)

/-- A line of a text with the position where it starts. -/
structure Line where
  start : Nat
  chars : List Char

/-- The position where a line ends. -/
def Line.stop (l : Line) : Nat := l.start + l.chars.length

/-- The lines of a text, without their line ends. -/
def linesFrom (start : Nat) : List Char → List Line
  | [] => [⟨start, []⟩]
  | c :: cs =>
    if c = '\n' then ⟨start, []⟩ :: linesFrom (start + 1) cs
    else
      match linesFrom (start + 1) cs with
      | [] => [⟨start, [c]⟩]
      | l :: ls => ⟨start, c :: l.chars⟩ :: ls

/-- The lines of a text, without their line ends. -/
def lines (text : List Char) : List Line := linesFrom 0 text

namespace Selection

/-- The first line of a selection. -/
def firstLine (s : Selection) (text : List Char) : Nat := lineAt text s.start

/-- The last line of a selection.  A line end at its end does not count. -/
def lastLine (s : Selection) (text : List Char) : Nat :=
  if s.start < s.stop then max (s.firstLine text) (lineAt text (s.stop - 1)) else s.firstLine text

end Selection

/-! ### Text -/

/-- A text padded with blanks on the left. -/
def padLeft (width : Nat) (text : String) : String :=
  String.ofList (List.replicate (width - text.length) ' ') ++ text

/-- Carets below the selected part of a line, at least one. -/
def carets (s : Selection) (line : Line) : String :=
  let start := max line.start (min s.start line.stop)
  let stop := max start (min s.stop line.stop)
  String.ofList (List.replicate (start - line.start) ' ' ++
    List.replicate (max 1 (stop - start)) '^')

/-- A line of the source with the carets below it. -/
def excerptLine (gutter : Nat) (s : Selection) (label : String) (number : Nat) (line : Line) :
    String :=
  padLeft gutter (toString (number + 1)) ++ " | " ++ String.ofList line.chars ++ "\n" ++
    padLeft gutter "" ++ " | " ++ carets s line ++ label ++ "\n"

/-- The lines that a span means, after their place.  The message stands behind the first carets. -/
def excerpt (name : String) (text : List Char) (span : Span) (message : String) : String :=
  let s := span.select text
  let first := s.firstLine text
  let last := s.lastLine text
  let shown := (((lines text).zipIdx).drop first).take (last + 1 - first)
  let column := match shown with
    | (line, _) :: _ => s.start - line.start + 1
    | [] => 1
  let gutter := (toString (last + 1)).length
  let label := if message.isEmpty then "" else " " ++ message
  " --> " ++ name ++ ":" ++ toString (first + 1) ++ ":" ++ toString column ++ "\n" ++
    padLeft gutter "" ++ " |\n" ++
    String.join (shown.map fun (line, number) =>
      excerptLine gutter s (if number = first then label else "") number line)

/-- The names and texts of files. -/
structure Sources where
  name? : Nat → Option String
  text? : Nat → Option String

namespace Diagnostic

/-- The place a diagnostic points at, with the source if it is known. -/
def place (sources : Sources) (d : Diagnostic) : String :=
  let name := (sources.name? d.span.file).getD "<unknown file>"
  match sources.text? d.span.file with
  | some text => excerpt name text.toList d.span d.message
  | none => " --> " ++ name ++ ":?:?\n  | (source unavailable)\n"

/-- The text of a diagnostic: what is wrong, where, and the notes. -/
def render (sources : Sources) (d : Diagnostic) : String :=
  d.severity.name ++ "[" ++ d.code ++ "]: " ++ d.message ++ "\n" ++ d.place sources ++
    String.join (d.notes.map fun note => "= note: " ++ note ++ "\n")

/-- The texts of diagnostics. -/
def renderAll (sources : Sources) (ds : List Diagnostic) : List String := ds.map (render sources)

end Diagnostic

end Reify
