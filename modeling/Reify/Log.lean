import Reify.Json

/-!
# Log lines

What the program tells about its work: single events, stages that open and values that become
known about a stage later.
-/

namespace Reify

namespace Log

/-- How important an event is. -/
inductive Level where
  | trace
  | debug
  | info
  | warn
  | error
deriving DecidableEq, Repr, Inhabited

/-- The level's name. -/
def Level.name : Level → String
  | trace => "TRACE"
  | debug => "DEBUG"
  | info => "INFO"
  | warn => "WARN"
  | error => "ERROR"

/-- One line of the log. -/
inductive Line where
  /-- Something happened. -/
  | event (level : Level) (message : String) (fields : List (String × Json))
  /-- A span of work opens. -/
  | span (name : String) (fields : List (String × Json))
  /-- Values of the open span become known. -/
  | record (fields : List (String × Json))

end Log

end Reify
