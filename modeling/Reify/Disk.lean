import Reify.Path

/-!
# Files and directories

A store of files and directories, and the operations on it that a run needs.  A path is followed
step by step, and a name that more follows must be that of a directory.  The current directory
and those above it can be walked through even after they have been removed; what was in them is
gone then, and nothing new can be put there.
-/

namespace Reify

/-- Why an operation on files is refused. -/
inductive FileError where
  | notFound
  | busy
  | alreadyExists
  | notDirectory
  | isDirectory
  | invalid
  | nameTooLong
  | notEmpty
  | nulByte
deriving DecidableEq, Repr, Inhabited

/-- What the system says about it. -/
def FileError.message : FileError → String
  | notFound => "No such file or directory (os error 2)"
  | busy => "Device or resource busy (os error 16)"
  | alreadyExists => "File exists (os error 17)"
  | notDirectory => "Not a directory (os error 20)"
  | isDirectory => "Is a directory (os error 21)"
  | invalid => "Invalid argument (os error 22)"
  | nameTooLong => "File name too long (os error 36)"
  | notEmpty => "Directory not empty (os error 39)"
  | nulByte => "file name contained an unexpected NUL byte"

/-- A place in the store: the names that lead there from the root. -/
abbrev Place := List String

/-- What is at a place. -/
inductive Entry where
  | directory
  | file (text : String)
deriving DecidableEq, Repr, Inhabited

/-- A store of files and directories. -/
structure Disk where
  entries : List (Place × Entry)
  /-- The directory that relative paths start from. -/
  here : Place

namespace Disk

/-- A store with nothing but the current directory and the one above it.  Their names hold a
slash, so that no path spells them: only a relative path leads there. -/
def empty : Disk := ⟨[(["/"], .directory), (["/", "/"], .directory)], ["/", "/"]⟩

/-- What is at a place.  The current directory and those above it are directories even after
they have been removed. -/
def get? (d : Disk) (place : Place) : Option Entry :=
  if place.isPrefixOf d.here then some .directory else d.entries.lookup place

/-- Whether a place is a directory that has not been removed. -/
def isLinked (d : Disk) (place : Place) : Bool :=
  place.isEmpty || d.entries.lookup place = some .directory

/-- Puts something at a place. -/
def put (d : Disk) (place : Place) (entry : Entry) : Disk :=
  { d with entries := (place, entry) :: d.entries.filter (·.1 != place) }

/-- Takes away what is at a place. -/
def erase (d : Disk) (place : Place) : Disk :=
  { d with entries := d.entries.filter (·.1 != place) }

/-- Takes away all that is below a place. -/
def clearBelow (d : Disk) (place : Place) : Disk :=
  { d with entries := d.entries.filter fun e => !(place.isPrefixOf e.1 && e.1 != place) }

/-- What is below a place: a directory before what is in it, and names in order. -/
def below (d : Disk) (place : Place) : List (Place × Entry) :=
  let found := d.entries.filterMap fun (p, e) =>
    if place.isPrefixOf p && p != place then some (p.drop place.length, e) else none
  found.mergeSort fun a b => !decide (b.1 < a.1)

/-! ### Following paths -/

/-- The place of a name in a directory.  A name has at most 255 bytes. -/
def child (directory : Place) (name : String) : Except FileError Place :=
  if 255 < name.utf8ByteSize then .error .nameTooLong else .ok (directory ++ [name])

/-- Refuses a place that is no directory. -/
def requireDirectory (d : Disk) (place : Place) : Except FileError Unit :=
  match d.get? place with
  | some .directory => .ok ()
  | some (.file _) => .error .notDirectory
  | none => .error .notFound

/-- Follows segments from a directory.  A name that more segments follow, be they empty, must be
that of a directory. -/
def follow (d : Disk) : Place → List String → Except FileError Place
  | place, [] => .ok place
  | place, s :: rest =>
    if Path.isBlank s then d.follow place rest
    else if s = ".." then d.follow place.dropLast rest
    else do
      let next ← child place s
      if !rest.isEmpty then d.requireDirectory next
      d.follow next rest

/-- Where a path starts. -/
def origin (d : Disk) (path : String) : Place := if Path.isAbsolute path then [] else d.here

/-- Refuses a text that is no path: an empty one, one of 4096 bytes or more, or one with a NUL. -/
def requirePath (path : String) : Except FileError Unit :=
  if path.toList.contains (Char.ofNat 0) then .error .nulByte
  else if path.isEmpty then .error .notFound
  else if 4096 ≤ path.utf8ByteSize then .error .nameTooLong
  else .ok ()

/-- The place that a path leads to, whether or not anything is there. -/
def locate (d : Disk) (path : String) : Except FileError Place := do
  requirePath path
  d.follow (d.origin path) (Path.parts path).2

/-- Whether a path leads to a directory. -/
def isDirectory (d : Disk) (path : String) : Bool :=
  match d.locate path with
  | .ok place => d.get? place = some .directory
  | .error _ => false

/-- How a path ends; slashes at the end do not count. -/
inductive Ending where
  /-- In a name in a directory. -/
  | name (directory : Place) (name : String)
  /-- In `.`, be it implied. -/
  | here
  /-- In `..`. -/
  | above
  /-- At the root itself. -/
  | root
deriving DecidableEq, Repr, Inhabited

/-- How a path ends.  All before its last segment must lead to a directory. -/
def ending (d : Disk) (path : String) : Except FileError Ending := do
  requirePath path
  match (Path.parts path).2.reverse.dropWhile (· == "") with
  | [] => return if Path.isAbsolute path then .root else .here
  | last :: before =>
    let directory ← d.follow (d.origin path) (before.reverse ++ [""])
    if last = "." then return .here
    else if last = ".." then return .above
    else return .name directory last

/-! ### Operations -/

/-- An operation on the store.  What it did before it was refused stays done. -/
abbrev Op := ExceptT FileError (StateM Disk)

/-- Makes a directory. -/
def makeDirectory (path : String) : Op Unit := do
  let d ← get
  match ← MonadExcept.ofExcept (d.ending path) with
  | .name directory name =>
    let place ← MonadExcept.ofExcept (child directory name)
    if (d.get? place).isSome then throw .alreadyExists
    if !d.isLinked directory then throw .notFound
    set (d.put place .directory)
  | _ => throw .alreadyExists

/-- Writes a file. -/
def write (path text : String) : Op Unit := do
  let d ← get
  match ← MonadExcept.ofExcept (d.ending path) with
  | .name directory name =>
    if path.endsWith "/" then throw .isDirectory
    let place ← MonadExcept.ofExcept (child directory name)
    if d.get? place = some .directory then throw .isDirectory
    if !d.isLinked directory then throw .notFound
    set (d.put place (.file text))
  | _ => throw .isDirectory

/-- Makes a directory and those above it that are missing, at most that many. -/
def makeDirectoriesWithin : Nat → String → Op Unit
  | fuel, path => do
    if path.isEmpty then return
    try makeDirectory path
    catch e =>
      match fuel, Path.parent? path with
      | fuel + 1, some parent =>
        if e = .notFound then
          makeDirectoriesWithin fuel parent
          makeUnlessThere path
        else acceptThere path e
      | _, _ => acceptThere path e
where
  /-- Passes over an error if the directory is there. -/
  acceptThere (path : String) (e : FileError) : Op Unit := do
    if (← get).isDirectory path then return else throw e
  /-- Makes a directory unless it is there. -/
  makeUnlessThere (path : String) : Op Unit := do
    try makeDirectory path
    catch e => acceptThere path e

/-- Makes a directory and those above it that are missing. -/
def makeDirectories (path : String) : Op Unit :=
  makeDirectoriesWithin (Path.segments path).length path

/-- Removes an empty directory. -/
def removeDirectory (path : String) : Op Unit := do
  let d ← get
  match ← MonadExcept.ofExcept (d.ending path) with
  | .name directory name =>
    let place ← MonadExcept.ofExcept (child directory name)
    MonadExcept.ofExcept (d.requireDirectory place)
    if !(d.below place).isEmpty then throw .notEmpty
    set (d.erase place)
  | .here => throw .invalid
  | .above => throw .notEmpty
  | .root => throw .busy

/-- Removes a directory with all that is below it. -/
def removeAll (path : String) : Op Unit := do
  let d ← get
  let place ← MonadExcept.ofExcept (d.locate path)
  MonadExcept.ofExcept (d.requireDirectory place)
  set (d.clearBelow place)
  removeDirectory path

/-! ### Reading -/

/-- The text of a file. -/
def read? (d : Disk) (path : String) : Option String :=
  match d.locate path with
  | .ok place =>
    match d.get? place with
    | some (.file text) => some text
    | _ => none
  | .error _ => none

/-- The files below a directory, with their paths from there. -/
def filesBelow (d : Disk) (directory : String) : List (String × String) :=
  let place := if directory.isEmpty then .ok d.here else d.locate directory
  match place with
  | .ok place =>
    (d.below place).filterMap fun
      | (p, .file text) => some (Path.ofSegments p, text)
      | _ => none
  | .error _ => []

/-- All paths below the current directory; those of directories end in a slash. -/
def listing (d : Disk) : List String :=
  (d.below d.here).map fun
    | (p, .directory) => Path.ofSegments p ++ "/"
    | (p, .file _) => Path.ofSegments p

end Disk

end Reify
