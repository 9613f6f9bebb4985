import Pseudonym.Path

/-!
# The disk

The disk is a value: what stands at each location, a location being the names that lead to it from the root. The entries stand in
some order, which is the order in which a directory is enumerated and means nothing. A path is followed through the disk name by
name, through symbolic links too, from the root or from the working directory.

An operation fails for what the path and the entries show, and besides where the disk says that the operating system refuses it. That
stands for missing permissions, a lack of space and damage; a request that is refused leaves the disk as it was. Not told are
permissions to list a directory or to pass through it, other kinds of files, and names that share one file.
-/

namespace Pseudonym

/-- What stands at a location. -/
inductive Entry where
  | file (content : Bytes)
  | directory
  | link (target : Path)
  deriving DecidableEq, Repr

/-- The names that lead from the root to a place on the disk. -/
abbrev Location := List Name

/-- Why an operation on the disk is refused. -/
inductive DiskError where
  | noEntry
  | busy
  | notDirectory
  | isDirectory
  | nameTooLong
  | notEmpty
  | tooManyLinks
  | nullByte
  | notPermitted
  | noSpace
  | readOnly
  | damaged
  deriving DecidableEq, Repr

namespace DiskError

/-- The number and the words by which the operating system reports the error. -/
def code : DiskError → Option Nat × String
  | .noEntry => (some 2, "No such file or directory")
  | .damaged => (some 5, "Input/output error")
  | .notPermitted => (some 13, "Permission denied")
  | .busy => (some 16, "Device or resource busy")
  | .notDirectory => (some 20, "Not a directory")
  | .isDirectory => (some 21, "Is a directory")
  | .noSpace => (some 28, "No space left on device")
  | .readOnly => (some 30, "Read-only file system")
  | .nameTooLong => (some 36, "File name too long")
  | .notEmpty => (some 39, "Directory not empty")
  | .tooManyLinks => (some 40, "Too many levels of symbolic links")
  | .nullByte => (none, "file name contained an unexpected NUL byte")

/-- The text of the error. -/
def message (e : DiskError) : String :=
  match e.code with
  | (some n, words) => words ++ " (os error " ++ toString n ++ ")"
  | (none, words) => words

end DiskError

/-- What the operating system is asked to do with a file, once its place has been found. -/
inductive Request where
  | read (loc : Location)
  | write (loc : Location) (content : Bytes)
  | move (old new : Location)
  deriving DecidableEq, Repr

/-- A disk, the directory that relative paths start from, and what the operating system refuses for reasons that the entries do not
show. The root is a directory without an entry. -/
structure Disk where
  entries : List (Location × Entry) := []
  workingDirectory : Location := []
  refused : List (Request × DiskError) := []
  deriving DecidableEq, Repr

namespace Disk

/-- What stands at a location. -/
def entry? (d : Disk) (loc : Location) : Option Entry := if loc.isEmpty then some .directory else d.entries.lookup loc

/-- Is there a directory at a location? -/
def isDirectoryAt (d : Disk) (loc : Location) : Bool := d.entry? loc == some .directory

/-- The length that no name exceeds, in bytes. -/
def maxName : Nat := 255

/-- The length that every path stays below, in bytes. -/
def maxPath : Nat := 4096

/-- The number of symbolic links that following a path may pass. -/
def maxLinks : Nat := 40

/-- What is asked of the last name of a path: to be followed if it is a link, to be taken as it stands, or perhaps to be
missing, as that of a file that is about to be made. -/
inductive LastName where
  | follow
  | keep
  | create
  deriving DecidableEq, Repr

/-- The names that a path leads along. A slash at its end leaves an empty name there, which stands for the directory itself. -/
def route (p : Path) : List Name :=
  if p.endsInSlash && !p.components.isEmpty then p.components ++ [[]] else p.components

/-- Where a path starts, given the directory that it is relative to. -/
def origin (base : Location) (p : Path) : Location := if p.isAbsolute then [] else base

/-- Follows names down from a location; `onLink` says how to go on when a name is a link. A name that a slash follows at the end is
none of a file to be made. -/
def descend (d : Disk) (last : LastName) (onLink : Location → List Name → Except DiskError Location) :
    Location → List Name → Except DiskError Location
  | loc, [] => .ok loc
  | loc, n :: ns =>
    if !d.isDirectoryAt loc then .error .notDirectory
    else if n = [] ∨ n = Path.here then descend d last onLink loc ns
    else if n = Path.above then descend d last onLink loc.dropLast ns
    else if last = .create ∧ ns = [[]] then .error .isDirectory
    else if maxName < n.length then .error .nameTooLong
    else
      match d.entry? (loc ++ [n]) with
      | none => if last = .create ∧ ns = [] then .ok (loc ++ [n]) else .error .noEntry
      | some (.link target) =>
        if last = .keep ∧ ns = [] then .ok (loc ++ [n]) else onLink (origin loc target) (route target ++ ns)
      | some _ => descend d last onLink (loc ++ [n]) ns

/-- Follows names down from a location, through at most a number of links. -/
def follow (d : Disk) (last : LastName) : Nat → Location → List Name → Except DiskError Location
  | 0 => descend d last fun _ _ => .error .tooManyLinks
  | links + 1 => descend d last (follow d last links)

/-- Is the path one that the operating system takes at all? -/
def checkPath (p : Path) : Except DiskError Unit :=
  if p.bytes.contains 0 then .error .nullByte
  else if p.bytes.isEmpty then .error .noEntry
  else if maxPath ≤ p.bytes.length then .error .nameTooLong
  else .ok ()

/-- The location that a path leads to. -/
def locate (d : Disk) (last : LastName) (p : Path) : Except DiskError Location := do
  checkPath p
  follow d last maxLinks (origin d.workingDirectory p) (route p)

/-- What stands where a path leads. -/
def status (d : Disk) (last : LastName) (p : Path) : Except DiskError (Location × Entry) := do
  let loc ← d.locate last p
  match d.entry? loc with
  | some e => .ok (loc, e)
  | none => .error .noEntry

/-- Does the path lead to anything? -/
def holds (d : Disk) (p : Path) : Bool := (d.status .follow p).isOk

/-- Does the path lead to a directory? -/
def isDirectory (d : Disk) (p : Path) : Bool := (d.status .follow p).toOption.any fun e => e.2 == .directory

/-- Does the operating system do what it is asked for? -/
def allow (d : Disk) (r : Request) : Except DiskError Unit :=
  match d.refused.lookup r with
  | some e => .error e
  | none => .ok ()

/-- The content of the file that a path leads to. -/
def read (d : Disk) (p : Path) : Except DiskError Bytes := do
  match ← d.status .follow p with
  | (loc, .file content) => do
    d.allow (.read loc)
    .ok content
  | (_, .directory) => .error .isDirectory
  | (_, .link _) => .error .tooManyLinks

/-- The disk with an entry changed where one stands, and added where none does. -/
def put (d : Disk) (loc : Location) (e : Entry) : Disk :=
  if (d.entries.lookup loc).isSome then
    { d with entries := d.entries.map fun x => if x.1 = loc then (loc, e) else x }
  else { d with entries := d.entries ++ [(loc, e)] }

/-- The directory of a path's last name, and that name. A slash at the end is left out of account. -/
def splitLast (d : Disk) (p : Path) : Except DiskError (Location × Name) := do
  checkPath p
  match p.components.getLast? with
  | none => .ok ([], Path.here)
  | some name =>
    let loc ← follow d .follow maxLinks (origin d.workingDirectory p) p.components.dropLast
    if d.isDirectoryAt loc then .ok (loc, name) else .error .notDirectory

/-- Writes a file, a new one if there is none. -/
def write (d : Disk) (p : Path) (content : Bytes) : Except DiskError Disk := do
  let loc ← d.locate .create p
  match d.entry? loc with
  | some .directory => .error .isDirectory
  | _ => do
    d.allow (.write loc content)
    .ok (d.put loc (.file content))

/-- Is a name one that entries can have, and not the directory itself or the one above it? -/
def isProperName (n : Name) : Bool := n != Path.here && n != Path.above

/-- The disk with an entry at another location, where nothing else stands afterwards. -/
def relocate (d : Disk) (old new : Location) : Disk :=
  if old = new then d
  else
    { d with entries := (d.entries.filter fun e => e.1 != new).map fun e => if e.1 = old then (new, e.2) else e }

/-- Gives a file or a link another path. A file or a link that stands there already is lost; a directory is not, least of all one
that leads to the file. -/
def move (d : Disk) (old new : Path) : Except DiskError Disk := do
  checkPath old
  checkPath new
  let (oldDir, oldName) ← d.splitLast old
  let (newDir, newName) ← d.splitLast new
  if !isProperName oldName || !isProperName newName then .error .busy
  else if maxName < oldName.length then .error .nameTooLong
  else
    match d.entry? (oldDir ++ [oldName]) with
    | none => .error .noEntry
    | some .directory => .error .isDirectory
    | some _ =>
      if maxName < newName.length then .error .nameTooLong
      else if old.endsInSlash || new.endsInSlash then .error .notDirectory
      else if (newDir ++ [newName]).isPrefixOf oldDir then .error .notEmpty
      else if d.isDirectoryAt (newDir ++ [newName]) then .error .isDirectory
      else do
        d.allow (.move (oldDir ++ [oldName]) (newDir ++ [newName]))
        .ok (d.relocate (oldDir ++ [oldName]) (newDir ++ [newName]))

end Disk

end Pseudonym
