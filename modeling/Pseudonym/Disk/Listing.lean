import Pseudonym.Disk.Basic

/-!
# Listing the files below a directory

A directory is visited depth first, the entries of each directory in the order of their names, byte by byte. Links are not
followed, except one that the walk starts from. A directory whose path is too long to be opened ends the walk.
-/

namespace Pseudonym.Disk

/-- Does a name come before another, or is it the same? -/
def nameLe : Name → Name → Bool
  | [], _ => true
  | _ :: _, [] => false
  | a :: as, b :: bs => a < b || (a == b && nameLe as bs)

/-- An entry put in its place among entries that stand in the order of their names. -/
def insertByName (e : Name × Entry) : List (Name × Entry) → List (Name × Entry)
  | [] => [e]
  | x :: xs => if nameLe e.1 x.1 then e :: x :: xs else x :: insertByName e xs

/-- Entries in the order of their names. -/
def sortByName (es : List (Name × Entry)) : List (Name × Entry) := es.foldr insertByName []

/-- The entry's name, if the entry stands in the directory at a location. -/
def nameIn? (dir loc : Location) : Option Name :=
  match loc.getLast? with
  | some n => if loc.dropLast = dir then some n else none
  | none => none

/-- The entries of a directory as they are enumerated. -/
def children (d : Disk) (dir : Location) : List (Name × Entry) :=
  d.entries.filterMap fun (loc, e) => (nameIn? dir loc).map (·, e)

/-- How deep the disk is. -/
def depth (d : Disk) : Nat := d.entries.foldr (fun e n => max e.1.length n) 0

/-- A directory or a file that the walk comes by. -/
inductive Visit where
  | directory (p : Path)
  | file (p : Path)
  deriving DecidableEq, Repr

/-- The walk through a directory at a location, at most a number of levels deep. -/
def walkFrom (d : Disk) : Nat → Path → Location → List Visit
  | 0, _, _ => []
  | n + 1, path, loc =>
    (sortByName (d.children loc)).flatMap fun (name, e) =>
      match e with
      | .file _ => [.file (path.join name)]
      | .link _ => []
      | .directory => .directory (path.join name) :: walkFrom d n (path.join name) (loc ++ [name])

/-- The walk through a directory at a location. -/
def walk (d : Disk) (path : Path) (loc : Location) : List Visit := .directory path :: walkFrom d d.depth path loc

/-- The directory that a walk cannot open, if the visit is one. -/
def Visit.unopened? : Visit → Option Path
  | .directory p => if maxPath ≤ p.bytes.length then some p else none
  | .file _ => none

/-- The file that a visit is to. -/
def Visit.file? : Visit → Option Path
  | .directory _ => none
  | .file p => some p

/-- The files below a directory, or the file that the path leads to. An error comes with the path that it arose at. -/
def files (d : Disk) (root : Path) : Except (Path × DiskError) (List Path) :=
  match d.status .keep root with
  | .error e => .error (root, e)
  | .ok (_, .file _) => .ok [root]
  | .ok _ =>
    match d.status .follow root with
    | .error e => .error (root, e)
    | .ok (loc, .directory) =>
      let visits := d.walk root loc
      match visits.findSome? Visit.unopened? with
      | some p => .error (p, .nameTooLong)
      | none => .ok (visits.filterMap Visit.file?)
    | .ok _ => .ok []

end Pseudonym.Disk
