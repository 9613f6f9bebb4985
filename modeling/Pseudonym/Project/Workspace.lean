import Pseudonym.Codebook
import Pseudonym.Disk.Listing
import Pseudonym.Document
import Pseudonym.Mint
import Pseudonym.Project.Notice

/-!
# The workspace of a pass

A pass works on a disk, with a mint for new names and a codebook for the names it has exchanged, and leaves a trace. It may fail at
any of its steps; what it has done until then stays done.
-/

namespace Pseudonym

/-- Why a pass fails. -/
inductive Failure where
  /-- A file or a directory was refused. -/
  | file (path : Path) (e : DiskError)
  /-- The files below a directory could not be listed, because of the one at `path`. -/
  | listing (path : Path) (e : DiskError)
  /-- The project's root is no directory. -/
  | root (path : Path)
  /-- No new name is to be had. -/
  | mint (e : MintError)
  deriving DecidableEq, Repr

namespace Failure

/-- The texts of an error's causes, the nearest first. -/
def causes : Failure → List Text
  | .file _ e => [e.message.toList]
  | .listing path e =>
    ["IO error for operation on ".toList ++ path.shown ++ ": ".toList ++ e.message.toList, e.message.toList]
  | .root _ => []
  | .mint _ => []

/-- The text of the error. -/
def message : Failure → Text
  | .file path e => "I/O error on ".toList ++ path.quoted ++ ": ".toList ++ e.message.toList
  | .listing path e =>
    "I/O error on ".toList ++ path.quoted ++ ": IO error for operation on ".toList ++ path.shown ++ ": ".toList ++
      e.message.toList
  | .root path => "Root error: project root does not exist or is not a directory: ".toList ++ path.quoted
  | .mint e => e.message.toList

end Failure

/-- What a pass works on. -/
structure Workspace (σ : Type) where
  disk : Disk
  mint : Mint σ
  codebook : Codebook := .empty
  trace : List Notice := []

/-- The changes that were announced, in order. -/
def Workspace.events {σ : Type} (w : Workspace σ) : List Event := w.trace.filterMap Notice.event?

/-- A step of a pass: it changes the workspace, and it may fail. -/
abbrev Pass (σ : Type) := ExceptT Failure (StateM (Workspace σ))

/-- What is asked of a run. -/
structure Options where
  dryRun : Bool := false
  classLength : Nat := Token.defaultClassTokenLength
  deriving DecidableEq, Repr

namespace Pass

variable {σ : Type}

/-- Leaves a notice. -/
def note (n : Notice) : Pass σ Unit := modify fun w => { w with trace := w.trace ++ [n] }

/-- Leaves notices in order. -/
def noteAll (ns : List Notice) : Pass σ Unit := modify fun w => { w with trace := w.trace ++ ns }

/-- The files below a directory that are to be kept. -/
def list (root : Path) (keep : Path → Bool) : Pass σ (List Path) := do
  note (.listing root)
  match (← get).disk.files root with
  | .error (path, e) => throw (.listing path e)
  | .ok paths =>
    let kept := paths.filter keep
    note (.listed kept.length)
    return kept

/-- A file together with its language, if that is one of those asked for. -/
def tagged? (languages : List Language) (path : Path) : Option (Path × Language) :=
  match Language.ofPath? path with
  | some l => if languages.contains l then some (path, l) else none
  | none => none

/-- The files below a directory that are in one of the languages. -/
def listTexts (root : Path) (languages : List Language) : Pass σ (List (Path × Language)) := do
  let paths ← list root fun path => (tagged? languages path).isSome
  return paths.filterMap (tagged? languages)

/-- The text of a file, and how its bytes stand for it. -/
def load (path : Path) : Pass σ (Text × Charset) := do
  match (← get).disk.read path with
  | .error e => throw (.file path e)
  | .ok bytes =>
    let (text, charset) := Charset.decode bytes
    if charset = .bytewise then note (.readBytewise path)
    return (text, charset)

/-- Writes a text to a file. -/
def save (path : Path) (text : Text) (charset : Charset) : Pass σ Unit := do
  match (← get).disk.write path (charset.encode text) with
  | .error e => throw (.file path e)
  | .ok disk => modify fun w => { w with disk }

/-- Gives a file another path. -/
def move (old new : Path) : Pass σ Unit := do
  match (← get).disk.move old new with
  | .error e => throw (.file old e)
  | .ok disk => modify fun w => { w with disk }

/-- Takes a new name from the mint. -/
def mint (kind : TokenKind) (ask : Mint σ → Mint.Strike σ) : Pass σ Text := do
  let r := ask (← get).mint
  modify fun w => { w with mint := r.mint }
  noteAll (r.collisions.map (.collision kind))
  match r.token with
  | .ok t => return t
  | .error e => throw (.mint e)

/-- Reserves names with the mint. -/
def reserve (names : List Text) : Pass σ Unit := modify fun w => { w with mint := w.mint.reserveAll names }

/-- The pseudonym of a name, asked of the mint and entered in the codebook at first sight. -/
def pseudonym (name : Text) (make : Pass σ Text) : Pass σ Text := do
  let (p, codebook) ← (← get).codebook.tryEnter name make
  modify fun w => { w with codebook }
  return p

end Pass

/-- How a pass changes the text of a file: the new text, if it differs in a name, and what there is to tell about it. -/
structure Rewriter where
  rename : Text → Option Text
  notices : Text → List Notice

namespace Pass

variable {σ : Type}

/-- Rewrites one file, announcing the change first; a dry run leaves it at that. Says whether there was a change. -/
def rewriteFile (o : Options) (path : Path) (r : Rewriter) : Pass σ Bool := do
  note (.processing path)
  let (old, charset) ← load path
  noteAll (r.notices old)
  match r.rename old with
  | none => return false
  | some new =>
    note (.change (.content path old new))
    note (.contentChanging o.dryRun path)
    if !o.dryRun then save path new charset
    return true

/-- Rewrites files one after the other and counts those that changed. -/
def rewriteFiles (o : Options) : List (Path × Rewriter) → Pass σ Nat
  | [] => return 0
  | (path, r) :: files => do
    let changed ← rewriteFile o path r
    let n ← rewriteFiles o files
    return if changed then n + 1 else n

end Pass

end Pseudonym
