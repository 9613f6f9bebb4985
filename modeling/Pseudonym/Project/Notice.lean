import Pseudonym.Path
import Pseudonym.Script
import Pseudonym.Token

/-!
# What a run tells about itself

A run leaves a trace of notices. Two of them announce a change to the project right before it is made, or, in a dry run, in place
of making it: a file's new text and a file's new path. The others are lines of the log.
-/

namespace Pseudonym

/-- How weighty a line of the log is, the weightiest first. -/
inductive Level where
  | error
  | warn
  | info
  | debug
  deriving DecidableEq, Repr

namespace Level

/-- The word for a level. -/
def label : Level → String
  | .error => "ERROR"
  | .warn => "WARN"
  | .info => "INFO"
  | .debug => "DEBUG"

/-- The rank of a level, the weightiest being lowest. -/
def rank : Level → Nat
  | .error => 0
  | .warn => 1
  | .info => 2
  | .debug => 3

/-- Is a line of this level in a log that goes down to `limit`? -/
def within (l limit : Level) : Bool := l.rank ≤ limit.rank

end Level

/-- A change to the project. -/
inductive Event where
  /-- A file is to hold another text. -/
  | content (path : Path) (old new : Text)
  /-- A file is to have another path. -/
  | rename (old new : Path)
  deriving DecidableEq, Repr

/-- The counts of one pass over a project. -/
structure Tally where
  filesProcessed : Nat := 0
  pathsRenamed : Nat := 0
  contentChanges : Nat := 0
  deriving DecidableEq, Repr

/-- Something that a run tells. -/
inductive Notice where
  | change (e : Event)
  | started (root : Path)
  | listing (root : Path)
  | listed (count : Nat)
  | discovering (root : Path)
  | scanning (path : Path)
  | readBytewise (path : Path)
  | collision (kind : TokenKind) (candidate : Text)
  | classNamed (name token : Text)
  | classesNamed (count : Nat)
  | processing (path : Path)
  | selectorsRenamed (count : Nat)
  | attributesRenamed (count : Nat)
  | literalRenamed (l : Script.Literal)
  | referencesRenamed (name pseudonym : Text) (count : Nat)
  | contentChanging (dryRun : Bool) (path : Path)
  | classPassDone (t : Tally)
  | noImages (directory : Path)
  | renamingImages (directory : Path)
  | nameSkipped (path : Path)
  | pathChanging (dryRun : Bool) (old new : Path)
  | imagePassDone (t : Tally)
  | finished (classes images : Nat)
  deriving DecidableEq, Repr

namespace Notice

/-- The change that a notice announces, if it announces one. -/
def event? : Notice → Option Event
  | .change e => some e
  | _ => none

/-- A number in decimal digits. -/
def number (n : Nat) : Text := (toString n).toList

/-- The line of the log that a notice is, if it is one. -/
def log? : Notice → Option (Level × Text)
  | .change _ => none
  | .started root => some (.info, "Starting project obfuscation: ".toList ++ root.quoted)
  | .listing root => some (.debug, "Collecting files from directory: ".toList ++ root.quoted)
  | .listed n => some (.debug, "Collected ".toList ++ number n ++ " files".toList)
  | .discovering root => some (.info, "Discovering class names under: ".toList ++ root.quoted)
  | .scanning path => some (.debug, "Scanning stylesheet: ".toList ++ path.quoted)
  | .readBytewise path =>
    some (.warn, path.quoted ++ " is not valid UTF-8, rewriting its ASCII names byte for byte".toList)
  | .collision kind candidate =>
    some (.debug, kind.label.toList ++ " collision on '".toList ++ candidate ++ "', regenerating".toList)
  | .classNamed name token => some (.debug, "Class mapping: ".toList ++ name ++ " -> ".toList ++ token)
  | .classesNamed n => some (.info, "Mapped ".toList ++ number n ++ " class names".toList)
  | .processing path => some (.debug, "Processing file: ".toList ++ path.quoted)
  | .selectorsRenamed n =>
    some (.debug, "CSS rewrite: replaced ".toList ++ number n ++ " selector occurrences".toList)
  | .attributesRenamed n =>
    some (.debug, "HTML rewrite: replaced ".toList ++ number n ++ " class attribute words".toList)
  | .literalRenamed l => some (.debug, "JS rewrite: ".toList ++ l.text ++ " -> ".toList ++ l.pseudonym)
  | .referencesRenamed name pseudonym n =>
    some (.debug, "Reference rewrite: ".toList ++ name ++ " -> ".toList ++ pseudonym ++ " (".toList ++ number n ++
      " occurrences)".toList)
  | .contentChanging dry path =>
    some (.info, (if dry then "Would update contents of: " else "Updating contents of: ").toList ++ path.quoted)
  | .classPassDone t =>
    some (.info, "Class renaming complete: ".toList ++ number t.filesProcessed ++ " files processed, ".toList ++
      number t.contentChanges ++ " content changes".toList)
  | .noImages dir =>
    some (.info, "No image directory at ".toList ++ dir.quoted ++ ", skipping image renaming".toList)
  | .renamingImages dir => some (.info, "Renaming images under: ".toList ++ dir.quoted)
  | .nameSkipped path => some (.debug, "Skipping file with non UTF-8 name: ".toList ++ path.quoted)
  | .pathChanging dry old new =>
    some (.info, (if dry then "Would rename file: " else "Renaming file: ").toList ++ old.quoted ++ " -> ".toList ++
      new.quoted)
  | .imagePassDone t =>
    some (.info, "Image renaming complete: ".toList ++ number t.pathsRenamed ++ " paths renamed, ".toList ++
      number t.filesProcessed ++ " files processed, ".toList ++ number t.contentChanges ++ " content changes".toList)
  | .finished classes images =>
    some (.info, "Obfuscation complete: ".toList ++ number classes ++ " class names, ".toList ++ number images ++
      " image names".toList)

end Notice

end Pseudonym
