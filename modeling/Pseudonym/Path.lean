import Pseudonym.Language
import Pseudonym.Text.Quoted

/-!
# Paths

A path is the bytes it is written with; it is shown and handed on as it was given. What it means is read off its components,
the stretches between slashes.
-/

namespace Pseudonym

/-- A path as it is written. -/
structure Path where
  bytes : Bytes
  deriving DecidableEq, Repr

/-- The name of a file or directory within its directory. -/
abbrev Name := Bytes

namespace Path

/-- The byte between the components of a path. -/
def slash : UInt8 := 0x2F

/-- The byte before an extension. -/
def dot : UInt8 := 0x2E

/-- The name that stands for the directory itself. -/
def here : Name := [dot]

/-- The name that stands for the directory above. -/
def above : Name := [dot, dot]

/-- The path of a text. -/
def ofText (t : Text) : Path := ⟨Utf8.encode t⟩

/-- The path as text, for people to read. -/
def shown (p : Path) : Text := Utf8.decodeLossy p.bytes

/-- The path in quotes. -/
def quoted (p : Path) : Text := Quoted.quote p.bytes

/-- Does the path start at the root of the file system? -/
def isAbsolute (p : Path) : Bool := p.bytes.head? == some slash

/-- Does the path end in a slash? -/
def endsInSlash (p : Path) : Bool := p.bytes.getLast? == some slash

/-- The stretches between the slashes, empty ones included; there is always one more than there are slashes. -/
def stretches : Bytes → List Bytes
  | [] => [[]]
  | b :: bs =>
    if b = slash then [] :: stretches bs
    else match stretches bs with
      | s :: ss => (b :: s) :: ss
      | [] => [[b]]

/-- The names that the path is made of. -/
def components (p : Path) : List Name := (stretches p.bytes).filter fun s => !s.isEmpty

/-- A path below another; an absolute one replaces it. -/
def join (p : Path) (name : Bytes) : Path :=
  if (Path.mk name).isAbsolute then ⟨name⟩
  else if p.bytes.isEmpty || p.endsInSlash then ⟨p.bytes ++ name⟩
  else ⟨p.bytes ++ slash :: name⟩

/-- The last name of the path, unless that stands for another directory. -/
def fileName? (p : Path) : Option Name :=
  match (p.components.filter (· != here)).getLast? with
  | some name => if name = above then none else some name
  | none => none

/-- What a name holds behind its last dot; a dot at the start of the name does not count. -/
def extensionOf (name : Name) : Option Bytes :=
  let ext := (name.reverse.takeWhile (· != dot)).reverse
  if ext.length + 1 < name.length && name != above then some ext else none

/-- The extension of the path's file name. -/
def extension? (p : Path) : Option Bytes := p.fileName?.bind extensionOf

/-- The path of the directory that the path's last name is in, as it is written before the last slash. -/
def parent (p : Path) : Path := ⟨((p.bytes.reverse.dropWhile (· != slash)).drop 1).reverse⟩

/-- The path with another last name. -/
def withFileName (p : Path) (name : Bytes) : Path := p.parent.join name

end Path

/-- The same letters in either case, ASCII letters only. -/
def sameIgnoringCase (s t : Text) : Bool := s.map Char.toLower == t.map Char.toLower

namespace Language

/-- The extension that a language's files have. -/
def extension : Language → Text
  | .stylesheet => "css".toList
  | .markup => "html".toList
  | .script => "js".toList

/-- The language of a file, told by its extension in any case. -/
def ofPath? (p : Path) : Option Language :=
  match p.extension?.bind Utf8.decode? with
  | some ext => all.find? fun l => sameIgnoringCase ext l.extension
  | none => none

end Language

end Pseudonym
