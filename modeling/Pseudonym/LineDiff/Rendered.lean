import Pseudonym.LineDiff.Hunk

/-!
# The diff for a terminal

Each line of a hunk is shown with a sign in front and in a colour, deleted lines in red before the inserted ones in green. A line
that its text leaves unended is ended. A row of hyphens stands between two hunks.
-/

namespace Pseudonym.LineDiff

/-- What has become of a line. -/
inductive Mark where
  | kept
  | deleted
  | inserted
  deriving DecidableEq, Repr

/-- The colour of a line. -/
def Mark.colour : Mark → Text
  | .kept => "\x1b[0m".toList
  | .deleted => "\x1b[31m".toList
  | .inserted => "\x1b[32m".toList

/-- The sign in front of a line. -/
def Mark.sign : Mark → Text
  | .kept => "  ".toList
  | .deleted => "- ".toList
  | .inserted => "+ ".toList

/-- What ends the colour of a line. -/
def colourEnd : Text := "\x1b[0m".toList

/-- A line with its sign, in its colour. -/
def renderLine (m : Mark) (l : Line) : Text :=
  m.colour ++ m.sign ++ l ++ colourEnd ++ if isEnded l then [] else ['\n']

/-- The lines of a change with what has become of them. -/
def Change.marked : Change → List (Mark × Line)
  | .keep ls => ls.map (.kept, ·)
  | .replace d i => d.map (.deleted, ·) ++ i.map (.inserted, ·)

/-- The lines of a hunk with what has become of them. -/
def Hunk.marked (h : Hunk) : List (Mark × Line) := h.flatMap Change.marked

/-- A hunk as it is shown. -/
def renderHunk (h : Hunk) : Text := h.marked.flatMap fun (m, l) => renderLine m l

/-- What stands between two hunks. -/
def separator : Text := List.replicate 40 '-' ++ ['\n']

/-- The diff of two texts, or nothing when no line changed. -/
def render? (old new : Text) : Option Text :=
  let hs := hunks old new
  if hs.any fun h => h.marked.any fun (m, _) => m != .kept then
    some ((hs.map renderHunk).intersperse separator).flatten
  else none

end Pseudonym.LineDiff
