import Pseudonym.LineDiff.Settled
import Pseudonym.LineDiff.Shortest

/-!
# Hunks: the changes with some lines around them

The changes between two texts are shown in hunks. A hunk holds the deleted and inserted lines of one or more changes, with at most
three kept lines before the first and behind the last of them. Kept lines between two changes stay whole unless there are more
than six; then a hunk ends and another begins.
-/

namespace Pseudonym.LineDiff

/-- Kept lines, or lines that stand in place of others. -/
inductive Change where
  | keep (ls : List Line)
  | replace (deleted inserted : List Line)
  deriving DecidableEq, Repr

namespace Change

/-- The lines of the old text. -/
def before : Change → List Line
  | .keep ls => ls
  | .replace d _ => d

/-- The lines of the new text. -/
def after : Change → List Line
  | .keep ls => ls
  | .replace _ i => i

/-- Does the change leave the lines as they are? -/
def isKeep : Change → Bool
  | .keep _ => true
  | .replace _ _ => false

end Change

/-- Lines taken from the old text before what follows. -/
def addDeleted (d : List Line) : List Change → List Change
  | .replace d' i :: cs => .replace (d ++ d') i :: cs
  | cs => .replace d [] :: cs

/-- Lines put into the new text before what follows. -/
def addInserted (i : List Line) : List Change → List Change
  | .replace d i' :: cs => .replace d (i ++ i') :: cs
  | cs => .replace [] i :: cs

/-- Lines kept before what follows. -/
def addKept (k : List Line) : List Change → List Change
  | .keep k' :: cs => .keep (k ++ k') :: cs
  | cs => .keep k :: cs

/-- The changes of a script: deletions and insertions with nothing kept between them are one change. -/
def changesOf : Script → List Change
  | [] => []
  | .keep k :: s => addKept k (changesOf s)
  | .delete d :: s => addDeleted d (changesOf s)
  | .insert i :: s => addInserted i (changesOf s)

/-- Changes that are shown together. -/
abbrev Hunk := List Change

/-- The number of kept lines before the first and behind the last change of a hunk. -/
def context : Nat := 3

/-- The changes with no more kept lines at the start than a hunk begins with. -/
def trimStart : List Change → List Change
  | .keep k :: cs => .keep (k.drop (k.length - context)) :: cs
  | cs => cs

/-- The changes with no more kept lines at the end than a hunk ends with. -/
def trimEnd : List Change → List Change
  | [] => []
  | [.keep k] => [.keep (k.take context)]
  | c :: cs => c :: trimEnd cs

/-- The hunks of changes, the first hunk having begun with some of its own; kept lines alone are no hunk. -/
def hunksFrom (begun : Hunk) : List Change → List Hunk
  | [] => if begun.length ≤ 1 && begun.all Change.isKeep then [] else [begun]
  | .keep k :: cs =>
    if 2 * context < k.length then
      (begun ++ [.keep (k.take context)]) :: hunksFrom [.keep (k.drop (k.length - context))] cs
    else hunksFrom (begun ++ [.keep k]) cs
  | c :: cs => hunksFrom (begun ++ [c]) cs

/-- The hunks of a list of changes. -/
def hunksOf (cs : List Change) : List Hunk := hunksFrom [] (trimEnd (trimStart cs))

/-- The hunks between two texts. -/
def hunks (old new : Text) : List Hunk := hunksOf (changesOf (settled (shortest (lines old) (lines new))))

end Pseudonym.LineDiff
