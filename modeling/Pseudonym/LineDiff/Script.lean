import Pseudonym.Text.Basic

/-!
# Edit scripts

A script turns one list of lines into another by keeping, deleting and inserting runs of lines, in order. `before` and `after`
are the two lists it leads between.
-/

namespace Pseudonym.LineDiff

/-- A line of a text, with the characters that end it. -/
abbrev Line := Text

/-- The lines of a text. A line ends behind a line feed, a carriage return, or the two together. -/
def lines : Text → List Line
  | [] => []
  | '\r' :: '\n' :: t => ['\r', '\n'] :: lines t
  | c :: t =>
    if c = '\n' ∨ c = '\r' then [c] :: lines t
    else match lines t with
      | [] => [[c]]
      | l :: ls => (c :: l) :: ls

/-- Does a line end in a line feed or a carriage return? -/
def isEnded (l : Line) : Bool := l.getLast?.any fun c => c == '\n' || c == '\r'

/-- One step of a script. -/
inductive Edit where
  | keep (ls : List Line)
  | delete (ls : List Line)
  | insert (ls : List Line)
  deriving DecidableEq, Repr

namespace Edit

/-- The lines that the step concerns. -/
def lines : Edit → List Line
  | .keep ls => ls
  | .delete ls => ls
  | .insert ls => ls

/-- The lines that the step reads. -/
def before : Edit → List Line
  | .keep ls => ls
  | .delete ls => ls
  | .insert _ => []

/-- The lines that the step writes. -/
def after : Edit → List Line
  | .keep ls => ls
  | .delete _ => []
  | .insert ls => ls

end Edit

/-- Steps in order. -/
abbrev Script := List Edit

/-- The lines that a script starts from. -/
def Script.before (s : Script) : List Line := s.flatMap Edit.before

/-- The lines that a script ends with. -/
def Script.after (s : Script) : List Line := s.flatMap Edit.after

/-- How many lines two lists have in common at their starts. -/
def commonStart : List Line → List Line → Nat
  | a :: as, b :: bs => if a = b then commonStart as bs + 1 else 0
  | _, _ => 0

/-- How many lines two lists have in common at their ends. -/
def commonEnd (as bs : List Line) : Nat := commonStart as.reverse bs.reverse

/-- Up to there the two lists are the same. -/
theorem take_commonStart (as bs : List Line) : as.take (commonStart as bs) = bs.take (commonStart as bs) := by
  induction as generalizing bs with
  | nil => simp [commonStart]
  | cons a as ih =>
    cases bs with
    | nil => simp [commonStart]
    | cons b bs =>
      by_cases h : a = b
      · simp [commonStart, h, ih]
      · simp [commonStart, h]

/-- The common start is no longer than the first list. -/
theorem commonStart_le (as bs : List Line) : commonStart as bs ≤ as.length := by
  induction as generalizing bs with
  | nil => simp [commonStart]
  | cons a as ih =>
    cases bs with
    | nil => simp [commonStart]
    | cons b bs =>
      have := ih bs
      simp only [commonStart, List.length_cons]
      split <;> omega

/-- The common end is no longer than the first list. -/
theorem commonEnd_le (as bs : List Line) : commonEnd as bs ≤ as.length := by
  simpa [commonEnd] using commonStart_le as.reverse bs.reverse

/-- The lines are the text again. -/
theorem flatten_lines (t : Text) : (lines t).flatten = t := by
  fun_induction lines t with
  | case1 => rfl
  | case2 t ih => simp [ih]
  | case3 c t _ h ih => simp [ih]
  | case4 c t _ h e ih => rw [e] at ih; simp at ih; simp [← ih]
  | case5 c t _ h l ls e ih => rw [e] at ih; simp at ih; simp [← ih]

end Pseudonym.LineDiff
