import Pseudonym.Text.Utf8

/-!
# Control sequences

A terminal obeys the control sequences in a text and shows the rest. For a reader that is no terminal they are taken out
(`strip`), or the characters that could begin one are shown by number (`disarm`). A text of shown characters is not changed by
taking sequences out (`strip_of_shown`), and in no text anything is added or moved (`strip_sublist`).
-/

namespace Pseudonym.ControlSequence

/-- Where a reader of a text stands: among what is shown, or within a control sequence. -/
inductive Place where
  | shown
  /-- Behind the escape character. -/
  | escape
  /-- In a sequence that ends at its first letter or digit. -/
  | designator
  /-- Behind the introducer of parameters; the first letter ends the sequence. -/
  | control
  /-- At the start of a device's control string. -/
  | deviceStart
  /-- Among the parameters of a device's control string. -/
  | deviceParameters
  /-- Behind the parameters of a device's control string. -/
  | deviceIntermediates
  /-- In a string that a device or an application reads. -/
  | string
  /-- In a command to the terminal's system, which the bell ends. -/
  | command
  deriving DecidableEq, Repr

/-- Is the character of white space in ASCII? -/
def isAsciiBlank (c : Char) : Bool := c == ' ' || c == '\t' || c == '\n' || c == '\x0c' || c == '\r'

/-- Is the character shown outside sequences? -/
def isShown (c : Char) : Bool := isAsciiBlank c || (0x20 ≤ c.toNat && c.toNat != 0x7F)

namespace Place

/-- Is a character shown at a place, where the one before it was or was not? White space in the first part of a sequence is, and
behind it everything that is shown outside sequences. -/
def shows (p : Place) (showing : Bool) (c : Char) : Bool :=
  if showing then isShown c
  else
    match p with
    | .shown => isShown c
    | .escape | .designator | .control => c.toNat < 0x20 && isAsciiBlank c
    | _ => false

/-- The place behind a character that is not shown. -/
def next (p : Place) (c : Char) : Place :=
  let n := c.toNat
  if c = '\x1b' then .escape
  else if c = '\x18' ∨ c = '\x1a' then .shown
  else
    match p with
    | .shown => .shown
    | .escape =>
      if n < 0x20 ∨ 0x7F ≤ n then .escape
      else if n < 0x30 then .designator
      else if c = '[' then .control
      else if c = ']' then .command
      else if c = 'P' then .deviceStart
      else if c = 'X' ∨ c = '^' ∨ c = '_' then .string
      else .shown
    | .designator => if 0x30 ≤ n ∧ n < 0x7F then .shown else .designator
    | .control => if 0x40 ≤ n ∧ n < 0x7F then .shown else .control
    | .deviceStart =>
      if n < 0x20 ∨ 0x7F ≤ n then .deviceStart
      else if n < 0x30 then .deviceIntermediates
      else if n < 0x40 then .deviceParameters
      else .string
    | .deviceParameters =>
      if n < 0x20 ∨ 0x7F ≤ n then .deviceParameters
      else if n < 0x30 then .deviceIntermediates
      else if n < 0x3C then .deviceParameters
      else .string
    | .deviceIntermediates => if 0x30 ≤ n ∧ n < 0x7F then .string else .deviceIntermediates
    | .string => if (Utf8.encodeChar c).contains 0x9C then .shown else .string
    | .command => if c = '\x07' then .shown else .command

end Place

/-- The text without control sequences, for a reader at a place that was or was not shown the character before. White space within
a sequence breaks it off; a reader that resumes takes it up again at the next character that is not shown, if only
ASCII stands between. -/
def stripFrom (resumes : Bool) (p : Place) (showing : Bool) : Text → Text
  | [] => []
  | c :: t =>
    if p.shows showing c then
      c :: stripFrom resumes (if resumes && c.toNat < 0x80 then p else .shown) true t
    else stripFrom resumes (p.next c) false t

/-- The text without control sequences. -/
def strip (resumes : Bool) (t : Text) : Text := stripFrom resumes .shown false t

/-- Nothing is added, wherever the reading begins. -/
theorem stripFrom_sublist (resumes : Bool) (t : Text) :
    ∀ (p : Place) (showing : Bool), (stripFrom resumes p showing t).Sublist t := by
  induction t with
  | nil => intro p showing; exact List.Sublist.slnil
  | cons c t ih =>
    intro p showing
    rw [stripFrom]
    split
    · exact (ih _ _).cons_cons c
    · exact (ih _ _).cons c

/-- What is left stood in the text, in the same order. -/
theorem strip_sublist (resumes : Bool) (t : Text) : (strip resumes t).Sublist t := stripFrom_sublist resumes t _ _

/-- Characters that are shown are kept while no control sequence begins. -/
theorem stripFrom_of_shown (resumes : Bool) {t : Text} (h : ∀ c ∈ t, isShown c = true) :
    ∀ showing : Bool, stripFrom resumes .shown showing t = t := by
  induction t with
  | nil => intro showing; rfl
  | cons c t ih =>
    intro showing
    have hc : isShown c = true := h c List.mem_cons_self
    have ht := ih (fun d hd => h d (List.mem_cons_of_mem c hd)) true
    simp [stripFrom, Place.shows, hc, ht]

/-- A text of shown characters has no control sequence. -/
theorem strip_of_shown (resumes : Bool) {t : Text} (h : ∀ c ∈ t, isShown c = true) : strip resumes t = t :=
  stripFrom_of_shown resumes h false

/-- A stretch of a text that a terminal shows in bold face. -/
def bold (t : Text) : Text := "\x1b[1m".toList ++ t ++ "\x1b[0m".toList

/-- A character in a line for a terminal: one that could begin a control sequence or change what was shown before is shown by
number. -/
def disarmChar (c : Char) : Text :=
  let n := c.toNat
  let digits := [Nat.digitChar (n / 16), Nat.digitChar (n % 16)]
  if c = '\x1b' ∨ c = '\x07' ∨ c = '\x08' ∨ c = '\x0c' ∨ c = '\x7f' then ['\\', 'x'] ++ digits
  else if 0x80 ≤ n ∧ n < 0xA0 then ['\\', 'u', '\x7b'] ++ digits ++ ['\x7d']
  else [c]

/-- A line for a terminal, with nothing in it for the terminal to obey. -/
def disarm (t : Text) : Text := t.flatMap disarmChar

end Pseudonym.ControlSequence
