import Pseudonym.Text.Basic

/-!
# Selector preludes of a stylesheet

A stylesheet is read from left to right in one pass. Comments run from `/*` to the next `*/`, quoted strings from a quote to the
next quote of the same kind, a backslash hiding the character behind it; both run to the end when nothing closes them. Elsewhere
a brace or a semicolon ends a section. A section that ends in an opening brace is a selector, whose parts outside comments are
its preludes, the brace included, unless its first character that is no white space is an at sign: then it introduces an
at-rule. Every other section holds no selector.

`segments` cuts the stylesheet into the preludes and what lies between them, so that the parts in order are the stylesheet
again (`join_segments`); `preludeRanges` says where the preludes lie in the stylesheet's UTF-8 form.
-/

namespace Pseudonym.Stylesheet

/-- A stretch of a stylesheet: part of a selector, or anything else. -/
inductive Segment where
  | prelude (t : Text)
  | other (t : Text)
  deriving DecidableEq, Repr

namespace Segment

/-- The characters of a segment. -/
def text : Segment → Text
  | .prelude t => t
  | .other t => t

/-- The stylesheet that was cut. -/
def join (ss : List Segment) : Text := ss.flatMap text

/-- A segment that turned out to belong to no selector. -/
def demoted (s : Segment) : Segment := .other s.text

/-- The characters of a prelude, nothing for another segment. -/
def selectorText : Segment → Text
  | .prelude t => t
  | .other _ => []

end Segment

namespace Segment

@[simp] theorem join_nil : join [] = [] := rfl

@[simp] theorem join_cons (s : Segment) (ss : List Segment) : join (s :: ss) = s.text ++ join ss := rfl

/-- Segments that are put together give their texts put together. -/
@[simp] theorem join_append (ss ts : List Segment) : join (ss ++ ts) = join ss ++ join ts := by
  simp [join]

@[simp] theorem text_prelude (t : Text) : (prelude t).text = t := rfl

@[simp] theorem text_other (t : Text) : (other t).text = t := rfl

@[simp] theorem text_demoted (s : Segment) : s.demoted.text = s.text := rfl

/-- To demote segments leaves their text as it is. -/
@[simp] theorem join_map_demoted (ss : List Segment) : join (ss.map demoted) = join ss := by
  induction ss with
  | nil => rfl
  | cons s ss ih => simp [ih]

end Segment

/-- What the reader is inside of. -/
inductive Mode where
  | plain
  | comment
  | quoted (quote : Char)
  deriving DecidableEq, Repr

/-- The section that has been read so far: its segments, latest first, and the characters since the last of them, also latest
first. The segments outside comments stand as preludes until the section's end decides. -/
structure Section where
  segments : List Segment := []
  current : Text := []

namespace Section

/-- The characters of a section, in order. -/
def text (s : Section) : Text := Segment.join s.segments.reverse ++ s.current.reverse

/-- One character more. -/
def push (s : Section) (c : Char) : Section := { s with current := c :: s.current }

/-- The end of a stretch outside comments; an empty stretch leaves no segment. -/
def endPrelude (s : Section) : Section :=
  if s.current.isEmpty then s else { segments := .prelude s.current.reverse :: s.segments }

/-- The end of a comment. -/
def endComment (s : Section) : Section := { segments := .other s.current.reverse :: s.segments }

/-- Does the text outside comments begin with an at sign, white space aside? -/
def isAtRule (s : Section) : Bool :=
  (Text.trimLeft (s.segments.reverse.flatMap Segment.selectorText)).head? == some '@'

/-- The segments of a section that no opening brace ends. -/
def dismissed (s : Section) : List Segment := s.endPrelude.segments.reverse.map Segment.demoted

/-- The segments of a section that an opening brace ends, the brace being its last character. -/
def opened (s : Section) : List Segment :=
  let s := s.endPrelude
  if s.isAtRule then s.dismissed else s.segments.reverse

@[simp] theorem text_empty : text {} = [] := rfl

/-- A character that is pushed comes at the end of what has been read. -/
@[simp] theorem text_push (s : Section) (c : Char) : (s.push c).text = s.text ++ [c] := by
  simp [push, text]

@[simp] theorem current_endPrelude (s : Section) : s.endPrelude.current = [] := by
  unfold endPrelude
  split
  · next h => simpa using h
  · rfl

/-- To end a prelude loses nothing of what has been read. -/
@[simp] theorem text_endPrelude (s : Section) : s.endPrelude.text = s.text := by
  unfold endPrelude
  split <;> simp [text]

/-- To end a comment loses nothing of what has been read. -/
@[simp] theorem text_endComment (s : Section) : s.endComment.text = s.text := by
  simp [endComment, text]

/-- Between two segments, the segments are all that has been read. -/
theorem join_reverse_segments {s : Section} (h : s.current = []) : Segment.join s.segments.reverse = s.text := by
  simp [text, h]

/-- A section that turns out to be no prelude keeps its text. -/
@[simp] theorem join_dismissed (s : Section) : Segment.join s.dismissed = s.text := by
  rw [dismissed, Segment.join_map_demoted, join_reverse_segments s.current_endPrelude, text_endPrelude]

/-- A section that ends in a brace keeps its text. -/
@[simp] theorem join_opened (s : Section) : Segment.join s.opened = s.text := by
  simp only [opened]
  split
  · simp
  · rw [join_reverse_segments s.current_endPrelude, text_endPrelude]

end Section

/-- Reads on from within a section. -/
def readFrom : Mode → Section → Text → List Segment
  | .comment, s, [] => s.endComment.dismissed
  | _, s, [] => s.dismissed
  | .plain, s, '/' :: '*' :: t => readFrom .comment ((s.endPrelude.push '/').push '*') t
  | .plain, s, c :: t =>
    if c = '{' then (s.push c).opened ++ readFrom .plain {} t
    else if c = '}' ∨ c = ';' then (s.push c).dismissed ++ readFrom .plain {} t
    else if c = '"' ∨ c = '\'' then readFrom (.quoted c) (s.push c) t
    else readFrom .plain (s.push c) t
  | .comment, s, '*' :: '/' :: t => readFrom .plain ((s.push '*').push '/').endComment t
  | .comment, s, c :: t => readFrom .comment (s.push c) t
  | .quoted q, s, '\\' :: c :: t => readFrom (.quoted q) ((s.push '\\').push c) t
  | .quoted q, s, c :: t => readFrom (if c = q then .plain else .quoted q) (s.push c) t

/-- A stylesheet cut into its selector preludes and what lies between them. -/
def segments (css : Text) : List Segment := readFrom .plain {} css

/-- What is read on from a section joins to the section and what follows it. -/
theorem join_readFrom (m : Mode) (s : Section) (t : Text) : Segment.join (readFrom m s t) = s.text ++ t := by
  fun_induction readFrom m s t <;> simp_all

/-- A stylesheet's segments lose nothing. -/
theorem join_segments (css : Text) : Segment.join (segments css) = css := join_readFrom .plain {} css

/-- The ranges of the preludes among segments that begin at an offset. -/
def rangesFrom : Nat → List Segment → List (Nat × Nat)
  | _, [] => []
  | n, .prelude t :: ss => (n, n + t.utf8Size) :: rangesFrom (n + t.utf8Size) ss
  | n, .other t :: ss => rangesFrom (n + t.utf8Size) ss

/-- Where the preludes lie: begin and end of each in the bytes of the stylesheet's UTF-8 form. -/
def preludeRanges (css : Text) : List (Nat × Nat) := rangesFrom 0 (segments css)

end Pseudonym.Stylesheet
