import Pseudonym.Stylesheet.ClassName
import Pseudonym.Text.Slice
import Pseudonym.Text.Utf8

/-!
# The scan of a stylesheet

The scan goes over the bytes of a stylesheet once. It keeps the byte at which the stretch began that it is in, and the ranges of the
section's stretches before; when an opening brace ends the section, these ranges are preludes, unless the section is an at-rule's.
A backslash hides one byte of a string and not a whole character. The scan looks at the text through slices, as do the harvest
of names (`classNames?`) and their exchange (`rename?`) behind it: none of them has a result when a slice is refused.
-/

namespace Pseudonym.Stylesheet

/-- Where the quote is that ends a string. A backslash hides the byte behind it. A string that nothing ends is over at the end of
the bytes, or one byte behind it. -/
def quoteEnd (bytes : Array UInt8) (quote : UInt8) (i : Nat) : Nat :=
  match h : bytes[i]? with
  | none => i
  | some b =>
    if b = quote then i
    else if b = '\\'.toUInt8 then quoteEnd bytes quote (i + 2)
    else quoteEnd bytes quote (i + 1)
termination_by bytes.size - i
decreasing_by all_goals
  have := (Array.getElem?_eq_some_iff.1 h).1
  omega

/-- The end of a string is not before its beginning. -/
theorem le_quoteEnd (bytes : Array UInt8) (quote : UInt8) (i : Nat) : i ≤ quoteEnd bytes quote i := by
  fun_induction quoteEnd bytes quote i <;> omega

/-- Is the first character of the slices, white space aside, an at sign? No slice behind that character is taken. -/
def introducesAtRule (css : Text) : List (Nat × Nat) → Option Bool
  | [] => some false
  | r :: rs => do
    match Text.trimLeft (← css.slice? r.1 r.2) with
    | [] => introducesAtRule css rs
    | c :: _ => some (c == '@')

/-- What the scan keeps: the begin of the stretch that it is in, the stretches of the section before, and the preludes. -/
structure Scan where
  start : Nat := 0
  pending : List (Nat × Nat) := []
  preludes : List (Nat × Nat) := []

namespace Scan

/-- The stretches of the section when a comment begins. -/
def beforeComment (s : Scan) (i : Nat) : List (Nat × Nat) :=
  if s.start < i then s.pending ++ [(s.start, i)] else s.pending

/-- The stretches of the section when the byte is read that ends it. -/
def closed (s : Scan) (i : Nat) : List (Nat × Nat) := s.pending ++ [(s.start, i + 1)]

end Scan

/-- The byte behind a comment, whose text follows its beginning at a byte. -/
def commentEnd (bytes : Array UInt8) (i : Nat) (rest : Text) : Nat :=
  match rest.find? ['*', '/'] with
  | some n => i + n + 2
  | none => bytes.size

/-- The scan from a byte on. -/
def scanFrom (css : Text) (bytes : Array UInt8) (s : Scan) (i : Nat) : Option (List (Nat × Nat)) :=
  match h : bytes[i]? with
  | none => some s.preludes
  | some b =>
    if b = '/'.toUInt8 ∧ bytes[i + 1]? = some '*'.toUInt8 then do
      let stop := commentEnd bytes (i + 2) (← css.from? (i + 2))
      scanFrom css bytes { s with start := stop, pending := s.beforeComment i } stop
    else if b = '"'.toUInt8 ∨ b = '\''.toUInt8 then scanFrom css bytes s (quoteEnd bytes b (i + 1) + 1)
    else if b = '{'.toUInt8 then do
      let preludes := if ← introducesAtRule css (s.closed i) then s.preludes else s.preludes ++ s.closed i
      scanFrom css bytes { start := i + 1, preludes } (i + 1)
    else if b = '}'.toUInt8 ∨ b = ';'.toUInt8 then
      scanFrom css bytes { s with start := i + 1, pending := [] } (i + 1)
    else scanFrom css bytes s (i + 1)
termination_by bytes.size - i
decreasing_by all_goals
  have := (Array.getElem?_eq_some_iff.1 h).1
  have := le_quoteEnd bytes b (i + 1)
  try unfold commentEnd
  try split
  all_goals omega

/-- The ranges of a stylesheet's preludes. -/
def scan? (css : Text) : Option (List (Nat × Nat)) := scanFrom css (Utf8.encode css).toArray {} 0

/-- The class names that a stylesheet styles, slice by slice. -/
def classNames? (css : Text) : Option (List Text) := do
  let preludes ← (← scan? css).mapM fun r => css.slice? r.1 r.2
  return preludes.flatMap fun t => Piece.names (Piece.cut lastClassToken t)

/-- The stylesheet from a byte on with the names of the following preludes exchanged, and how many there are. -/
def exchangeFrom (b : Codebook) (css : Text) (last : Nat) : List (Nat × Nat) → Option (Text × Nat)
  | [] => (css.from? last).map (·, 0)
  | r :: rs => do
    let gap ← css.slice? last r.1
    let ps := Piece.cut classToken (← css.slice? r.1 r.2)
    let (rest, n) ← exchangeFrom b css r.2 rs
    return (gap ++ Piece.exchange b.get? ps ++ rest, Piece.exchanged b.get? ps + n)

/-- A stylesheet with the class names of its selectors exchanged, slice by slice, or nothing when the codebook knows none of
them. -/
def rename? (b : Codebook) (css : Text) : Option (Option Text) := do
  let (t, n) ← exchangeFrom b css 0 (← scan? css)
  return if n = 0 then none else some t

end Pseudonym.Stylesheet
