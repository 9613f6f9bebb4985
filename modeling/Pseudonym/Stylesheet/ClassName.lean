import Pseudonym.Codebook
import Pseudonym.Piece
import Pseudonym.Stylesheet.Prelude

/-!
# Class names in stylesheets

A class name stands in a selector behind a dot, as the longest run of identifier characters there. `classNames` harvests the
names that a stylesheet styles: those followed, white space aside, by the comma or the brace that ends their selector. `rename`
exchanges every class name of a selector that a codebook knows, wherever in the selector it stands.
-/

namespace Pseudonym.Stylesheet

/-- A dot and the class name behind it. -/
def classToken : Piece.Matcher
  | _, '.' :: t =>
    let n := t.takeWhile isIdentChar
    if n.isEmpty then none else some ([.fixed ['.'], .name n], n.length + 1)
  | _, _ => none

/-- Does a selector end at this character? -/
def endsSelector (c : Char) : Bool := c == '{' || c == ','

/-- A dot, the class name behind it, white space, and the character that ends the selector. -/
def lastClassToken : Piece.Matcher
  | _, '.' :: t =>
    let n := t.takeWhile isIdentChar
    let rest := t.dropWhile isIdentChar
    let gap := rest.takeWhile isBlank
    match rest.dropWhile isBlank with
    | d :: _ =>
      if !n.isEmpty && endsSelector d then
        some ([.fixed ['.'], .name n, .fixed (gap ++ [d])], n.length + gap.length + 2)
      else none
    | [] => none
  | _, _ => none

/-- The class names that a stylesheet styles, in order and with repeats. -/
def classNames (css : Text) : List Text :=
  (segments css).flatMap fun
    | .prelude t => Piece.names (Piece.cut lastClassToken t)
    | .other _ => []

/-- A stylesheet cut at every class name of its selectors. -/
def pieces (css : Text) : List Piece :=
  (segments css).flatMap fun
    | .prelude t => Piece.cut classToken t
    | .other t => [.fixed t]

/-- A stylesheet with the class names of its selectors exchanged, or nothing when the codebook knows none of them. -/
def rename (b : Codebook) (css : Text) : Option Text := Piece.exchange? b.get? (pieces css)

/-- A class token that is matched is taken from the text as a whole, with its dot. -/
theorem splits_classToken : Piece.Matcher.Splits classToken := by
  intro before t ps k h
  unfold classToken at h
  split at h
  · next t =>
    simp only at h
    split at h
    · cases h
    · cases h
      have hp := List.takeWhile_prefix isIdentChar (l := t)
      refine ⟨?_, by simpa using hp.length_le⟩
      simpa [Piece.text] using (List.prefix_iff_eq_take.1 hp)
  · cases h

/-- A stylesheet's pieces lose nothing. -/
theorem join_pieces (css : Text) : Piece.join (pieces css) = css := by
  have key (ss : List Segment) : Piece.join (ss.flatMap fun
      | .prelude t => Piece.cut classToken t
      | .other t => [.fixed t]) = Segment.join ss := by
    induction ss with
    | nil => rfl
    | cons s ss ih => cases s <;> simp [ih, Piece.join_cut splits_classToken, Piece.text]
  exact (key _).trans (join_segments css)

end Pseudonym.Stylesheet
