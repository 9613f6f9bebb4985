import Pseudonym.Codebook
import Pseudonym.Piece
import Pseudonym.Substitution

/-!
# References to files

A file's name stands in a text as a reference where it is not part of a longer name: no character of a file name comes before it,
no identifier character behind it, and no dot that an identifier character follows. A dot alone ends a sentence. The entries of
a codebook are taken in order, and each sees what the ones before it have written.
-/

namespace Pseudonym.Reference

/-- Can a file's name begin behind this character? -/
def startsBehind (before : Option Char) : Bool := !before.any isFileNameChar

/-- Can a file's name end before this text? -/
def endsBefore : Text → Bool
  | '.' :: c :: _ => !isIdentChar c
  | c :: _ => !isIdentChar c
  | [] => true

/-- The matcher of one file's name. An occurrence inside a longer name is passed over as a whole. -/
def occurrence (name : Text) : Piece.Matcher := fun before t =>
  if name.isPrefixOf t then
    let whole := startsBehind before && endsBefore (t.drop name.length)
    some ([if whole then .name name else .fixed name], name.length)
  else none

/-- A text cut at every reference to a file. -/
def pieces (name t : Text) : List Piece := Piece.cut (occurrence name) t

/-- Every reference to a file exchanged, or nothing when there is none. -/
def exchange? (entry : Text × Text) (t : Text) : Option Text :=
  Piece.exchange? (fun _ => some entry.2) (pieces entry.1 t)

/-- A text with the references to a codebook's files exchanged, or nothing when it holds none. -/
def rename (b : Codebook) (t : Text) : Option Text := Substitution.inTurn exchange? b.entries t

/-- An occurrence of a name is taken from the text as a whole. -/
theorem splits_occurrence (name : Text) : Piece.Matcher.Splits (occurrence name) := by
  intro before t ps k h
  simp only [occurrence] at h
  split at h
  · next hp =>
    obtain ⟨s, rfl⟩ := List.isPrefixOf_iff_prefix.1 hp
    cases h
    simp only [List.length_append, Nat.le_add_right, and_true, Piece.join_cons, Piece.join_nil, List.append_nil,
      List.take_left]
    split <;> rfl
  · cases h

theorem join_pieces (name t : Text) : Piece.join (pieces name t) = t := Piece.join_cut (splits_occurrence name) t

end Pseudonym.Reference
