import Pseudonym.Codebook
import Pseudonym.Piece
import Pseudonym.Substitution

/-!
# Class names in scripts

In a script a class name is a whole string literal: the name between two single or two double quotes. The entries of a codebook
are taken in order, for each its literal in single quotes and then the one in double quotes, and each sees what the ones before
it have written.
-/

namespace Pseudonym.Script

/-- A name between two quotes, and its pseudonym. -/
structure Literal where
  quote : Char
  name : Text
  pseudonym : Text
  deriving DecidableEq, Repr

namespace Literal

/-- The literal as it is written. -/
def text (l : Literal) : Text := l.quote :: l.name ++ [l.quote]

/-- The literal of the pseudonym. -/
def image (l : Literal) : Text := l.quote :: l.pseudonym ++ [l.quote]

/-- A script cut at every occurrence of the literal. -/
def pieces (l : Literal) (js : Text) : List Piece := Piece.cut (Piece.literal l.text) js

/-- Every occurrence of the literal exchanged, or nothing when there is none. -/
def exchange? (l : Literal) (js : Text) : Option Text := Piece.exchange? (fun _ => some l.image) (l.pieces js)

theorem join_pieces (l : Literal) (js : Text) : Piece.join (l.pieces js) = js :=
  Piece.join_cut (Piece.splits_literal l.text) js

end Literal

/-- The literals of a codebook, in the order in which they are exchanged. -/
def literals (b : Codebook) : List Literal :=
  b.entries.flatMap fun (name, pseudonym) => [⟨'\'', name, pseudonym⟩, ⟨'"', name, pseudonym⟩]

/-- A script with the literals of a codebook's names exchanged, or nothing when it holds none of them. -/
def rename (b : Codebook) (js : Text) : Option Text := Substitution.inTurn Literal.exchange? (literals b) js

end Pseudonym.Script
