import Pseudonym.Text.Basic

/-!
# Substitutions made one after another

Where each entry of a list may change a text, the entries are taken in order and each sees the text as the entries before it left
it.
-/

namespace Pseudonym.Substitution

variable {ε : Type} (step : ε → Text → Option Text)

/-- The text after every entry has had its turn, or nothing when none of them changed it. -/
def inTurn : List ε → Text → Option Text
  | [], _ => none
  | e :: es, t =>
    match step e t with
    | none => inTurn es t
    | some t' => some ((inTurn es t').getD t')

/-- The entries that changed the text, each with the text that it saw. -/
def changes : List ε → Text → List (ε × Text)
  | [], _ => []
  | e :: es, t =>
    match step e t with
    | none => changes es t
    | some t' => (e, t) :: changes es t'

end Pseudonym.Substitution
