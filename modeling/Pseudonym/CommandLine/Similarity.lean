import Pseudonym.Text.Basic

/-!
# Similar words

Two words are compared by Jaro's measure: characters match when they are equal and stand not too far apart, each taking the first
partner that is still free; the measure is the mean of the share of matches in either word and of the share of matches that
stand in the same order. Each step of its calculation is rounded to 53 binary digits, and so are the seven tenths that a word
worth suggesting exceeds; so a measure that would be seven tenths exactly may come out on either side.
-/

namespace Pseudonym.CommandLine

/-- A fraction of natural numbers. -/
structure Share where
  part : Nat
  whole : Nat
  deriving Repr

namespace Share

/-- Is a share smaller than another? -/
def less (a b : Share) : Bool := a.part * b.whole < b.part * a.whole

/-- The nearest whole number to a share; a half goes to the even neighbour. -/
def nearest (s : Share) : Nat :=
  let q := s.part / s.whole
  let rest := 2 * (s.part % s.whole)
  if s.whole < rest ∨ (rest = s.whole ∧ q % 2 = 1) then q + 1 else q

/-- A share with 53 binary digits from the first that is not zero, rounded to the nearest. The share is small: here none exceeds
three. -/
def rounded (s : Share) : Share :=
  let places := 53 + s.whole.log2 - s.part.log2
  let places := if (s.part <<< places) / s.whole < 1 <<< 53 then places else places - 1
  ⟨nearest ⟨s.part <<< places, s.whole⟩, 1 <<< places⟩

/-- The rounded sum of two shares. -/
def plus (a b : Share) : Share := rounded ⟨a.part * b.whole + b.part * a.whole, a.whole * b.whole⟩

/-- The rounded third of a share. -/
def third (s : Share) : Share := rounded ⟨s.part, 3 * s.whole⟩

/-- Is a measure high enough for a suggestion? -/
def isHigh (s : Share) : Bool := (rounded ⟨7, 10⟩).less s

end Share

/-- How far apart matching characters of words of two lengths may stand. -/
def matchingDistance (m n : Nat) : Nat := max m n / 2 - 1

/-- The first place within bounds at which a character stands and no partner has been found, `start` being the place of the list's
first character. -/
def freePlace (c : Char) (low high start : Nat) : List (Char × Bool) → Option Nat
  | [] => none
  | (d, taken) :: ds =>
    if high ≤ start then none
    else if low ≤ start && c == d && !taken then some start
    else freePlace c low high (start + 1) ds

/-- The places of the second word that the characters of the first match, in the order of the first. -/
def matchedPlaces (range : Nat) : Nat → Text → List (Char × Bool) → List (Char × Nat)
  | _, [], _ => []
  | i, c :: cs, word =>
    match freePlace c (i - range) (i + range + 1) 0 word with
    | some j => (c, j) :: matchedPlaces range (i + 1) cs (word.set j (c, true))
    | none => matchedPlaces range (i + 1) cs word

/-- Jaro's measure of two words. -/
def similarity (a b : Text) : Share :=
  if a.isEmpty && b.isEmpty then ⟨1, 1⟩
  else
    let places := matchedPlaces (matchingDistance a.length b.length) 0 a (b.map (·, false))
    let m := places.length
    if m = 0 then ⟨0, 1⟩
    else
      let inOrder := (List.range b.length).filterMap fun j => (places.find? (·.2 == j)).map (·.1)
      let swapped := ((places.map (·.1)).zip inOrder).countP fun (c, d) => c != d
      let share (part whole : Nat) := Share.rounded ⟨part, whole⟩
      (((share m a.length).plus (share m b.length)).plus (share (m - swapped / 2) m)).third

/-- A candidate put in its place among candidates of rising measure, behind those of the same measure. -/
def rank (c : Share × Text) : List (Share × Text) → List (Share × Text)
  | [] => [c]
  | d :: ds => if c.1.less d.1 then c :: d :: ds else d :: rank c ds

/-- The words worth suggesting in place of a word, the most similar last. -/
def suggestions (word : Text) (words : List Text) : List Text :=
  let candidates := (words.map fun w => (similarity word w, w)).filter fun c => c.1.isHigh
  (candidates.foldl (fun ranked c => rank c ranked) []).map (·.2)

end Pseudonym.CommandLine
