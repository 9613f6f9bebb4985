import Pseudonym.Codebook
import Pseudonym.Piece

/-!
# Class attributes in markup

A class attribute is the word `class` in any case, at the start of the text or behind white space, an equals sign with white
space around it, and a value in single or double quotes, which runs to the next quote of its kind. The words of its value,
separated by white space, are class names. Attributes are found from left to right, each behind the end of the one before.
-/

namespace Pseudonym.Markup

/-- The letters `c`, `l`, `a`, `s` in any case; the long s is a small `s` too. -/
def isLetter (letter c : Char) : Bool := c == letter || c.toLower == letter || (letter == 's' && c == 'ſ')

/-- Does a text begin with a word, in any case? -/
def startsWith (word t : Text) : Bool :=
  word.length ≤ t.length && (word.zip t).all fun (letter, c) => isLetter letter c

/-- What comes before the quoted value of an attribute, the value, and the quote around it. -/
structure Attribute where
  lead : Text
  quote : Char
  value : Text
  deriving DecidableEq, Repr

/-- The characters of an attribute. -/
def Attribute.text (a : Attribute) : Text := a.lead ++ a.quote :: a.value ++ [a.quote]

/-- The words of a value and the white space between them. -/
def words : Text → List Piece
  | [] => []
  | c :: t =>
    if isBlank c then .fixed [c] :: words t
    else match words t with
      | .name n :: ps => .name (c :: n) :: ps
      | ps => .name [c] :: ps

/-- An attribute cut at the words of its value. -/
def Attribute.pieces (a : Attribute) : List Piece := .fixed (a.lead ++ [a.quote]) :: words a.value ++ [.fixed [a.quote]]

/-- The value that a text begins with, if it begins with a quote and the quote is closed. -/
def quoted? (lead t : Text) : Option Attribute :=
  match t with
  | q :: t =>
    let value := t.takeWhile (· != q)
    if (q == '"' || q == '\'') && value.length < t.length then some ⟨lead, q, value⟩ else none
  | [] => none

/-- The class attribute that a text begins with, `lead` being what was read before it. -/
def attribute? (lead t : Text) : Option Attribute :=
  let name := t.take 5
  let gap := (t.drop 5).takeWhile isBlank
  if startsWith "class".toList t then
    match (t.drop 5).dropWhile isBlank with
    | '=' :: t =>
      let gap' := t.takeWhile isBlank
      quoted? (lead ++ name ++ gap ++ '=' :: gap') (t.dropWhile isBlank)
    | _ => none
  else none

/-- The class attribute at a place of the text: at the very start, or led in by one character of white space. -/
def attributeAt? (before : Option Char) (t : Text) : Option Attribute :=
  (if before.isNone then attribute? [] t else none).or
    (match t with
      | c :: t => if isBlank c then attribute? [c] t else none
      | [] => none)

/-- The matcher of class attributes. -/
def classAttribute : Piece.Matcher := fun before t =>
  (attributeAt? before t).map fun a => (a.pieces, a.text.length)

/-- Markup cut at every word of its class attributes. -/
def pieces (html : Text) : List Piece := Piece.cut classAttribute html

/-- Markup with the words of its class attributes exchanged, or nothing when the codebook knows none of them. -/
def rename (b : Codebook) (html : Text) : Option Text := Piece.exchange? b.get? (pieces html)

/-- The words of a text and the white space between them are the text. -/
@[simp] theorem join_words (t : Text) : Piece.join (words t) = t := by
  induction t with
  | nil => rfl
  | cons c t ih =>
    simp only [words]
    split
    · simp [Piece.text, ih]
    · split <;> simp_all [Piece.text]

/-- The pieces of an attribute are the attribute. -/
@[simp] theorem Attribute.join_pieces (a : Attribute) : Piece.join a.pieces = a.text := by
  simp [Attribute.pieces, Attribute.text, Piece.text]

/-- What is read as a quoted value stands there, behind what has been read before. -/
theorem text_isPrefix_of_quoted? {lead t : Text} {a : Attribute} (h : quoted? lead t = some a) : a.text <+: lead ++ t := by
  unfold quoted? at h
  split at h
  · next q t =>
    simp only at h
    split at h
    · next hc =>
      cases h
      have e := List.takeWhile_append_dropWhile (p := (· != q)) (l := t)
      cases hd : t.dropWhile (· != q) with
      | nil => rw [hd, List.append_nil] at e; simp [e] at hc
      | cons d rest =>
        have hq : d = q := by
          have := List.head?_dropWhile_not (· != q) t
          simpa [hd] using this
        rw [hd, hq] at e
        exact ⟨rest, by simp [Attribute.text, e]⟩
    · cases h
  · cases h

/-- What is read as an attribute stands there, behind what has been read before. -/
theorem text_isPrefix_of_attribute? {lead t : Text} {a : Attribute} (h : attribute? lead t = some a) :
    a.text <+: lead ++ t := by
  unfold attribute? at h
  simp only at h
  split at h
  · split at h
    · next t' ht =>
      have h' := text_isPrefix_of_quoted? h
      have e : t = t.take 5 ++ ((t.drop 5).takeWhile isBlank ++ '=' :: (t'.takeWhile isBlank ++ t'.dropWhile isBlank)) := by
        rw [List.takeWhile_append_dropWhile, ← ht, List.takeWhile_append_dropWhile, List.take_append_drop]
      rw [e]
      simpa using h'
    · cases h
  · cases h

/-- An attribute that is found at a place begins there. -/
theorem text_isPrefix_of_attributeAt? {before : Option Char} {t : Text} {a : Attribute}
    (h : attributeAt? before t = some a) : a.text <+: t := by
  unfold attributeAt? at h
  rw [Option.or_eq_some_iff] at h
  rcases h with h | ⟨-, h⟩
  · split at h
    · exact text_isPrefix_of_attribute? h
    · cases h
  · split at h
    · split at h
      · exact text_isPrefix_of_attribute? h
      · cases h
    · cases h

/-- A class attribute that is matched is taken from the text as a whole. -/
theorem splits_classAttribute : Piece.Matcher.Splits classAttribute := by
  intro before t ps k h
  obtain ⟨a, ha, h⟩ := Option.map_eq_some_iff.1 h
  cases h
  have hp := text_isPrefix_of_attributeAt? ha
  exact ⟨by rw [a.join_pieces]; exact List.prefix_iff_eq_take.1 hp, hp.length_le⟩

/-- The pieces of markup lose nothing. -/
theorem join_pieces (html : Text) : Piece.join (pieces html) = html := Piece.join_cut splits_classAttribute html

end Pseudonym.Markup
