import Pseudonym.Proofs.Attributes
import Pseudonym.Proofs.Codebook

/-!
# The words of class attributes, attribute by attribute

Markup is cut at the values of its class attributes (`values`), and each value at its words (`attributeWords`). Renaming changes
neither the first cut nor the second one, it only puts other words where words were (`rename_words`): what stands between the
values and the white space in them is the same afterwards, and every attribute has as many words as it had.
-/

namespace Pseudonym.Markup

open Piece (exchange imageOf join names swap)

variable {f : Text → Option Text}

/-- An attribute cut at its value. -/
def Attribute.valuePieces (a : Attribute) : List Piece := [.fixed (a.lead ++ [a.quote]), .name a.value, .fixed [a.quote]]

/-- Markup cut at the values of its class attributes. -/
def values (html : Text) : List Piece := Piece.cut (attributeMatcher Attribute.valuePieces) html

/-- The words of the class attributes, from the first attribute to the last. -/
def attributeWords (html : Text) : List (List Text) := (names (values html)).map fun value => names (words value)

/-- A value with its words exchanged. -/
def renamedValue (f : Text → Option Text) (value : Text) : Text := exchange f (words value)

theorem Attribute.valuePieces_renamed (a : Attribute) :
    (a.renamed f).valuePieces = swap (fun value => some (renamedValue f value)) a.valuePieces := rfl

/-- A value that is matched is taken from the text with its quotes. -/
theorem splits_values : Piece.Matcher.Splits (attributeMatcher Attribute.valuePieces) := by
  intro before t ps k h
  obtain ⟨a, ha, h⟩ := Option.map_eq_some_iff.1 h
  cases h
  have hprefix := text_isPrefix_of_attributeAt? ha
  refine ⟨?_, hprefix.length_le⟩
  rw [← List.prefix_iff_eq_take.1 hprefix]
  simp [Attribute.valuePieces, Attribute.text]

/-- The cut at the values loses nothing. -/
theorem join_values (html : Text) : join (values html) = html := Piece.join_cut splits_values html

/-- A piece between the values, or the pieces of a value. -/
def splitValue : Piece → List Piece
  | .fixed t => [.fixed t]
  | .name value => words value

/-- The pieces of markup are its values, each cut at its words. -/
theorem search_pieces (before : Option Char) (t : Text) : Piece.search (attributeMatcher Attribute.pieces) 0 before t =
    (Piece.search (attributeMatcher Attribute.valuePieces) 0 before t).flatMap splitValue := by
  induction before, t using search_induction with
  | hnil before => rw [search_nil, search_nil, List.flatMap_nil]
  | hchar before c t ha ih => rw [search_char ha, search_char ha, ih, List.flatMap_cons, splitValue, List.singleton_append]
  | hattribute before a t ha ih =>
    rw [search_attribute ha, search_attribute ha, ih, List.flatMap_append]
    simp [Attribute.pieces, Attribute.valuePieces, splitValue]

/-- The cut at the words is the cut at the values, with each value cut at its words. -/
theorem pieces_eq_flatMap_values (html : Text) : pieces html = (values html).flatMap splitValue := search_pieces none html

/-- The names among the pieces are the words of the values. -/
theorem names_flatMap_splitValue (ps : List Piece) :
    names (ps.flatMap splitValue) = ((names ps).map fun value => names (words value)).flatten := by
  induction ps with
  | nil => rfl
  | cons p ps ih => cases p <;> simp [splitValue, ih]

/-- The names of markup are the words of its class attributes. -/
theorem names_pieces_eq (html : Text) : names (pieces html) = (attributeWords html).flatten := by
  rw [pieces_eq_flatMap_values, names_flatMap_splitValue, attributeWords]

/-- The exchanged markup is cut at the exchanged values. -/
theorem values_exchange (hf : WritesWords f) (html : Text) :
    values (exchange f (pieces html)) = swap (fun value => some (renamedValue f value)) (values html) :=
  search_exchangeFrom hf Attribute.valuePieces_renamed none html

/-- Renaming in markup, when the pseudonyms are words without quotes. The markup afterwards is cut at the values of its class
attributes where it was cut before, what stands between the values is the same, and each value is cut at its words where it was cut
before, with the same white space. Attribute by attribute, each word that is a name has become its pseudonym, and the others have
stayed. There is no result exactly if no word of an attribute is a name. -/
theorem rename_words {b : Codebook} (hb : WritesWords b.get?) {html out : Text} (hout : (rename b html).getD html = out) :
    attributeWords out = (attributeWords html).map (List.map (imageOf b.get?)) ∧
    join (values html) = html ∧ join (values out) = out ∧
    values out = swap (fun value => some (renamedValue b.get? value)) (values html) ∧
    (∀ value, words (renamedValue b.get? value) = swap b.get? (words value)) ∧
    (rename b html = none ↔ ∀ ws ∈ attributeWords html, ∀ n ∈ ws, n ∉ b.names) := by
  have hexchange : exchange b.get? (pieces html) = out := by
    rw [← hout, ← Piece.getD_exchange?, join_pieces]
    rfl
  have hvalues := values_exchange hb html
  rw [hexchange] at hvalues
  have hwords (value : Text) : words (renamedValue b.get? value) = swap b.get? (words value) := words_exchange hb value
  refine ⟨?_, join_values html, join_values out, hvalues, hwords, ?_⟩
  · rw [attributeWords, hvalues, Piece.names_swap, List.map_map, attributeWords, List.map_map]
    refine List.map_congr_left fun value _ => ?_
    exact (congrArg names (hwords value)).trans (Piece.names_swap _)
  · rw [rename, Piece.exchange?_eq_none_iff, names_pieces_eq]
    simp only [List.mem_flatten, Codebook.get?_eq_none_iff]
    constructor
    · exact fun h ws hws n hn => h n ⟨ws, hws, hn⟩
    · rintro h n ⟨ws, hws, hn⟩
      exact h ws hws n hn

namespace MalformedWitness

/-- Two names with their pseudonyms. -/
def book : Codebook := ⟨[("a".toList, "xyz".toList), ("b".toList, "c".toList)]⟩

/-- Markup with an attribute in capitals, one whose value holds the other kind of quote and what looks like an attribute, and one
that is not closed. -/
def html : Text := "CLASS='a\tq' class = \"b a' class='b\" id=\"a\" class=\"a".toList

def out : Text := "CLASS='xyz\tq' class = \"c a' class='b\" id=\"a\" class=\"a".toList

end MalformedWitness

open MalformedWitness in
/-- A quote that is never closed begins a value that goes on into the next tag; its words are exchanged as well. -/
theorem rename_words_malformed : WritesWords book.get? ∧ (rename book html).getD html = out ∧
    attributeWords html = [["a".toList, "q".toList], ["b".toList, "a'".toList, "class='b".toList]] ∧
    attributeWords out = [["xyz".toList, "q".toList], ["c".toList, "a'".toList, "class='b".toList]] := by
  have hbook : WritesWords book.get? := by
    have hall : (book.pseudonyms.all fun p => !p.isEmpty && p.all fun c => !isBlank c && !Script.isQuote c) = true := by decide
    intro n p hp
    simpa using List.all_eq_true.1 hall p (Codebook.mem_pseudonyms_of_get? hp)
  have hout : (rename book html).getD html = out := by decide +kernel
  have hwords : attributeWords html = [["a".toList, "q".toList], ["b".toList, "a'".toList, "class='b".toList]] := by
    decide +kernel
  refine ⟨hbook, hout, hwords, ?_⟩
  rw [(rename_words hbook hout).1, hwords]
  decide +kernel

end Pseudonym.Markup
