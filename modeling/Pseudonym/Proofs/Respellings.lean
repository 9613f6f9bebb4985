import Pseudonym.Proofs.Attributes
import Pseudonym.Proofs.Charsets
import Pseudonym.Proofs.Lexemes
import Pseudonym.Proofs.Mentions
import Pseudonym.Proofs.Occurrences

/-!
# Texts in which words are spelled anew

In each of the languages the exchange of class names is one of words: every name stands between characters that part it from what
is around it, and so does the pseudonym that is put there (`Language.respelled`). In markup white space and quotes part the words of
an attribute, in a script the quotes of a literal do; in a stylesheet a dot stands before a class name, and behind it the rest of its
selector begins with no identifier character, or a comment does. So a reference is touched only where a class name or a pseudonym
stands like that in the name it is to (`Reference.Untouched`).
-/

namespace Pseudonym

open Piece (exchange join names)
open Reference (isBetween isParting)

/-- A text in which names have been exchanged for their pseudonyms one at a time, each between characters that part it from
what is around it. -/
inductive Respelled (b : Codebook) (s : Text) : Text → Prop where
  | refl : Respelled b s s
  | word {u v n p : Text} : (n, p) ∈ b.entries → isBetween u.getLast? v.head? = true →
      Respelled b s (u ++ (n ++ v)) → Respelled b s (u ++ (p ++ v))

/-- Exchanges follow on one another. -/
theorem Respelled.trans {b : Codebook} {s t u : Text} (h : Respelled b s t) (h' : Respelled b t u) : Respelled b s u := by
  induction h' with
  | refl => exact h
  | word hn hbetween _ ih => exact .word hn hbetween ih

/-- Without names nothing is exchanged. -/
theorem Respelled.eq_of_isEmpty {b : Codebook} {s t : Text} (hb : b.isEmpty = true) (h : Respelled b s t) : t = s := by
  induction h with
  | refl => rfl
  | word hn _ _ _ =>
    rw [List.isEmpty_iff.1 hb] at hn
    cases hn

/-- A relation between texts that leads on from a text to the one with a word exchanged. -/
structure IsWordwise (b : Codebook) (R : Text → Text → Prop) : Prop where
  trans : ∀ s t u, R s t → R t u → R s u
  word {u v n p : Text} : (n, p) ∈ b.entries → isBetween u.getLast? v.head? = true →
    R (u ++ (n ++ v)) (u ++ (p ++ v))

/-- To be respelled leads on from text to text. -/
theorem isWordwise_respelled (b : Codebook) : IsWordwise b (Respelled b) :=
  ⟨fun _ _ _ => .trans, fun hn hbetween => .word hn hbetween .refl⟩

namespace Piece

/-! ## Pieces whose names are parted from what is around them -/

/-- Pieces with each name between characters that part it from what is around it. Before the pieces stands the character that is
given, or another name. -/
inductive Parted : Option Char → List Piece → Prop where
  | nil (before : Option Char) : Parted before []
  | fixed {before : Option Char} {t : Text} {ps : List Piece} : Parted (t.getLast?.or before) ps → Parted before (.fixed t :: ps)
  | name {c : Char} {n : Text} {ps : List Piece} : isBetween (some c) (join ps).head? = true → Parted none ps →
      Parted (some c) (.name n :: ps)

/-- Pieces that may stand behind a name may stand behind any character. -/
theorem Parted.of_none {before : Option Char} {ps : List Piece} (h : Parted none ps) : Parted before ps := by
  induction ps with
  | nil => exact .nil before
  | cons p ps ih =>
    cases h with
    | @fixed _ t _ h =>
      refine .fixed ?_
      cases ht : t.getLast? with
      | none =>
        rw [ht] at h
        exact ih h
      | some c =>
        rw [ht] at h
        exact h

/-- A name is parted from what is around it, whatever has come in the place of the names before it. -/
theorem Parted.around {before : Option Char} {qs rs : List Piece} {n : Text} (h : Parted before (qs ++ .name n :: rs))
    (f : Text → Option Text) :
    ∃ c, (exchange f qs).getLast?.or before = some c ∧ isBetween (some c) (join rs).head? = true := by
  induction qs generalizing before with
  | nil =>
    cases h with
    | name hbetween _ => exact ⟨_, rfl, hbetween⟩
  | cons q qs ih =>
    cases h with
    | @fixed _ t _ h =>
      obtain ⟨c, hlast, hbetween⟩ := ih h
      refine ⟨c, ?_, hbetween⟩
      rw [exchange, List.getLast?_append, Option.or_assoc]
      exact hlast
    | @name _ m _ _ h =>
      obtain ⟨c, hlast, hbetween⟩ := ih h
      rw [Option.or_none] at hlast
      exact ⟨c, by rw [exchange, List.getLast?_append, hlast]; rfl, hbetween⟩

/-- Names that are parted from what is around them are exchanged one at a time. -/
theorem Parted.wordwise {b : Codebook} {R : Text → Text → Prop} (hR : IsWordwise b R) {ps : List Piece} (h : Parted none ps)
    {out : Text} (hout : exchange? b.get? ps = some out) : R (join ps) out := by
  refine exchange?_trans hR.trans ?_ hout
  rintro qs n rs rfl p hp
  obtain ⟨c, hlast, hbetween⟩ := h.around b.get?
  rw [Option.or_none] at hlast
  exact hR.word (Codebook.mem_entries_of_get? hp) (hlast ▸ hbetween)

end Piece

/-! ## Stylesheets -/

namespace Stylesheet

variable {ss : List Segment}

/-- Each prelude ends in a brace, or no identifier character comes behind it. -/
def Closed : List Segment → Text → Prop
  | [], _ => True
  | .prelude t :: ss, v => (t.getLast? = some '{' ∨ (Segment.join ss ++ v).head?.any isIdentChar = false) ∧ Closed ss v
  | .other _ :: ss, v => Closed ss v

/-- Segments behind others close what those leave open. -/
theorem closed_append {ts : List Segment} {v : Text} (hss : Closed ss (Segment.join ts ++ v)) (hts : Closed ts v) :
    Closed (ss ++ ts) v := by
  induction ss with
  | nil => exact hts
  | cons s ss ih =>
    cases s with
    | prelude t =>
      refine ⟨hss.1.imp_right fun h => ?_, ih hss.2⟩
      show (Segment.join (ss ++ ts) ++ v).head?.any isIdentChar = false
      rwa [Segment.join_append, List.append_assoc]
    | other t => exact ih hss

/-- Segments that are demoted leave nothing open. -/
theorem closed_map_demoted (ss : List Segment) (v : Text) : Closed (ss.map Segment.demoted) v := by
  induction ss with
  | nil => trivial
  | cons s ss ih => exact ih

namespace Section

/-- A prelude may end before what begins with no identifier character, and behind a brace anywhere. -/
theorem closed_endPrelude {s : Section} (h : ∀ v, Closed s.segments.reverse v) {v : Text}
    (hv : s.current.reverse.getLast? = some '{' ∨ v.head?.any isIdentChar = false) :
    Closed s.endPrelude.segments.reverse v := by
  unfold endPrelude
  split
  · exact h v
  · rw [List.reverse_cons]
    exact closed_append (h _) ⟨hv, trivial⟩

/-- A comment may end a prelude. -/
theorem closed_take {s : Section} (h : ∀ v, Closed s.segments.reverse v) (x : Lexeme) (v : Text) :
    Closed (s.take x).segments.reverse v := by
  cases hx : x.isComment with
  | true =>
    obtain ⟨rest, rfl⟩ := Lexeme.isComment_iff.1 hx
    rw [take_comment, List.reverse_cons]
    exact closed_append (closed_endPrelude h (.inr rfl)) trivial
  | false =>
    rw [take_of_not_isComment hx]
    exact h v

end Section

/-- Behind a prelude the section begins with its comment, or has ended in a brace. -/
theorem closed_readLexemes {s : Section} (h : ∀ v, Closed s.segments.reverse v) (xs : List Lexeme) (v : Text) :
    Closed (readLexemes s xs) v := by
  induction xs generalizing s with
  | nil => exact closed_map_demoted _ v
  | cons x xs ih =>
    have hempty := ih (s := {}) fun _ => trivial
    rw [readLexemes]
    split
    · next hopen =>
      refine closed_append ?_ hempty
      simp only [Section.opened]
      split
      · exact closed_map_demoted _ _
      · refine Section.closed_endPrelude (Section.closed_take h x) (.inl ?_)
        rw [hopen, Section.take_of_not_isComment rfl]
        simp [Lexeme.text]
    · split
      · exact closed_append (closed_map_demoted _ _) hempty
      · exact ih (Section.closed_take h x)

/-- The segments of a stylesheet leave nothing open. -/
theorem closed_segments (css : Text) : Closed (segments css) [] := by
  rw [segments, readFrom_lexemes]
  exact closed_readLexemes (s := {}) (fun _ => trivial) _ _

/-- The class names of a selector are parted from what is around them. -/
theorem Tokens.parted {l : List Symbol} (h : Tokens l) {ps : List Piece}
    (hbehind : ∀ k w, l = k ++ [.word w] → (join ps).head?.any isIdentChar = false) (hps : Piece.Parted none ps)
    (before : Option Char) : Piece.Parted before (l.map (Symbol.piece id) ++ ps) := by
  induction h generalizing before with
  | nil => exact hps.of_none
  | @token w l hl _ ih =>
    have hrest := ih (fun k v hk => hbehind (.char '.' :: .word w :: k) v (by rw [hk]; rfl)) none
    suffices hhead : (join (l.map (Symbol.piece id) ++ ps)).head?.any isIdentChar = false from
      .fixed (.name (Reference.isBetween_iff.2 (.inl ⟨rfl, hhead⟩)) hrest)
    rw [Piece.join_append, join_map_piece]
    cases l with
    | nil => exact hbehind [.char '.'] w rfl
    | cons x l =>
      rw [← head?_flatten_any (f := id)] at hl
      obtain ⟨c, t, ht⟩ := List.exists_cons_of_ne_nil (mt flatten_eq_nil.1 (List.cons_ne_nil x l) : flatten id (x :: l) ≠ [])
      rw [ht] at hl ⊢
      exact hl
  | @char c l hc _ ih => exact .fixed (ih (fun k w hk => hbehind (.char c :: k) w (by rw [hk]; rfl)) _)

/-- Each segment is cut at class names that are parted from what is around them. -/
theorem parted_flatMap_pieces (h : Closed ss []) : Piece.Parted none (ss.flatMap Segment.pieces) := by
  induction ss with
  | nil => exact .nil none
  | cons s ss ih =>
    cases s with
    | other t => exact .fixed (ih h).of_none
    | prelude t =>
      obtain ⟨l, hl, rfl⟩ := exists_tokens t
      rw [List.flatMap_cons, Segment.pieces, cut_flatten hl]
      refine hl.parted ?_ (ih h.2) none
      rintro k w rfl
      rcases h.1 with hbrace | hhead
      · rw [flatten_append, flatten_word, flatten_nil, List.append_nil, id_eq, List.getLast?_append,
          List.getLast?_eq_some_getLast w.nonempty, Option.some_or] at hbrace
        have hident := w.chars _ (List.getLast_mem w.nonempty)
        rw [Option.some.inj hbrace] at hident
        cases hident
      · rwa [Segment.join_flatMap_pieces, ← List.append_nil (Segment.join ss)]

/-- The class names of a stylesheet are parted from what is around them. -/
theorem parted_pieces (css : Text) : Piece.Parted none (pieces css) := by
  rw [pieces_eq_flatMap]
  exact parted_flatMap_pieces (closed_segments css)

end Stylesheet

/-! ## Markup -/

namespace Markup

/-- The words of an attribute are parted by white space and by its quotes. -/
theorem IsWords.parted {ps qs : List Piece} (h : IsWords ps) {q : Char} (hq : Script.isQuote q = true)
    (hqs : Piece.Parted none qs) {before : Option Char}
    (hbefore : (∃ c, before = some c ∧ isParting c = true) ∨ ∀ p ∈ ps.head?, p.name? = none) :
    Piece.Parted before (ps ++ .fixed [q] :: qs) := by
  have hblankParting {c : Char} (hc : isBlank c = true) : isParting c = true := by rw [isParting, hc, Bool.true_or]
  induction h generalizing before with
  | nil => exact .fixed hqs.of_none
  | @blank c ps hc _ ih => exact .fixed (ih (.inl ⟨c, rfl, hblankParting hc⟩))
  | @word n ps _ _ hhead hwords ih =>
    obtain ⟨c, rfl, hc⟩ := hbefore.resolve_right fun h => by cases h _ rfl
    suffices hbehind : (join (ps ++ .fixed [q] :: qs)).head?.all isParting = true from
      .name (Reference.isBetween_iff.2 (.inr ⟨hc, hbehind⟩)) (ih (.inr hhead))
    cases hwords with
    | nil => exact Bool.or_eq_true_iff.2 (.inr hq)
    | blank hc _ => exact hblankParting hc
    | word _ _ _ _ => cases hhead _ rfl

/-- From any place on, the words of attributes are parted from what is around them. -/
theorem parted_search (before : Option Char) (t : Text) :
    Piece.Parted none (Piece.search (attributeMatcher Attribute.pieces) 0 before t) := by
  induction before, t using search_induction with
  | hnil before =>
    rw [search_nil]
    exact .nil none
  | hchar before c t ha ih =>
    rw [search_char ha]
    exact .fixed ih.of_none
  | hattribute before a t ha ih =>
    have hquote := (attributeAt?_eq_some_iff.1 ha).1.quote
    rw [search_attribute ha, Attribute.pieces, List.cons_append, List.cons_append, List.append_assoc, List.singleton_append]
    refine .fixed ((isWords_words a.value).parted hquote ih (.inl ⟨a.quote, ?_, Bool.or_eq_true_iff.2 (.inr hquote)⟩))
    rw [List.getLast?_concat, Option.some_or]

/-- The words of the attributes of markup are parted from what is around them. -/
theorem parted_pieces (html : Text) : Piece.Parted none (pieces html) := parted_search none html

end Markup

/-! ## All languages -/

section Wordwise

variable {b : Codebook} {R : Text → Text → Prop} (hR : IsWordwise b R)

include hR

/-- A literal is exchanged wherever it stands, with its quotes around it. -/
theorem Script.Literal.wordwise {l : Script.Literal} (hl : l ∈ Script.literals b) {s t : Text} (h : l.exchange? s = some t) :
    R s t := by
  obtain ⟨hquote, hentry⟩ := Script.mem_literals_iff.1 hl
  have hparting : isParting l.quote = true := Bool.or_eq_true_iff.2 (.inr hquote)
  rw [← Script.Literal.join_pieces l s]
  refine Piece.exchange?_trans hR.trans ?_ h
  intro qs n rs hps p hp
  obtain rfl := Piece.names_cut_literal l.text s n (by rw [← Script.Literal.pieces, hps]; simp)
  obtain rfl := Option.some.inj hp
  have hword := hR.word (u := exchange (fun _ => some l.image) qs ++ [l.quote]) (v := l.quote :: join rs) hentry
    (by rw [List.getLast?_concat]; exact Reference.isBetween_iff.2 (.inr ⟨hparting, hparting⟩))
  simpa [Script.Literal.text, Script.Literal.image] using hword

/-- In every language, class names are exchanged one at a time. -/
theorem Language.wordwise {l : Language} {t out : Text} (h : l.rename b t = some out) : R t out := by
  cases l with
  | stylesheet => exact Stylesheet.join_pieces t ▸ (Stylesheet.parted_pieces t).wordwise hR h
  | markup => exact Markup.join_pieces t ▸ (Markup.parted_pieces t).wordwise hR h
  | script => exact Substitution.inTurn_trans hR.trans (fun l hl _ _ => Script.Literal.wordwise hR hl) h

end Wordwise

/-- In every language, the exchange of class names is one of words. -/
theorem Language.respelled (b : Codebook) (l : Language) (t : Text) : Respelled b t ((l.rename b t).getD t) := by
  cases h : l.rename b t with
  | none => exact .refl
  | some out => exact Language.wordwise (isWordwise_respelled b) h

/-! ## References in such texts -/

namespace Reference

/-- A name whose references an exchange of class names does not touch: no class name or pseudonym is exposed in it, and it cannot
stand in itself, if there are class names at all. -/
structure Untouched (b : Codebook) (n : Text) : Prop where
  selfApart : b.isEmpty = false → SelfApart n
  words : ∀ r ∈ b.names ++ b.pseudonyms, ¬Exposed r n

variable {b i : Codebook} {n : Text}

/-- A text mentions an untouched name if and only if it does so with its class names exchanged. -/
theorem Untouched.mentions_iff (hn : Untouched b n) (hb : ∀ r ∈ b.names ++ b.pseudonyms, r ≠ [] ∧ ∀ c ∈ r, isIdentChar c = true)
    {s t : Text} (h : Respelled b s t) : Mentions none n t ↔ Mentions none n s := by
  induction h with
  | refl => exact Iff.rfl
  | @word u v r p hentry hbetween _ ih =>
    have hr := List.mem_append_left b.pseudonyms (List.mem_map_of_mem hentry : r ∈ b.names)
    have hp := List.mem_append_right b.names (List.mem_map_of_mem hentry : p ∈ b.pseudonyms)
    refine Iff.trans ⟨?_, ?_⟩ ih
    · exact Mentions.exchange_word (hb p hp) hbetween (hn.words p hp)
    · exact Mentions.exchange_word (hb r hr) hbetween (hn.words r hr)

/-- Whether references are exchanged in a text does not depend on whether its class names have been. -/
theorem isSome_rename_renamed (hb : ∀ r ∈ b.names ++ b.pseudonyms, r ≠ [] ∧ ∀ c ∈ r, isIdentChar c = true)
    (hne : ∀ n ∈ i.names, n ≠ []) (hi : ∀ n ∈ i.names, Untouched b n) (l : Language) (t : Text) :
    (rename i ((l.rename b t).getD t)).isSome = (rename i t).isSome := by
  have hrespelled := l.respelled b t
  cases hempty : b.isEmpty with
  | true => rw [hrespelled.eq_of_isEmpty hempty]
  | false =>
    rw [Bool.eq_iff_iff, isSome_rename_iff, isSome_rename_iff]
    refine exists_congr fun n => and_congr_right fun hn => ?_
    have hapart := (hi n hn).selfApart hempty
    rw [stands_iff_mentions (hne n hn) hapart, stands_iff_mentions (hne n hn) hapart]
    exact (hi n hn).mentions_iff hb hrespelled

end Reference

end Pseudonym
