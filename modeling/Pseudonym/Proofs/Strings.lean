import Pseudonym.Proofs.Lexings
import Pseudonym.Proofs.Stylesheets

/-!
# Quoted strings under an exchange of class names

The reader steps over the quoted strings of a stylesheet, whose braces and semicolons mean nothing to it. The exchange of class
names does not: it cuts the preludes, strings and all, at their class tokens. So a string of a declaration or of an at-rule stays
as it is, and a string of a selector is exchanged as if it were a selector itself; all of them stay exactly when no string of a
selector holds a class token whose name the codebook changes (`strings_renamed`).
-/

namespace Pseudonym.Stylesheet

open Piece (names cut exchange imageOf swap)

/-- The quoted string that a lexeme is, if it is one. -/
def Lexeme.string? : Lexeme → Option Text
  | .quoted q rest => some (q :: rest)
  | _ => none

/-- The quoted strings of a text in order, with their quotes. -/
def strings (t : Text) : List Text := (lexemes t).filterMap Lexeme.string?

/-! ## Strings by symbols -/

theorem strings_nil : strings [] = [] := by
  rw [strings, lexemes]
  rfl

/-- A comment holds no string. -/
theorem strings_comment (t : Text) : strings ('/' :: '*' :: t) = strings (splitComment t).2 := by
  rw [strings, lexemes]
  rfl

/-- A quote begins a string. -/
theorem strings_quote {q : Char} (hq : q = '"' ∨ q = '\'') (t : Text) :
    strings (q :: t) = (q :: (splitQuoted q t).1) :: strings (splitQuoted q t).2 := by
  rw [strings, lexemes, if_pos hq]
  · rfl
  · rintro u rfl -
    rcases hq with h | h <;> cases h

/-- A character outside of comments and strings is in none. -/
theorem strings_plain {c : Char} (hc : ¬(c = '"' ∨ c = '\'')) {t : Text} (ht : c = '/' → t.head? ≠ some '*') :
    strings (c :: t) = strings t := by
  rw [strings, lexemes, if_neg hc]
  · rfl
  · rintro u hslash rfl
    exact ht hslash rfl

/-- An identifier holds no string. -/
theorem strings_run {w : Text} (hw : ∀ c ∈ w, isIdentChar c = true) (t : Text) : strings (w ++ t) = strings t := by
  induction w with
  | nil => rfl
  | cons c w ih =>
    have hne {d : Char} (hd : isIdentChar d = false) : c ≠ d := by
      rintro rfl
      rw [hw c List.mem_cons_self] at hd
      cases hd
    rw [List.cons_append, strings_plain, ih fun d hd => hw d (List.mem_cons_of_mem _ hd)]
    · exact not_or.2 ⟨hne (by decide), hne (by decide)⟩
    · exact fun hslash => absurd hslash (hne (by decide))

theorem splitComment_run {w : Text} (hw : ∀ c ∈ w, isIdentChar c = true) (t : Text) :
    (splitComment (w ++ t)).2 = (splitComment t).2 := by
  induction w with
  | nil => rfl
  | cons c w ih =>
    rw [List.cons_append, splitComment_cons, ih fun d hd => hw d (List.mem_cons_of_mem _ hd)]
    rintro ⟨rfl, -⟩
    cases hw '*' List.mem_cons_self

theorem splitQuoted_run {q : Char} (hq : isIdentChar q = false) {w : Text} (hw : ∀ c ∈ w, isIdentChar c = true) (t : Text) :
    splitQuoted q (w ++ t) = (w ++ (splitQuoted q t).1, (splitQuoted q t).2) := by
  induction w with
  | nil => rfl
  | cons c w ih =>
    have hne : c ≠ q := by
      rintro rfl
      rw [hw c List.mem_cons_self] at hq
      cases hq
    have hback : c ≠ '\\' := by
      rintro rfl
      cases hw '\\' List.mem_cons_self
    rw [List.cons_append, splitQuoted_cons hback, if_neg hne, ih fun d hd => hw d (List.mem_cons_of_mem _ hd)]
    rfl

namespace Tokens

theorem of_append_left {l k : List Symbol} (h : Tokens (l ++ k)) : Tokens l := by
  have hnext {l : List Symbol} (h : (l ++ k).head?.any Symbol.isIdent = false) : l.head?.any Symbol.isIdent = false := by
    cases l with
    | nil => rfl
    | cons x l => exact h
  generalize hm : l ++ k = m at h
  induction h generalizing l with
  | nil =>
    rw [(List.append_eq_nil_iff.1 hm).1]
    exact .nil
  | token w hw _ ih =>
    rcases List.append_eq_cons_iff.1 hm with ⟨rfl, -⟩ | ⟨l, rfl, hrest⟩
    · exact .nil
    · rcases List.append_eq_cons_iff.1 hrest.symm with ⟨rfl, -⟩ | ⟨l, rfl, rfl⟩
      · exact .char (fun _ => rfl) .nil
      · exact .token w (hnext hw) (ih rfl)
  | char hc _ ih =>
    rcases List.append_eq_cons_iff.1 hm with ⟨rfl, -⟩ | ⟨l, rfl, rfl⟩
    · exact .nil
    · exact .char (fun hdot => hnext (hc hdot)) (ih rfl)

theorem tail {c : Char} (hc : c ≠ '.') {l : List Symbol} (h : Tokens (.char c :: l)) : Tokens l := by
  cases h with
  | token w _ _ => exact absurd rfl hc
  | char _ h => exact h

end Tokens

/-- Where a comment ends, whichever words are written for the words. -/
theorem exists_splitComment_flatten {l : List Symbol} (h : Tokens l) :
    ∃ k m, l = k ++ m ∧ Tokens m ∧ ∀ f, (splitComment (flatten f l)).2 = flatten f m := by
  induction h with
  | nil => exact ⟨[], [], rfl, .nil, fun f => rfl⟩
  | @token w l hw hl ih =>
    obtain ⟨k, m, rfl, hm, hsplit⟩ := ih
    refine ⟨.char '.' :: .word w :: k, m, rfl, hm, ?_⟩
    intro f
    rw [flatten_char, flatten_word, splitComment_cons (by simp), splitComment_run (f w).chars, hsplit]
  | @char c l hc hl ih =>
    obtain ⟨k, m, rfl, hm, hsplit⟩ := ih
    by_cases hend : c = '*' ∧ ∃ r, k ++ m = .char '/' :: r
    · obtain ⟨rfl, r, hr⟩ := hend
      rw [hr] at hl ⊢
      exact ⟨[.char '*', .char '/'], r, rfl, hl.tail (by decide), fun f => rfl⟩
    · refine ⟨.char c :: k, m, rfl, hm, ?_⟩
      intro f
      rw [flatten_char, splitComment_cons, hsplit]
      rintro ⟨hc, u, hu⟩
      obtain ⟨r, hr, -⟩ := flatten_eq_cons (by decide) hu
      exact hend ⟨hc, r, hr⟩

/-- Where a string ends, whichever words are written for the words. -/
theorem exists_splitQuoted_flatten {q : Char} (hq : q = '"' ∨ q = '\'') {l : List Symbol} (h : Tokens l) :
    ∃ k m, l = k ++ m ∧ Tokens m ∧ ∀ f, splitQuoted q (flatten f l) = (flatten f k, flatten f m) := by
  have hident : isIdentChar q = false := by
    rcases hq with rfl | rfl <;> decide
  have hslash : q ≠ '\\' := by
    rcases hq with rfl | rfl <;> decide
  have hdot : '.' ≠ q := by
    rcases hq with rfl | rfl <;> decide
  -- the same behind a backslash, which hides the first of the symbols
  have key : (∃ k m, l = k ++ m ∧ Tokens m ∧ ∀ f, splitQuoted q (flatten f l) = (flatten f k, flatten f m)) ∧
      ∃ k m, l = k ++ m ∧ Tokens m ∧ ∀ f, splitQuoted q ('\\' :: flatten f l) = ('\\' :: flatten f k, flatten f m) := by
    induction h with
    | nil =>
      refine ⟨⟨[], [], rfl, .nil, fun f => rfl⟩, [], [], rfl, .nil, fun f => ?_⟩
      rw [flatten_nil, splitQuoted, if_neg (Ne.symm hslash)]
      · rfl
      · intro d u _ hu
        cases hu
    | @token w l hw hl ih =>
      obtain ⟨k, m, rfl, hm, hsplit⟩ := ih.1
      refine ⟨⟨.char '.' :: .word w :: k, m, rfl, hm, ?_⟩, .char '.' :: .word w :: k, m, rfl, hm, ?_⟩
      · intro f
        rw [flatten_char, flatten_word, splitQuoted_cons (by decide), splitQuoted_run hident (f w).chars, hsplit, if_neg hdot]
        rfl
      · intro f
        rw [flatten_char, flatten_word, splitQuoted, splitQuoted_run hident (f w).chars, hsplit]
        rfl
    | @char c l hc hl ih =>
      obtain ⟨⟨k, m, hkm, hm, hsplit⟩, k', m', hkm', hm', hsplit'⟩ := ih
      constructor
      · by_cases hback : c = '\\'
        · subst hback
          exact ⟨.char '\\' :: k', m', by rw [hkm', List.cons_append], hm', hsplit'⟩
        · by_cases hend : c = q
          · refine ⟨[.char c], l, rfl, hl, ?_⟩
            intro f
            rw [flatten_char, splitQuoted_cons hback, if_pos hend]
            rfl
          · refine ⟨.char c :: k, m, by rw [hkm, List.cons_append], hm, ?_⟩
            intro f
            rw [flatten_char, splitQuoted_cons hback, if_neg hend, hsplit]
            rfl
      · refine ⟨.char c :: k, m, by rw [hkm, List.cons_append], hm, ?_⟩
        intro f
        rw [flatten_char, splitQuoted, hsplit]
        rfl
  exact key.1

/-- A selector has the same strings by its symbols, whichever words are written for the words. -/
theorem exists_strings_flatten {l : List Symbol} (h : Tokens l) :
    ∃ ks : List (List Symbol), (∀ k ∈ ks, Tokens k) ∧ ∀ f, strings (flatten f l) = ks.map (flatten f) := by
  generalize hn : l.length = n
  induction n using Nat.strongRecOn generalizing l with
  | ind n ih =>
    cases h with
    | nil => exact ⟨[], by simp, fun f => strings_nil⟩
    | @token w l hw hl =>
      obtain ⟨ks, hks, hstrings⟩ := ih l.length (by simp at hn; omega) hl rfl
      refine ⟨ks, hks, ?_⟩
      intro f
      rw [flatten_char, flatten_word, strings_plain (by decide) (fun hc => by cases hc), strings_run (f w).chars, hstrings]
    | @char c l hc hl =>
      by_cases hquote : c = '"' ∨ c = '\''
      · obtain ⟨k, m, rfl, hm, hsplit⟩ := exists_splitQuoted_flatten hquote hl
        obtain ⟨ks, hks, hstrings⟩ := ih m.length (by simp at hn; omega) hm rfl
        have hk : Tokens (.char c :: k) := (Tokens.char hc hl).of_append_left (k := m)
        refine ⟨(.char c :: k) :: ks, by simpa using ⟨hk, hks⟩, ?_⟩
        intro f
        rw [flatten_char, strings_quote hquote, hsplit, hstrings]
        rfl
      · by_cases hcomment : c = '/' ∧ ∃ r, l = .char '*' :: r
        · obtain ⟨rfl, r, rfl⟩ := hcomment
          obtain ⟨k, m, rfl, hm, hsplit⟩ := exists_splitComment_flatten (hl.tail (by decide))
          obtain ⟨ks, hks, hstrings⟩ := ih m.length (by simp at hn; omega) hm rfl
          refine ⟨ks, hks, ?_⟩
          intro f
          rw [flatten_char, flatten_char, strings_comment, hsplit, hstrings]
        · obtain ⟨ks, hks, hstrings⟩ := ih l.length (by simp at hn; omega) hl rfl
          refine ⟨ks, hks, ?_⟩
          intro f
          rw [flatten_char, strings_plain hquote, hstrings]
          intro hslash hstar
          obtain ⟨t, ht⟩ := List.head?_eq_some_iff.1 hstar
          obtain ⟨r, hr, -⟩ := flatten_eq_cons (by decide) ht
          exact hcomment ⟨hslash, r, hr⟩

/-! ## The exchange -/

/-- A text with its class tokens exchanged, as if it were part of a selector. -/
def translated (b : Codebook) (t : Text) : Text := exchange b.get? (cut classToken t)

/-- A codebook translates the symbols of a text. -/
theorem translated_flatten {b : Codebook} (h : IsClassCodebook b) {l : List Symbol} (hl : Tokens l) :
    translated b (flatten id l) = flatten h.image l := by
  have hcut : ∀ g ∈ [Stretch.prelude l], g.Cut := by
    intro g hg
    rw [List.mem_singleton.1 hg]
    exact hl
  have hswap := StretchAux.swap_pieces h hcut
  have hjoin := StretchAux.join_flatMap_pieces (f := h.image) [Stretch.prelude l]
  rw [← hswap, Piece.join_swap] at hjoin
  rw [translated, cut_flatten hl]
  simpa [Stretch.pieces, Stretch.symbols] using hjoin

/-- An exchange changes a text exactly when it changes one of the names that the text is cut at. -/
theorem translated_eq_self_iff {b : Codebook} (h : IsClassCodebook b) (t : Text) :
    translated b t = t ↔ ∀ n ∈ names (cut classToken t), imageOf b.get? n = n := by
  constructor
  · intro htranslated n hn
    obtain ⟨l, hl, rfl⟩ := exists_tokens t
    rw [translated_flatten h hl] at htranslated
    have hpieces : l.map (Symbol.piece h.image) = l.map (Symbol.piece id) := by
      rw [← cut_flatten hl, ← cut_flatten hl, htranslated]
    rw [cut_flatten hl] at hn
    obtain ⟨p, hp, hpn⟩ := List.mem_filterMap.1 hn
    obtain ⟨x, hx, rfl⟩ := List.mem_map.1 hp
    cases x with
    | char c => cases hpn
    | word w =>
      cases hpn
      exact Piece.name.inj (List.map_inj_left.1 hpieces _ hx)
  · intro hn
    have hnone := Piece.exchange_congr (f := b.get?) (g := fun _ => none) hn
    rw [translated, hnone, Piece.exchange_none, Piece.join_cut splits_classToken]

/-- The strings of a stylesheet are those of its segments. -/
theorem strings_eq_flatMap (t : Text) : strings t = (segments t).flatMap fun s => strings s.text := by
  rw [strings, lexemes_eq_flatMap, List.filterMap_flatMap]
  rfl

/-- The strings of a segment after an exchange. -/
def Segment.stringsAfter (b : Codebook) : Segment → List Text
  | .prelude t => (strings t).map (translated b)
  | .other t => strings t

/-- An exchange leaves the strings as they are, but for those of preludes. -/
theorem strings_renamed_eq {b : Codebook} (h : IsClassCodebook b) (css : Text) :
    strings (renamed b css) = (segments css).flatMap (Segment.stringsAfter b) := by
  obtain ⟨gs, hcut, hcss, hout⟩ := exists_renamed h css
  rw [strings_eq_flatMap, hout, hcss, List.flatMap_map, List.flatMap_map]
  refine List.flatMap_congr fun g hg => ?_
  cases g with
  | prelude l =>
    obtain ⟨ks, hks, hstrings⟩ := exists_strings_flatten (hcut _ hg)
    show strings (flatten h.image l) = (strings (flatten id l)).map (translated b)
    rw [hstrings, hstrings, List.map_map]
    refine List.map_congr_left fun k hk => ?_
    exact (translated_flatten h (hks k hk)).symm
  | other l =>
    have hl : ∀ f, flatten f l = flatten id l := hcut _ hg
    show strings (flatten h.image l) = strings (flatten id l)
    rw [hl]

/-- Lists put together of parts of the same lengths are the same when the parts are. -/
theorem flatMap_eq_flatMap_iff {α β : Type} {f g : α → List β} (hlength : ∀ x, (f x).length = (g x).length) {l : List α} :
    l.flatMap f = l.flatMap g ↔ ∀ x ∈ l, f x = g x := by
  induction l with
  | nil => simp
  | cons x l ih =>
    rw [List.flatMap_cons, List.flatMap_cons, List.forall_mem_cons, ← ih]
    constructor
    · intro h
      exact List.append_inj h (hlength x)
    · rintro ⟨hx, hl⟩
      rw [hx, hl]

/-- Quoted strings under an exchange of class names: a string outside the selectors stays as it is, one inside a selector is
exchanged as if it were a selector itself. So all of them stay exactly when no string of a selector holds the token of a name
that the codebook changes. -/
theorem strings_renamed {b : Codebook} (h : IsClassCodebook b) (css : Text) :
    strings css = ((segments css).flatMap fun s => strings s.text) ∧
    strings (renamed b css) = (segments css).flatMap (Segment.stringsAfter b) ∧
    (strings (renamed b css) = strings css ↔
      ∀ t, .prelude t ∈ segments css → ∀ s ∈ strings t, ∀ n ∈ names (cut classToken s), imageOf b.get? n = n) := by
  refine ⟨strings_eq_flatMap css, strings_renamed_eq h css, ?_⟩
  have hlength (s : Segment) : (s.stringsAfter b).length = (strings s.text).length := by
    cases s with
    | prelude t => exact List.length_map _
    | other t => rfl
  have hprelude (t : Text) : Segment.stringsAfter b (.prelude t) = strings t ↔
      ∀ s ∈ strings t, ∀ n ∈ names (cut classToken s), imageOf b.get? n = n := by
    have hmap := List.map_inj_left (l := strings t) (f := translated b) (g := id)
    rw [List.map_id] at hmap
    rw [Segment.stringsAfter, hmap]
    exact forall₂_congr fun s _ => translated_eq_self_iff h s
  rw [strings_renamed_eq h, strings_eq_flatMap css, flatMap_eq_flatMap_iff hlength]
  constructor
  · intro hall t ht
    exact (hprelude t).1 (hall _ ht)
  · intro hall s hs
    cases s with
    | prelude t => exact (hprelude t).2 (hall t hs)
    | other t => rfl

namespace StringWitness

/-- The extension of a document, for another one. -/
def book : Codebook := ⟨[("pdf".toList, "x".toList), ("a".toList, "b".toList)]⟩

/-- Links to documents, with strings in selectors, in a declaration and in a comment. -/
def css : Text := "[href$=\".pdf\"].a, [href$='.html'] \x7b k: '.a'; /* '.pdf' */ \x7d".toList

theorem isClassCodebook : IsClassCodebook book := by decide

end StringWitness

open StringWitness in
/-- The selector of an attribute loses its string to a class of the same name; a declaration keeps its own. -/
theorem strings_renamed_links : IsClassCodebook book ∧
    strings css = ["\".pdf\"".toList, "'.html'".toList, "'.a'".toList] ∧
    strings (renamed book css) = ["\".x\"".toList, "'.html'".toList, "'.a'".toList] ∧
    strings (renamed book css) = (segments css).flatMap (Segment.stringsAfter book) ∧
    strings (renamed book css) ≠ strings css := by
  have hcss : strings css = ["\".pdf\"".toList, "'.html'".toList, "'.a'".toList] := by decide +kernel
  have hrenamed : renamed book css = "[href$=\".x\"].b, [href$='.html'] \x7b k: '.a'; /* '.pdf' */ \x7d".toList := by decide
  have hout : strings (renamed book css) = ["\".x\"".toList, "'.html'".toList, "'.a'".toList] := by
    rw [hrenamed]
    decide +kernel
  obtain ⟨-, h2, -⟩ := strings_renamed isClassCodebook css
  refine ⟨isClassCodebook, hcss, hout, h2, ?_⟩
  rw [hcss, hout]
  decide

open StringWitness in
/-- The string of an attribute selector is no place for a class name, and yet the exchange takes what is in it for one. -/
theorem strings_renamed_false : ¬∀ b : Codebook, IsClassCodebook b → ∀ css, strings (renamed b css) = strings css := by
  intro h
  have hsame := h book isClassCodebook "a[href$=\".pdf\"]\x7b\x7d".toList
  have hcss : strings "a[href$=\".pdf\"]\x7b\x7d".toList = ["\".pdf\"".toList] := by decide +kernel
  have hrenamed : renamed book "a[href$=\".pdf\"]\x7b\x7d".toList = "a[href$=\".x\"]\x7b\x7d".toList := by decide
  have hout : strings "a[href$=\".x\"]\x7b\x7d".toList = ["\".x\"".toList] := by decide +kernel
  rw [hrenamed, hcss, hout] at hsame
  exact absurd hsame (by decide)

end Pseudonym.Stylesheet
