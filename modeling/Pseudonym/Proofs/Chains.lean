import Pseudonym.Proofs.Inverses
import Pseudonym.Proofs.Lexemes

/-!
# One name in three languages

Where a name stands alone in a stylesheet or in markup, it is looked up once. In a script the entries of the codebook are taken in
order, and each sees what the ones before it have written: a literal goes from name to pseudonym as long as the pseudonym is the
name of a later entry (`followed`). So the languages agree on a name unless its pseudonym is the name of a later entry, and the
pseudonyms do not lead back to it (`Language.rename_alone`).
-/

namespace Pseudonym

/-- Where a name comes to when the entries are taken in order, each leading from its name to its pseudonym. -/
def followed (es : List (Text × Text)) (n : Text) : Text := es.foldl (fun m e => if e.1 = m then e.2 else m) n

/-- A name without an entry stays. -/
theorem followed_of_not_mem {es : List (Text × Text)} {n : Text} (h : n ∉ es.map Prod.fst) : followed es n = n := by
  induction es with
  | nil => rfl
  | cons e es ih =>
    rw [List.map_cons, List.mem_cons, not_or] at h
    rw [followed, List.foldl_cons, if_neg (Ne.symm h.1)]
    exact ih h.2

/-- A name with an entry goes on from the pseudonym of its first one, with the entries behind that. -/
theorem exists_followed {b : Codebook} {n p : Text} (h : b.get? n = some p) :
    ∃ earlier later, b.entries = earlier ++ (n, p) :: later ∧ n ∉ earlier.map Prod.fst ∧
      followed b.entries n = followed later p := by
  obtain ⟨earlier, later, hentries, hfirst⟩ := List.lookup_eq_some_iff.1 h
  have hnot : n ∉ earlier.map Prod.fst := by
    rintro hmem
    obtain ⟨e, he, rfl⟩ := List.mem_map.1 hmem
    simpa using hfirst e he
  refine ⟨earlier, later, hentries, hnot, ?_⟩
  have hhere : earlier.foldl (fun m e => if e.1 = m then e.2 else m) n = n := followed_of_not_mem hnot
  rw [hentries, followed, List.foldl_append, hhere, List.foldl_cons, if_pos rfl, followed]

namespace Script

/-- A literal that stands alone is exchanged when it is the one that is looked for. -/
theorem Literal.exchange?_alone {l : Literal} (hl : l.IsQuoted) {q : Char} (hq : isQuote q = true) {n : Text}
    (hn : ∀ c ∈ n, isQuote c = false) :
    l.exchange? (q :: n ++ [q]) = if l.key = (q, n) then some (q :: l.pseudonym ++ [q]) else none := by
  have hcut : cutAtQuotes (q :: n ++ [q]) = ([], [⟨q, n, true⟩, ⟨q, [], false⟩]) := by
    rw [List.cons_append, cutAtQuotes_quote hq, cutAtQuotes_append hn, cutAtQuotes_quote hq]
    simp [cutAtQuotes]
  rw [Literal.exchange?_eq hl, translated?, hcut]
  by_cases h : l.key = (q, n)
  · have hanswer : l.answer (q, n) = some l.pseudonym := if_pos h.symm
    rw [if_pos h, if_pos (by simp [hits, Strip.key, hanswer]), translate_cons_of_some rfl (by simp) hanswer,
      translate_cons_of_none (by simp)]
    simp [translate]
  · have hanswer : l.answer (q, n) = none := if_neg (Ne.symm h)
    rw [if_neg h, if_neg (by simp [hits, Strip.key, hanswer])]

section Alone

variable {ls : List Literal} {q : Char} {n : Text}

/-- Literals are exchanged in a text that is one of them as long as there is a later one for what has been written. -/
theorem getD_inTurn_alone (hls : ∀ l ∈ ls, l.IsQuoted) (hq : isQuote q = true) (hn : ∀ c ∈ n, isQuote c = false) :
    (Substitution.inTurn Literal.exchange? ls (q :: n ++ [q])).getD (q :: n ++ [q]) =
      q :: ls.foldl (fun m l => if l.key = (q, m) then l.pseudonym else m) n ++ [q] := by
  induction ls generalizing n with
  | nil => rfl
  | cons l ls ih =>
    rw [List.forall_mem_cons] at hls
    rw [Substitution.inTurn, Literal.exchange?_alone hls.1 hq hn, List.foldl_cons]
    split
    · next hnone =>
      rw [if_neg fun h => by rw [if_pos h] at hnone; cases hnone]
      exact ih hls.2 hn
    · next hsome =>
      obtain ⟨hkey, hsome⟩ := Option.ite_none_right_eq_some.1 hsome
      rw [if_pos hkey, Option.getD_some, ← Option.some.inj hsome]
      exact ih hls.2 hls.1.pseudonym

/-- A literal that is all of a text is exchanged by some entry. -/
theorem isSome_inTurn_alone (hls : ∀ l ∈ ls, l.IsQuoted) (hq : isQuote q = true) (hn : ∀ c ∈ n, isQuote c = false)
    (hmem : (q, n) ∈ ls.map Literal.key) : (Substitution.inTurn Literal.exchange? ls (q :: n ++ [q])).isSome = true := by
  induction ls with
  | nil => cases hmem
  | cons l ls ih =>
    rw [List.forall_mem_cons] at hls
    rw [Substitution.inTurn, Literal.exchange?_alone hls.1 hq hn]
    split
    · next hnone =>
      refine ih hls.2 ((List.mem_cons.1 hmem).resolve_left fun h => ?_)
      rw [if_pos h.symm] at hnone
      cases hnone
    · rfl

/-- Of an entry's two literals, the one with the quote counts. -/
theorem foldl_literals (hq : isQuote q = true) (es : List (Text × Text)) (n : Text) :
    (literals ⟨es⟩).foldl (fun m l => if l.key = (q, m) then l.pseudonym else m) n = followed es n := by
  induction es generalizing n with
  | nil => rfl
  | cons e es ih =>
    have hsplit : literals ⟨e :: es⟩ = ⟨'\'', e.1, e.2⟩ :: ⟨'"', e.1, e.2⟩ :: literals ⟨es⟩ := rfl
    rw [hsplit, List.foldl_cons, List.foldl_cons, ih, followed, followed, List.foldl_cons]
    congr 1
    rcases isQuote_iff.1 hq with rfl | rfl
    · simp [Literal.key]
    · simp [Literal.key]

/-- A literal that stands alone goes where the entries lead. -/
theorem rename_literal {b : Codebook} (hb : ∀ r ∈ b.names ++ b.pseudonyms, ∀ c ∈ r, isQuote c = false) (hq : isQuote q = true)
    (hn : n ∈ b.names) : rename b (q :: n ++ [q]) = some (q :: followed b.entries n ++ [q]) := by
  rw [List.forall_mem_append] at hb
  have hquoted : ∀ l ∈ literals b, l.IsQuoted := by
    intro l hl
    obtain ⟨hquote, hentry⟩ := mem_literals_iff.1 hl
    exact ⟨hquote, hb.1 _ (List.mem_map_of_mem hentry), hb.2 _ (List.mem_map_of_mem hentry)⟩
  obtain ⟨e, he, rfl⟩ := List.mem_map.1 hn
  have hmem : (q, e.1) ∈ (literals b).map Literal.key :=
    List.mem_map.2 ⟨⟨q, e.1, e.2⟩, mem_literals_iff.2 ⟨hq, he⟩, rfl⟩
  obtain ⟨out, hout⟩ := Option.isSome_iff_exists.1 (isSome_inTurn_alone hquoted hq (hb.1 _ hn) hmem)
  have hgetD := getD_inTurn_alone hquoted hq (hb.1 _ hn)
  rw [foldl_literals hq, hout, Option.getD_some] at hgetD
  rw [rename, hout, hgetD]

end Alone

end Script

namespace Stylesheet

/-- An identifier is read character by character, and nothing ends in it. -/
theorem readFrom_word {n : Text} (hn : ∀ c ∈ n, isIdentChar c = true) (s : Section) (t : Text) :
    readFrom .plain s (n ++ t) = readFrom .plain (n.foldl Section.push s) t := by
  induction n generalizing s with
  | nil => rfl
  | cons c n ih =>
    rw [List.forall_mem_cons] at hn
    have : c ≠ '/' ∧ c ≠ '\x7b' ∧ c ≠ '\x7d' ∧ c ≠ ';' ∧ c ≠ '"' ∧ c ≠ '\'' := by
      refine ⟨?_, ?_, ?_, ?_, ?_, ?_⟩ <;> rintro rfl <;> simp [isIdentChar] at hn
    simp [readFrom, this, ih hn.2]

/-- The sheet of one class has this class as its only name. -/
theorem pieces_alone {n : Text} (hne : n ≠ []) (hn : ∀ c ∈ n, isIdentChar c = true) :
    pieces ('.' :: n ++ ['\x7b']) = [.fixed ['.'], .name n, .fixed ['\x7b']] := by
  have hsegments : segments ('.' :: n ++ ['\x7b']) = [.prelude ('.' :: n ++ ['\x7b'])] := by
    have hdot : readFrom .plain {} ('.' :: (n ++ ['\x7b'])) = readFrom .plain (Section.push {} '.') (n ++ ['\x7b']) := by
      simp [readFrom]
    rw [segments, List.cons_append, hdot, readFrom_word hn, Section.foldl_push]
    simp [readFrom, Section.push, Section.opened, Section.endPrelude, Section.isAtRule, Section.dismissed, Segment.selectorText, Text.trimLeft,
      isBlank]
  have hcut : Piece.cut classToken ('.' :: (n ++ ['\x7b'])) = [.fixed ['.'], .name n, .fixed ['\x7b']] := by
    rw [Piece.cut, Piece.search, classToken_run none hne hn rfl]
    dsimp only
    rw [Piece.search_length_append]
    rfl
  rw [pieces, hsegments]
  simpa using hcut

end Stylesheet

namespace Markup

/-- The attribute of one class has this class as its only name. -/
theorem pieces_alone {n : Text} (hne : n ≠ []) (hn : ∀ c ∈ n, isIdentChar c = true) :
    pieces ("<p class=\"".toList ++ n ++ "\">".toList) =
      [.fixed ['<'], .fixed ['p'], .fixed " class=\"".toList, .name n, .fixed ['"'], .fixed ['>']] := by
  have hwords : words n = [.name n] := by
    have hword := (IsWords.word hne (fun c hc => Stylesheet.isBlank_of_isFileNameChar (isFileNameChar_of_isIdentChar (hn c hc))) (by simp) .nil).words_join
    simpa using hword
  let a : Attribute := ⟨" class=".toList, '"', n⟩
  have htext : "<p class=\"".toList ++ n ++ "\">".toList = '<' :: 'p' :: (a.text ++ ['>']) := by simp [a, Attribute.text]
  have hopen : attributeAt? none ('<' :: 'p' :: (a.text ++ ['>'])) = none := by
    have hstart : startsWith "class".toList ('<' :: 'p' :: (a.text ++ ['>'])) = false := by
      have hletter : isLetter 'c' '<' = false := by decide
      simp [startsWith, hletter]
    have hnone : attribute? [] ('<' :: 'p' :: (a.text ++ ['>'])) = none := by
      simp only [attribute?]
      rw [hstart]
      rfl
    rw [attributeAt?, Option.isNone_none, if_pos rfl, hnone]
    rfl
  have hletter : attributeAt? (some '<') ('p' :: (a.text ++ ['>'])) = none := rfl
  have hattribute : attributeAt? (some 'p') (a.text ++ ['>']) = some a := by
    refine attributeAt?_eq_some_iff.2 ⟨⟨.inr ⟨' ', "class=".toList, rfl, rfl, ?_⟩, rfl, ?_⟩, List.prefix_append _ _⟩
    · exact ⟨"class".toList, [], [], rfl, rfl, by decide, by simp, by simp⟩
    · intro hmem
      cases hn '"' hmem
  have hclose : attributeAt? (some '"') ['>'] = none := rfl
  rw [htext, pieces, Piece.cut]
  refine (search_char hopen).trans (congrArg _ ((search_char hletter).trans (congrArg _ ((search_attribute hattribute).trans ?_))))
  rw [search_char hclose, search_nil, Attribute.pieces, hwords]
  rfl

end Markup

/-- A name that stands alone in each of the languages. In a stylesheet and in markup its pseudonym comes in its place, and in a
script the name that the entries lead to from there; so all three agree unless the pseudonym is the name of a later entry. -/
theorem Language.rename_alone {b : Codebook} (hb : ∀ r ∈ b.names ++ b.pseudonyms, ∀ c ∈ r, isIdentChar c = true) {n p : Text}
    (hne : n ≠ []) (hp : b.get? n = some p) :
    Language.stylesheet.rename b ('.' :: n ++ ['\x7b']) = some ('.' :: p ++ ['\x7b']) ∧
    Language.markup.rename b ("<p class=\"".toList ++ n ++ "\">".toList) = some ("<p class=\"".toList ++ p ++ "\">".toList) ∧
    (∀ q, q = '\'' ∨ q = '"' → Language.script.rename b (q :: n ++ [q]) = some (q :: followed b.entries n ++ [q])) ∧
    (∃ earlier later, b.entries = earlier ++ (n, p) :: later ∧ n ∉ earlier.map Prod.fst ∧
      followed b.entries n = followed later p ∧ (p ∉ later.map Prod.fst → followed b.entries n = p)) := by
  have hmem : n ∈ b.names := List.mem_map_of_mem (Codebook.mem_entries_of_get? hp)
  have hn : ∀ c ∈ n, isIdentChar c = true := hb n (List.mem_append_left _ hmem)
  refine ⟨?_, ?_, fun q hq => ?_, ?_⟩
  · rw [Language.rename, Stylesheet.rename, Stylesheet.pieces_alone hne hn]
    simp [Piece.exchange?, Piece.exchanged, Piece.exchange, hp]
  · rw [Language.rename, Markup.rename, Markup.pieces_alone hne hn]
    simp [Piece.exchange?, Piece.exchanged, Piece.exchange, hp]
  · exact Script.rename_literal (fun r hr c hc => isQuote_of_isIdentChar (hb r hr c hc)) (Script.isQuote_iff.2 hq) hmem
  · obtain ⟨earlier, later, hentries, hfirst, hfollowed⟩ := exists_followed hp
    exact ⟨earlier, later, hentries, hfirst, hfollowed, fun hlast => hfollowed.trans (followed_of_not_mem hlast)⟩

namespace SecondPassWitness

/-- The names of two passes, the second of which met a pseudonym of the first one as a name. -/
def book : Codebook := ⟨[("a".toList, "b".toList), ("b".toList, "c".toList)]⟩

/-- The names and pseudonyms of the codebook are identifiers. -/
theorem ident : ∀ r ∈ book.names ++ book.pseudonyms, ∀ c ∈ r, isIdentChar c = true := by
  have hall : (book.names ++ book.pseudonyms).all (·.all isIdentChar) = true := by decide
  exact fun r hr => List.all_eq_true.1 (List.all_eq_true.1 hall r hr)

end SecondPassWitness

open SecondPassWitness in
/-- A pseudonym that is a name of a later entry is exchanged again in a script, and nowhere else. -/
theorem Language.rename_alone_later : (∀ r ∈ book.names ++ book.pseudonyms, ∀ c ∈ r, isIdentChar c = true) ∧
    Language.stylesheet.rename book ".a\x7b".toList = some ".b\x7b".toList ∧
    Language.markup.rename book "<p class=\"a\">".toList = some "<p class=\"b\">".toList ∧
    Language.script.rename book "'a'".toList = some "'c'".toList ∧ Language.script.rename book "\"a\"".toList = some "\"c\"".toList := by
  obtain ⟨hcss, hhtml, hjs, -⟩ := Language.rename_alone ident (n := "a".toList) (p := "b".toList) (by decide) rfl
  exact ⟨ident, hcss, hhtml, hjs '\'' (.inl rfl), hjs '"' (.inr rfl)⟩

open SecondPassWitness in
/-- The languages do not agree on a name whose pseudonym is the name of a later entry. -/
theorem Language.rename_alone_false : ¬∀ (b : Codebook), (∀ r ∈ b.names ++ b.pseudonyms, r ≠ [] ∧ ∀ c ∈ r, isIdentChar c = true) →
    ∀ n p, b.get? n = some p → Language.script.rename b ('\'' :: n ++ ['\'']) = some ('\'' :: p ++ ['\'']) := by
  intro h
  have hne : ∀ r ∈ book.names ++ book.pseudonyms, r ≠ [] := by decide
  have hscript := h book (fun r hr => ⟨hne r hr, ident r hr⟩) "a".toList "b".toList rfl
  revert hscript
  decide

end Pseudonym
