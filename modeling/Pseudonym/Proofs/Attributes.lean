import Pseudonym.Markup
import Pseudonym.Proofs.Exchange
import Pseudonym.Proofs.Literals

/-!
# Class attributes before and after an exchange

A class attribute stands at a place of the markup exactly if a lead without quotes, a quote, a value and the same quote follow there
(`attributeAt?_eq_some_iff`). So whether one stands at a place depends on the text up to the first quote and on which quotes come
after that; an exchange that writes no quotes makes no new attribute (`Follows.attributeAt?_eq_none`), and the exchanged markup is
cut at the images of the names, when these are words (`pieces_exchange`).
-/

namespace Pseudonym

/-- What a search passes over leaves its last character behind. -/
theorem Piece.search_length_append (m : Matcher) (before : Option Char) (u t : Text) :
    search m u.length before (u ++ t) = search m 0 (u.getLast?.or before) t := by
  induction u generalizing before with
  | nil => rfl
  | cons c u ih =>
    rw [List.length_cons, List.cons_append, search, ih, List.getLast?_cons]
    cases u.getLast? <;> rfl

/-- A search goes on behind a match. -/
theorem Piece.search_append_of_match {m : Matcher} {before : Option Char} {u t : Text} {ps : List Piece} (hu : u ≠ [])
    (h : m before (u ++ t) = some (ps, u.length)) : search m 0 before (u ++ t) = ps ++ search m 0 u.getLast? t := by
  obtain ⟨c, w, rfl⟩ := List.exists_cons_of_ne_nil hu
  have hlast : (c :: w).getLast? = w.getLast?.or (some c) := by
    rw [List.getLast?_cons, Option.or_some]
  rw [List.cons_append] at h ⊢
  rw [search, h, hlast, ← search_length_append]
  rfl

namespace Markup

open Piece (exchange imageOf join names swap)
open Script (isQuote isQuote_iff)

variable {f : Text → Option Text} {t : Text}

/-- The images of an exchange can stand in an attribute's value as a word. -/
def WritesWords (f : Text → Option Text) : Prop :=
  ∀ n p, f n = some p → p ≠ [] ∧ ∀ c ∈ p, isBlank c = false ∧ isQuote c = false

/-! ## Words -/

/-- Words with white space between them. -/
inductive IsWords : List Piece → Prop where
  | nil : IsWords []
  | blank {c : Char} {ps : List Piece} : isBlank c = true → IsWords ps → IsWords (.fixed [c] :: ps)
  | word {n : Text} {ps : List Piece} : n ≠ [] → (∀ c ∈ n, isBlank c = false) → (∀ p ∈ ps.head?, p.name? = none) → IsWords ps →
      IsWords (.name n :: ps)

/-- A value is cut into words with white space between them. -/
theorem isWords_words (t : Text) : IsWords (words t) := by
  induction t with
  | nil => exact .nil
  | cons c t ih =>
    rw [words]
    split
    · next hc => exact .blank hc ih
    · next hc =>
      rw [Bool.not_eq_true] at hc
      split
      · next n ps hps =>
        rw [hps] at ih
        cases ih with
        | word _ hchars hhead htail => exact .word (by simp) (List.forall_mem_cons.2 ⟨hc, hchars⟩) hhead htail
      · next hps =>
        refine .word (by simp) (by simpa using hc) (fun p hp => ?_) ih
        cases p with
        | fixed u => rfl
        | name n =>
          obtain ⟨qs, hqs⟩ := List.head?_eq_some_iff.1 hp
          exact absurd hqs (hps n qs)

/-- Words are read again from the text that they join to. -/
theorem IsWords.words_join {ps : List Piece} (h : IsWords ps) : words (join ps) = ps := by
  induction h with
  | nil => rfl
  | @blank c ps hc _ ih =>
    rw [Piece.join_cons, Piece.text_fixed, List.singleton_append, words, if_pos hc, ih]
  | @word n ps hne hchars hhead _ ih =>
    rw [Piece.join_cons, Piece.text_name]
    induction n with
    | nil => exact absurd rfl hne
    | cons c n ihn =>
      rw [List.forall_mem_cons] at hchars
      rw [List.cons_append, words, if_neg (by simp [hchars.1])]
      by_cases hn : n = []
      · subst hn
        rw [List.nil_append, ih]
        cases ps with
        | nil => rfl
        | cons p ps =>
          cases p with
          | fixed u => rfl
          | name m => cases hhead _ rfl
      · rw [ihn hn hchars.2]

/-- The words may be exchanged for others, and are words again. -/
theorem IsWords.swap {ps : List Piece} (hf : WritesWords f) (h : IsWords ps) : IsWords (swap f ps) := by
  induction h with
  | nil => exact .nil
  | blank hc _ ih => exact .blank hc ih
  | @word n ps hne hchars hhead _ ih =>
    have himage : imageOf f n ≠ [] ∧ ∀ c ∈ imageOf f n, isBlank c = false := by
      unfold imageOf
      cases hp : f n with
      | none => exact ⟨hne, hchars⟩
      | some p => exact ⟨(hf n p hp).1, fun c hc => ((hf n p hp).2 c hc).1⟩
    refine .word himage.1 himage.2 ?_ ih
    cases ps with
    | nil => simp
    | cons p ps =>
      cases p with
      | fixed u => exact fun p hp => by rw [← Option.some.inj hp]; rfl
      | name m => cases hhead _ rfl

/-- The words of an exchanged value are the images of its words. -/
theorem words_exchange (hf : WritesWords f) (t : Text) : words (exchange f (words t)) = swap f (words t) := by
  rw [← Piece.join_swap]
  exact ((isWords_words t).swap hf).words_join

/-- An exchange that writes no quotes leaves only quotes that were there. -/
theorem quote_mem_of_mem_exchange (hf : WritesWords f) {q : Char} (hq : isQuote q = true) {ps : List Piece}
    (h : q ∈ exchange f ps) : q ∈ join ps := by
  induction ps with
  | nil => exact h
  | cons p ps ih =>
    rw [Piece.join_cons, List.mem_append]
    cases p with
    | fixed u => exact (List.mem_append.1 h).imp_right ih
    | name n =>
      refine (List.mem_append.1 h).imp (fun hn => ?_) ih
      cases hp : f n with
      | none => simpa [hp] using hn
      | some p =>
        rw [hp] at hn
        rw [((hf n p hp).2 q hn).2] at hq
        cases hq

/-! ## Attributes -/

/-- A text is enough to see whether a word of its length stands at the start. -/
theorem startsWith_append {word u : Text} (h : word.length = u.length) (v : Text) :
    startsWith word (u ++ v) = startsWith word u := by
  have hzip : (word ++ []).zip (u ++ v) = word.zip u ++ List.zip [] v := List.zip_append h
  rw [List.append_nil, List.zip_nil_left, List.append_nil] at hzip
  simp [startsWith, hzip, h]

/-- The word, the equals sign, and white space around it. -/
def IsLead (lead : Text) : Prop :=
  ∃ name gap gap', lead = name ++ gap ++ '=' :: gap' ∧ name.length = 5 ∧ startsWith "class".toList name = true ∧
    (∀ c ∈ gap, isBlank c = true) ∧ ∀ c ∈ gap', isBlank c = true

/-- A letter is no white space. -/
theorem isBlank_of_isLetter {c : Char} (h : isLetter 'c' c = true) : isBlank c = false := by
  by_contra hblank
  rw [Bool.not_eq_false] at hblank
  -- no white space is a capital letter
  have hlower : c.toLower = c := by
    unfold Char.toLower
    rw [dif_neg]
    rintro ⟨hfirst, hlast⟩
    have hfirst : 65 ≤ c.toNat := hfirst
    have hlast : c.toNat ≤ 90 := hlast
    simp [isBlank] at hblank
    omega
  obtain rfl : c = 'c' := by simpa [isLetter, hlower] using h
  revert hblank
  decide

/-- A quote is no white space. -/
theorem isBlank_of_isQuote {c : Char} (h : isQuote c = true) : isBlank c = false := by
  rcases isQuote_iff.1 h with rfl | rfl
  · rfl
  · rfl

/-- A lead begins with a letter. -/
theorem IsLead.exists_cons {lead : Text} (h : IsLead lead) : ∃ c l, lead = c :: l ∧ isBlank c = false := by
  obtain ⟨name, gap, gap', rfl, hlength, hname, -, -⟩ := h
  cases name with
  | nil => cases hlength
  | cons c name =>
    refine ⟨c, name ++ gap ++ '=' :: gap', rfl, isBlank_of_isLetter ?_⟩
    rw [startsWith, Bool.and_eq_true] at hname
    exact (List.all_eq_true.1 hname.2) ('c', c) List.mem_cons_self

/-- There are no quotes in a lead. -/
theorem IsLead.not_isQuote {lead : Text} (h : IsLead lead) : ∀ c ∈ lead, isQuote c = false := by
  obtain ⟨name, gap, gap', rfl, hlength, hname, hgap, hgap'⟩ := h
  intro c hc
  by_contra hquote
  rw [Bool.not_eq_false] at hquote
  have hblank := isBlank_of_isQuote hquote
  rcases List.mem_append.1 hc with hc | hc
  · rcases List.mem_append.1 hc with hc | hc
    · have hzip : ("class".toList.zip name).map Prod.snd = name := List.map_snd_zip hlength.le
      rw [← hzip] at hc
      obtain ⟨⟨letter, c⟩, hmem, rfl⟩ := List.mem_map.1 hc
      rw [startsWith, Bool.and_eq_true] at hname
      have hletter : isLetter letter c = true := List.all_eq_true.1 hname.2 _ hmem
      have hnone : ("class".toList.all fun letter => !isLetter letter '\'' && !isLetter letter '"') = true := by decide
      have hquotes := List.all_eq_true.1 hnone letter (List.of_mem_zip hmem).1
      rw [Bool.and_eq_true, Bool.not_eq_true', Bool.not_eq_true'] at hquotes
      rcases isQuote_iff.1 hquote with rfl | rfl
      · rw [hquotes.1] at hletter
        cases hletter
      · rw [hquotes.2] at hletter
        cases hletter
    · simp [hgap c hc] at hblank
  · rcases List.mem_cons.1 hc with rfl | hc
    · cases hquote
    · simp [hgap' c hc] at hblank

/-- An attribute that may stand behind a character, or at the very start. -/
structure Attribute.Stands (a : Attribute) (before : Option Char) : Prop where
  lead : (before = none ∧ IsLead a.lead) ∨ ∃ c lead, a.lead = c :: lead ∧ isBlank c = true ∧ IsLead lead
  quote : isQuote a.quote = true
  value : a.quote ∉ a.value

/-- What a quoted value is: a quote, a text without it, and the quote again. -/
theorem quoted?_eq_some_iff {lead : Text} {a : Attribute} : quoted? lead t = some a ↔
    a.lead = lead ∧ isQuote a.quote = true ∧ a.quote ∉ a.value ∧ a.quote :: a.value ++ [a.quote] <+: t := by
  constructor
  · intro h
    have hprefix := text_isPrefix_of_quoted? h
    unfold quoted? at h
    split at h
    · next q t =>
      obtain ⟨hcond, ha⟩ := Option.ite_none_right_eq_some.1 h
      obtain rfl := Option.some.inj ha
      rw [Bool.and_eq_true, Bool.or_comm] at hcond
      refine ⟨rfl, hcond.1, fun hmem => ?_, ?_⟩
      · simpa using List.mem_takeWhile_imp hmem
      · rw [Attribute.text, List.append_assoc] at hprefix
        exact (List.prefix_append_right_inj _).1 hprefix
    · cases h
  · rintro ⟨rfl, hquote, hvalue, rest, rfl⟩
    obtain ⟨lead, q, value⟩ := a
    have htake : (value ++ q :: rest).takeWhile (· != q) = value := by
      have hall : ∀ c ∈ value, (c != q) = true := by
        simp only [bne_iff_ne]
        rintro c hc rfl
        exact hvalue hc
      rw [List.takeWhile_append_of_pos hall]
      simp
    have hq : (q == '"' || q == '\'') = true := by rwa [Bool.or_comm]
    simp [quoted?, htake, hq]

/-- What an attribute is: its name and equals sign with white space around, and a quoted value. -/
theorem attribute?_eq_some_iff {lead : Text} {a : Attribute} : attribute? lead t = some a ↔
    (∃ l, a.lead = lead ++ l ∧ IsLead l ∧ l ++ a.quote :: a.value ++ [a.quote] <+: t) ∧
      isQuote a.quote = true ∧ a.quote ∉ a.value := by
  constructor
  · intro h
    simp only [attribute?] at h
    split at h
    · next hname =>
      split at h
      · next t' ht =>
        obtain ⟨hlead, hquote, hvalue, hprefix⟩ := quoted?_eq_some_iff.1 h
        have hlength : (t.take 5).length = 5 := by
          rw [startsWith, Bool.and_eq_true, decide_eq_true_eq] at hname
          exact List.length_take_of_le hname.1
        have hstarts : startsWith "class".toList (t.take 5) = true := by
          rwa [← startsWith_append (v := t.drop 5) (by exact hlength.symm), List.take_append_drop]
        have hsplit : t = t.take 5 ++ ((t.drop 5).takeWhile isBlank ++ '=' :: (t'.takeWhile isBlank ++ t'.dropWhile isBlank)) := by
          rw [List.takeWhile_append_dropWhile, ← ht, List.takeWhile_append_dropWhile, List.take_append_drop]
        obtain ⟨rest, hrest⟩ := hprefix
        refine ⟨⟨t.take 5 ++ (t.drop 5).takeWhile isBlank ++ '=' :: t'.takeWhile isBlank, by rw [hlead]; simp,
          ⟨_, _, _, rfl, hlength, hstarts, fun c => List.mem_takeWhile_imp, fun c => List.mem_takeWhile_imp⟩, rest, ?_⟩,
          hquote, hvalue⟩
        conv_rhs => rw [hsplit, ← hrest]
        simp
      · cases h
    · cases h
  · rintro ⟨⟨l, hl, ⟨name, gap, gap', rfl, hlength, hname, hgap, hgap'⟩, rest, rfl⟩, hquote, hvalue⟩
    have hrun {gap r : Text} {c : Char} (hgap : ∀ d ∈ gap, isBlank d = true) (hc : isBlank c = false) :
        (gap ++ c :: r).takeWhile isBlank = gap ∧ (gap ++ c :: r).dropWhile isBlank = c :: r := by
      rw [List.takeWhile_append_of_pos hgap, List.dropWhile_append_of_pos hgap]
      simp [hc]
    have htext : name ++ gap ++ '=' :: gap' ++ a.quote :: a.value ++ [a.quote] ++ rest =
        name ++ (gap ++ '=' :: (gap' ++ a.quote :: (a.value ++ [a.quote] ++ rest))) := by simp
    have hname' :
        startsWith "class".toList (name ++ (gap ++ '=' :: (gap' ++ a.quote :: (a.value ++ [a.quote] ++ rest)))) = true := by
      rwa [startsWith_append (by exact hlength.symm)]
    rw [htext]
    simp only [attribute?, hname', if_true, List.take_left' hlength, List.drop_left' hlength, hrun hgap (c := '=') rfl,
      hrun hgap' (isBlank_of_isQuote hquote)]
    refine quoted?_eq_some_iff.2 ⟨by rw [hl]; simp, hquote, hvalue, rest, rfl⟩

/-- The attribute that is found at a place is the one that stands there. -/
theorem attributeAt?_eq_some_iff {before : Option Char} {a : Attribute} :
    attributeAt? before t = some a ↔ a.Stands before ∧ a.text <+: t := by
  unfold attributeAt?
  rw [Option.or_eq_some_iff, Option.ite_none_right_eq_some]
  constructor
  · rintro (⟨hbefore, h⟩ | ⟨-, h⟩)
    · obtain ⟨⟨l, hl, hlead, hprefix⟩, hquote, hvalue⟩ := attribute?_eq_some_iff.1 h
      obtain rfl : a.lead = l := hl
      exact ⟨⟨.inl ⟨Option.isNone_iff_eq_none.1 hbefore, hlead⟩, hquote, hvalue⟩, by rwa [Attribute.text]⟩
    · cases t with
      | nil => cases h
      | cons c t =>
        obtain ⟨hc, h⟩ := Option.ite_none_right_eq_some.1 h
        obtain ⟨⟨l, hl, hlead, hprefix⟩, hquote, hvalue⟩ := attribute?_eq_some_iff.1 h
        refine ⟨⟨.inr ⟨c, l, hl, hc, hlead⟩, hquote, hvalue⟩, ?_⟩
        rw [Attribute.text, hl]
        exact List.cons_prefix_cons.2 ⟨rfl, hprefix⟩
  · rintro ⟨⟨⟨hbefore, hlead⟩ | ⟨c, l, hl, hc, hlead⟩, hquote, hvalue⟩, hprefix⟩
    · exact .inl ⟨Option.isNone_iff_eq_none.2 hbefore, attribute?_eq_some_iff.2 ⟨⟨a.lead, rfl, hlead, hprefix⟩, hquote, hvalue⟩⟩
    · obtain ⟨rest, rfl⟩ := hprefix
      have htext : a.text ++ rest = c :: (l ++ a.quote :: a.value ++ [a.quote] ++ rest) := by
        simp [Attribute.text, hl]
      rw [htext]
      refine .inr ⟨?_, ?_⟩
      · rw [ite_eq_right_iff]
        intro _
        rw [Option.eq_none_iff_forall_ne_some]
        intro a' ha'
        obtain ⟨⟨l', -, hlead', hprefix⟩, -, -⟩ := attribute?_eq_some_iff.1 ha'
        obtain ⟨d, l'', rfl, hd⟩ := hlead'.exists_cons
        obtain ⟨rfl, -⟩ := List.cons_prefix_cons.1 hprefix
        simp [hc] at hd
      · exact (if_pos hc).trans (attribute?_eq_some_iff.2 ⟨⟨l, hl, hlead, rest, by simp⟩, hquote, hvalue⟩)

/-! ## The exchange -/

/-- An attribute with the words of its value exchanged. -/
def Attribute.renamed (f : Text → Option Text) (a : Attribute) : Attribute := { a with value := exchange f (words a.value) }

namespace Attribute

variable {a : Attribute}

/-- The text of an attribute with its words exchanged is the exchange of its pieces. -/
theorem text_renamed (f : Text → Option Text) (a : Attribute) : (a.renamed f).text = exchange f a.pieces := by
  simp [renamed, text, pieces, exchange]

/-- An attribute with its words exchanged is cut in the same places. -/
theorem pieces_renamed (hf : WritesWords f) (a : Attribute) : (a.renamed f).pieces = swap f a.pieces := by
  rw [pieces, pieces, renamed, words_exchange hf]
  simp [swap]

/-- An attribute with its words exchanged stands where it stood. -/
theorem Stands.renamed {before : Option Char} (hf : WritesWords f) (h : a.Stands before) : (a.renamed f).Stands before where
  lead := h.lead
  quote := h.quote
  value hmem := h.value (by simpa using quote_mem_of_mem_exchange hf h.quote hmem)

/-- Before the value of an attribute there is no quote. -/
theorem Stands.not_isQuote {before : Option Char} (h : a.Stands before) : ∀ c ∈ a.lead, isQuote c = false := by
  rcases h.lead with ⟨-, hlead⟩ | ⟨c, l, hl, hc, hlead⟩
  · exact hlead.not_isQuote
  · rw [hl, List.forall_mem_cons]
    refine ⟨?_, hlead.not_isQuote⟩
    by_contra hquote
    rw [Bool.not_eq_false] at hquote
    rw [isBlank_of_isQuote hquote] at hc
    cases hc

end Attribute

/-- The same text, up to a quote at least behind which no quote is new. -/
def Follows (t o : Text) : Prop :=
  t = o ∨ ∃ u q v w, isQuote q = true ∧ t = u ++ q :: v ∧ o = u ++ q :: w ∧ ∀ q', isQuote q' = true → q' ∈ w → q' ∈ v

/-- What follows another text does so behind a common first character. -/
theorem Follows.cons {o : Text} (h : Follows t o) (c : Char) : Follows (c :: t) (c :: o) := by
  rcases h with rfl | ⟨u, q, v, w, hq, rfl, rfl, hquotes⟩
  · exact .inl rfl
  · exact .inr ⟨c :: u, q, v, w, hq, rfl, rfl, hquotes⟩

/-- An attribute that stands behind such a change stood there before it. -/
theorem Follows.attributeAt?_eq_none {o : Text} (h : Follows t o) {before : Option Char} (hnone : attributeAt? before t = none) :
    attributeAt? before o = none := by
  rcases h with rfl | ⟨u, q, v, w, hq, rfl, rfl, hquotes⟩
  · exact hnone
  rw [Option.eq_none_iff_forall_ne_some]
  intro a ha
  obtain ⟨hstands, rest, hrest⟩ := attributeAt?_eq_some_iff.1 ha
  -- the attribute's first quote is the one that is shared, or comes before it
  have hshared : ∃ v', a.quote ∈ v' ∧ u ++ q :: v = a.lead ++ a.quote :: v' := by
    have hsplit : a.lead ++ a.quote :: (a.value ++ a.quote :: rest) = u ++ q :: w := by
      rw [← hrest]
      simp [Attribute.text]
    have hlead : a.lead <+: u := by
      rcases List.append_eq_append_iff.1 hsplit with ⟨between, rfl, -⟩ | ⟨between, hlead, hbehind⟩
      · exact List.prefix_append _ _
      · cases between with
        | nil => exact ⟨[], by rw [hlead, List.append_nil, List.append_nil]⟩
        | cons d between =>
          obtain ⟨rfl, -⟩ := List.cons.inj hbehind
          have := hstands.not_isQuote q (by simp [hlead])
          rw [hq] at this
          cases this
    obtain ⟨between, rfl⟩ := hlead
    rw [List.append_assoc, List.append_cancel_left_eq] at hsplit
    have hmem : a.quote ∈ a.value ++ a.quote :: rest := by simp
    cases between with
    | nil =>
      obtain ⟨rfl, hw⟩ := List.cons.inj hsplit
      rw [hw] at hmem
      exact ⟨v, hquotes _ hq hmem, by simp⟩
    | cons d between =>
      have hw : a.value ++ a.quote :: rest = between ++ q :: w := (List.cons.inj hsplit).2
      obtain rfl : a.quote = d := (List.cons.inj hsplit).1
      rw [hw, List.mem_append, List.mem_cons] at hmem
      refine ⟨between ++ q :: v, ?_, by simp⟩
      rw [List.mem_append, List.mem_cons]
      exact hmem.imp_right (Or.imp_right (hquotes _ hstands.quote))
  obtain ⟨v', hmem, hv'⟩ := hshared
  obtain ⟨value, rest', hvalue⟩ := List.eq_append_cons_of_mem hmem
  have hsome : attributeAt? before (u ++ q :: v) = some ⟨a.lead, a.quote, value⟩ :=
    attributeAt?_eq_some_iff.2 ⟨⟨hstands.lead, hstands.quote, hvalue.2⟩, rest', by simp [Attribute.text, hv', hvalue.1]⟩
  rw [hnone] at hsome
  cases hsome

theorem attributeAt?_nil (before : Option Char) : attributeAt? before [] = none := by
  rw [Option.eq_none_iff_forall_ne_some]
  intro a ha
  have htext := List.prefix_nil.1 (attributeAt?_eq_some_iff.1 ha).2
  simp [Attribute.text] at htext

/-- Markup is searched from attribute to attribute, character by character in between. -/
@[elab_as_elim]
theorem search_induction {P : Option Char → Text → Prop} (hnil : ∀ before, P before [])
    (hchar : ∀ before c t, attributeAt? before (c :: t) = none → P (some c) t → P before (c :: t))
    (hattribute : ∀ before a t, attributeAt? before (a.text ++ t) = some a → P (some a.quote) t → P before (a.text ++ t))
    (before : Option Char) (t : Text) : P before t := by
  induction hn : t.length using Nat.strong_induction_on generalizing before t with
  | _ n ih =>
    cases ha : attributeAt? before t with
    | none =>
      cases t with
      | nil => exact hnil before
      | cons c t => exact hchar before c t ha (ih t.length (by simp [← hn]) (some c) t rfl)
    | some a =>
      obtain ⟨-, rest, rfl⟩ := attributeAt?_eq_some_iff.1 ha
      exact hattribute before a rest ha (ih rest.length (by simp [← hn, Attribute.text]; omega) _ rest rfl)

/-- A matcher that takes the attribute at a place and cuts it in a way of its own. -/
def attributeMatcher (cut : Attribute → List Piece) : Piece.Matcher := fun before t =>
  (attributeAt? before t).map fun a => (cut a, a.text.length)

variable {cut : Attribute → List Piece}

theorem search_nil (before : Option Char) : Piece.search (attributeMatcher cut) 0 before [] = [] := by
  rw [Piece.search, attributeMatcher, attributeAt?_nil]
  rfl

/-- Where no attribute begins, the search goes on behind one character. -/
theorem search_char {before : Option Char} {c : Char} (ha : attributeAt? before (c :: t) = none) :
    Piece.search (attributeMatcher cut) 0 before (c :: t) = .fixed [c] :: Piece.search (attributeMatcher cut) 0 (some c) t := by
  rw [Piece.search, attributeMatcher, ha]
  rfl

/-- The search goes on behind an attribute, whose second quote is the character before. -/
theorem search_attribute {before : Option Char} {a : Attribute} (ha : attributeAt? before (a.text ++ t) = some a) :
    Piece.search (attributeMatcher cut) 0 before (a.text ++ t) =
      cut a ++ Piece.search (attributeMatcher cut) 0 (some a.quote) t := by
  have hmatch : attributeMatcher cut before (a.text ++ t) = some (cut a, a.text.length) := by
    rw [attributeMatcher, ha, Option.map_some]
  have hlast : a.text.getLast? = some a.quote := by rw [Attribute.text, List.getLast?_concat]
  rw [Piece.search_append_of_match (by simp [Attribute.text]) hmatch, hlast]

/-- Markup with the words of its class attributes exchanged, behind a character. -/
def exchangeFrom (f : Text → Option Text) (before : Option Char) (t : Text) : Text :=
  exchange f (Piece.search classAttribute 0 before t)

theorem exchangeFrom_nil (before : Option Char) : exchangeFrom f before [] = [] :=
  congrArg (exchange f) (search_nil before)

/-- Where no attribute begins, a character stays as it is. -/
theorem exchangeFrom_char {before : Option Char} {c : Char} (ha : attributeAt? before (c :: t) = none) :
    exchangeFrom f before (c :: t) = c :: exchangeFrom f (some c) t :=
  congrArg (exchange f) (search_char ha)

/-- Where an attribute begins, its words are exchanged, and the exchange goes on behind its quote. -/
theorem exchangeFrom_attribute {before : Option Char} {a : Attribute} (ha : attributeAt? before (a.text ++ t) = some a) :
    exchangeFrom f before (a.text ++ t) = (a.renamed f).text ++ exchangeFrom f (some a.quote) t := by
  rw [Attribute.text_renamed, exchangeFrom, exchangeFrom, ← Piece.exchange_append]
  exact congrArg (exchange f) (search_attribute ha)

/-- An exchange changes markup only behind the first quote of an attribute. -/
theorem follows_exchangeFrom (hf : WritesWords f) (before : Option Char) (t : Text) : Follows t (exchangeFrom f before t) := by
  induction before, t using search_induction with
  | hnil before => exact .inl (exchangeFrom_nil before).symm
  | hchar before c t ha ih =>
    rw [exchangeFrom_char ha]
    exact ih.cons c
  | hattribute before a t ha ih =>
    obtain ⟨hstands, -⟩ := attributeAt?_eq_some_iff.1 ha
    refine .inr ⟨a.lead, a.quote, a.value ++ a.quote :: t, exchange f (words a.value) ++ a.quote ::
      exchangeFrom f (some a.quote) t, hstands.quote, by simp [Attribute.text], ?_, ?_⟩
    · rw [exchangeFrom_attribute ha, Attribute.text]
      simp [Attribute.renamed]
    · intro q hq hmem
      rw [List.mem_append, List.mem_cons] at hmem ⊢
      refine hmem.imp (fun h => ?_) (Or.imp_right fun h => ?_)
      · simpa using quote_mem_of_mem_exchange hf hq h
      · have := quote_mem_of_mem_exchange hf hq h
        rwa [Piece.join_search splits_classAttribute] at this

/-- The exchanged markup has the attributes of the markup, each with the words of its value exchanged. Where attributes are cut so
that this is an exchange of names, the exchanged markup is cut at the images of the names. -/
theorem search_exchangeFrom (hf : WritesWords f) {g : Text → Option Text} (hcut : ∀ a : Attribute, cut (a.renamed f) = swap g (cut a))
    (before : Option Char) (t : Text) : Piece.search (attributeMatcher cut) 0 before (exchangeFrom f before t) =
      swap g (Piece.search (attributeMatcher cut) 0 before t) := by
  induction before, t using search_induction with
  | hnil before => rw [exchangeFrom_nil, search_nil, Piece.swap_nil]
  | hchar before c t ha ih =>
    have hnone := ((follows_exchangeFrom hf (some c) t).cons c).attributeAt?_eq_none ha
    rw [exchangeFrom_char ha, search_char hnone, search_char ha, ih, Piece.swap_fixed]
  | hattribute before a t ha ih =>
    obtain ⟨hstands, -⟩ := attributeAt?_eq_some_iff.1 ha
    have hsome := attributeAt?_eq_some_iff.2 ⟨hstands.renamed hf, List.prefix_append (a.renamed f).text
      (exchangeFrom f (some a.quote) t)⟩
    rw [exchangeFrom_attribute ha, search_attribute hsome, search_attribute ha, hcut, swap, List.map_append]
    exact congrArg _ ih

/-- The exchanged markup is cut at the images of the names. -/
theorem pieces_exchange (hf : WritesWords f) (html : Text) : pieces (exchange f (pieces html)) = swap f (pieces html) :=
  search_exchangeFrom hf (Attribute.pieces_renamed hf) none html

end Markup

end Pseudonym
