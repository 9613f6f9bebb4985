import Pseudonym.Proofs.Attributes
import Pseudonym.Proofs.Borders

/-!
# Where a name is mentioned

A name is mentioned in a text where it stands with nothing of a longer name around it (`Mentions`). The search for references goes
from left to right and passes over an occurrence inside a longer name as a whole, so it may miss a mention that begins in there. It
does not if no occurrence of the name can begin inside another one behind a character that is none of a file name (`SelfApart`):
then a name stands in a text exactly if it is mentioned there (`stands_iff_mentions`). A word of the text that class names are
exchanged by stands behind a dot, or between white space and quotes (`isBetween`). A mention does not depend on the words that do not
stand so in the name itself (`Mentions.exchange_word`).
-/

namespace Pseudonym.Reference

open Piece (names search)

/-- The name is mentioned in a text that stands behind a character. -/
def Mentions (before : Option Char) (n t : Text) : Prop :=
  ∃ u v, t = u ++ (n ++ v) ∧ startsBehind (u.getLast?.or before) = true ∧ endsBefore v = true

/-- Where an occurrence of the name begins inside another one, a character of a file name stands before it. -/
def SelfApart (n : Text) : Prop := ∀ u v, n = u ++ v → u ≠ [] → v ≠ [] → v <+: n → u.getLast?.any isFileNameChar = true

/-- The characters that part the words of an attribute and stand around a literal. -/
def isParting (c : Char) : Bool := isBlank c || Script.isQuote c

/-- Can a class name that stands between two characters, or at an end, be exchanged for its pseudonym? In a stylesheet it has a dot
before it and no identifier character behind, in markup and scripts there are white space and quotes on either side. -/
def isBetween (before behind : Option Char) : Bool :=
  (before == some '.' && !behind.any isIdentChar) || (before.all isParting && behind.all isParting)

/-- What it is to stand between two characters, in a stylesheet or else. -/
theorem isBetween_iff {before behind : Option Char} : isBetween before behind = true ↔
    (before = some '.' ∧ behind.any isIdentChar = false) ∨ (before.all isParting = true ∧ behind.all isParting = true) := by
  simp [isBetween]

/-- A word is exposed in a name if it stands there as a class name does: to exchange it in a text may touch a mention of the name. -/
def Exposed (r n : Text) : Prop := ∃ u v, n = u ++ (r ++ v) ∧ isBetween u.getLast? v.head? = true

/-- A word that is exposed in a name is found at its place. -/
theorem exposed_iff_any {r n : Text} : Exposed r n ↔ (List.range (n.length + 1)).any (fun k =>
    r.isPrefixOf (n.drop k) && isBetween (n.take k).getLast? (n.drop (k + r.length)).head?) = true := by
  rw [List.any_eq_true]
  constructor
  · rintro ⟨u, v, rfl, h⟩
    refine ⟨u.length, List.mem_range.2 (by rw [List.length_append]; omega), ?_⟩
    rw [List.drop_left, List.take_left, ← List.drop_drop, List.drop_left, List.drop_left, h, Bool.and_true]
    exact List.isPrefixOf_iff_prefix.2 (List.prefix_append r v)
  · rintro ⟨k, -, h⟩
    obtain ⟨hr, h⟩ := Bool.and_eq_true_iff.1 h
    obtain ⟨v, hv⟩ := List.isPrefixOf_iff_prefix.1 hr
    rw [← List.drop_drop, ← hv, List.drop_left] at h
    exact ⟨n.take k, v, by rw [hv, List.take_append_drop], h⟩

instance (r n : Text) : Decidable (Exposed r n) := decidable_of_iff' _ exposed_iff_any

/-- The ending of an image's name is exposed behind its dot, its stem is not. -/
example : Exposed "png".toList "logo.png".toList ∧ ¬Exposed "logo".toList "logo.png".toList := by decide

/-! ## One occurrence -/

section Search

variable {n t : Text} {before : Option Char}

/-- A name of file-name characters is apart from itself. -/
theorem selfApart_of_chars (h : ∀ c ∈ n, isFileNameChar c = true) : SelfApart n := by
  rintro u v rfl hu - -
  rw [List.getLast?_eq_some_getLast hu]
  exact h _ (List.mem_append_left _ (List.getLast_mem hu))

theorem getLast?_cons_or (c : Char) (u : Text) : (c :: u).getLast?.or before = u.getLast?.or (some c) := by
  rw [List.getLast?_cons]
  cases u.getLast? <;> rfl

/-- The empty text mentions no name. -/
theorem mentions_nil (hn : n ≠ []) : ¬Mentions before n [] := by
  rintro ⟨u, v, ht, -⟩
  exact hn (List.append_eq_nil_iff.1 (List.append_eq_nil_iff.1 ht.symm).2).1

/-- Where the name does not begin, it is mentioned behind the first character. -/
theorem mentions_cons {c : Char} (h : ¬n <+: c :: t) : Mentions before n (c :: t) ↔ Mentions (some c) n t := by
  constructor
  · rintro ⟨u, v, ht, hstart, hend⟩
    cases u with
    | nil => exact absurd ⟨v, ht.symm⟩ h
    | cons d u =>
      obtain ⟨rfl, rfl⟩ := List.cons.inj ht
      rw [getLast?_cons_or] at hstart
      exact ⟨u, v, rfl, hstart, hend⟩
  · rintro ⟨u, v, rfl, hstart, hend⟩
    exact ⟨c :: u, v, rfl, by rwa [getLast?_cons_or], hend⟩

/-- Where the name begins, it is mentioned there, or behind this occurrence as a whole. -/
theorem mentions_append (hn : n ≠ []) (h : SelfApart n) : Mentions before n (n ++ t) ↔
    (startsBehind before = true ∧ endsBefore t = true) ∨ Mentions n.getLast? n t := by
  have hlast (w : Text) : (n ++ w).getLast?.or before = w.getLast?.or n.getLast? := by
    rw [List.getLast?_append, Option.or_assoc, List.getLast?_eq_some_getLast hn, Option.some_or]
  constructor
  · rintro ⟨u, v, ht, hstart, hend⟩
    rcases List.append_eq_append_iff.1 ht with ⟨w, rfl, hw⟩ | ⟨w, hw, hv⟩
    · exact .inr ⟨w, v, hw, hlast w ▸ hstart, hend⟩
    · by_cases hu : u = []
      · subst hu
        obtain rfl := List.append_cancel_left ht
        exact .inl ⟨hstart, hend⟩
      · by_cases hwnil : w = []
        · subst hwnil
          rw [List.append_nil] at hw
          rw [← hw, ← List.append_nil n, hlast []] at hstart
          exact .inr ⟨[], v, hv.symm, hstart, hend⟩
        · -- an occurrence that begins inside this one is no mention
          have hprefix : w <+: n :=
            List.prefix_of_prefix_length_le ⟨t, hv.symm⟩ (List.prefix_append n v) (by simp [congrArg List.length hw])
          have hinside := h u w hw hu hwnil hprefix
          rw [List.getLast?_eq_some_getLast hu] at hinside hstart
          rw [Option.some_or, startsBehind, hinside] at hstart
          cases hstart
  · rintro (⟨hstart, hend⟩ | ⟨u, v, rfl, hstart, hend⟩)
    · exact ⟨[], t, rfl, hstart, hend⟩
    · exact ⟨n ++ u, v, (List.append_assoc ..).symm, (hlast u).symm ▸ hstart, hend⟩

/-- Where the name begins, the search goes on behind this occurrence. -/
theorem search_name (hn : n ≠ []) (before : Option Char) (t : Text) : search (occurrence n) 0 before (n ++ t) =
    (if startsBehind before && endsBefore t then .name n else .fixed n) :: search (occurrence n) 0 n.getLast? t := by
  have hocc : occurrence n before (n ++ t) = some ([if startsBehind before && endsBefore t then .name n else .fixed n], n.length) := by
    rw [occurrence, if_pos (List.isPrefixOf_iff_prefix.2 (List.prefix_append _ _)), List.drop_left]
  rw [Piece.search_append_of_match hn hocc, List.singleton_append]

/-- The search finds the mentions of a name that is apart from itself. -/
theorem mem_names_search (hn : n ≠ []) (h : SelfApart n) (before : Option Char) (t : Text) :
    n ∈ names (search (occurrence n) 0 before t) ↔ Mentions before n t := by
  induction hlength : t.length using Nat.strong_induction_on generalizing before t with
  | _ k ih =>
    by_cases hp : n <+: t
    · obtain ⟨s, rfl⟩ := hp
      have hshorter : s.length < k := by
        have := List.length_pos_iff.2 hn
        rw [List.length_append] at hlength
        omega
      rw [search_name hn, ← List.singleton_append, Piece.names_append, List.mem_append, mentions_append hn h,
        ih s.length hshorter _ s rfl]
      refine or_congr_left ?_
      split
      · next hwhole => simpa using hwhole
      · next hpart => simpa using hpart
    · cases t with
      | nil =>
        rw [search, occurrence_nil hn]
        exact iff_of_false (by simp) (mentions_nil hn)
      | cons c t =>
        have hocc : occurrence n before (c :: t) = none := if_neg fun h => hp (List.isPrefixOf_iff_prefix.1 h)
        rw [search, hocc, mentions_cons hp, ← ih t.length (by simp [← hlength]) (some c) t rfl]
        rfl

/-- A name that is apart from itself stands in a text exactly if it is mentioned there. -/
theorem stands_iff_mentions (hn : n ≠ []) (h : SelfApart n) (t : Text) : Stands n t ↔ Mentions none n t :=
  mem_names_search hn h none t

/-- The first occurrence is part of a longer name, and it holds the beginning of the mention. -/
example : ¬Stands "a a".toList "xa a a".toList := by decide

end Search

/-! ## Words in a text -/

section Words

variable {n r : Text}

/-- Class names are exchanged where no identifier character is next to them. -/
theorem isIdentChar_of_isBetween {c d : Option Char} (h : isBetween c d = true) :
    c.any isIdentChar = false ∧ d.any isIdentChar = false := by
  have hparting {o : Option Char} (ho : o.all isParting = true) : o.any isIdentChar = false := by
    cases o with
    | none => rfl
    | some c =>
      rcases Bool.or_eq_true_iff.1 (show isBlank c || Script.isQuote c by exact ho) with hblank | hquote
      · exact Stylesheet.isIdentChar_of_isBlank hblank
      · rcases Script.isQuote_iff.1 hquote with rfl | rfl <;> rfl
  rcases isBetween_iff.1 h with ⟨rfl, hd⟩ | ⟨hc, hd⟩
  · exact ⟨rfl, hd⟩
  · exact ⟨hparting hc, hparting hd⟩

/-- A class name between two characters of a text stands so in a name that ends on either side of it as well: a name does not begin
behind a dot. -/
theorem isBetween_of_or {c c' d d' : Option Char} (hstart : startsBehind c' = true) (h : isBetween (c.or c') (d.or d') = true) :
    isBetween c d = true := by
  have hident : (d.or d').any isIdentChar = false → d.any isIdentChar = false := by cases d <;> simp
  have hparting : (d.or d').all isParting = true → d.all isParting = true := by cases d <;> simp
  rw [isBetween_iff] at h ⊢
  cases c with
  | some c => exact h.imp (.imp_right hident) (.imp_right hparting)
  | none =>
    rcases h with ⟨hdot, -⟩ | ⟨-, hd⟩
    · rw [← Option.none_or (o := c'), hdot] at hstart
      cases hstart
    · exact .inr ⟨rfl, hparting hd⟩

/-- No name begins behind an identifier character. -/
theorem eq_nil_of_startsBehind {w z : Text} (hw : ∀ c ∈ w, isIdentChar c = true) (h : startsBehind (z ++ w).getLast? = true) :
    w = [] := by
  by_contra hne
  rw [List.getLast?_append, List.getLast?_eq_some_getLast hne, Option.some_or, startsBehind, Option.any_some,
    isFileNameChar_of_isIdentChar (hw _ (List.getLast_mem hne))] at h
  cases h

/-- No name ends before an identifier character. -/
theorem eq_nil_of_endsBefore {w z : Text} (hw : ∀ c ∈ w, isIdentChar c = true) (h : endsBefore (w ++ z) = true) : w = [] := by
  cases w with
  | nil => rfl
  | cons c w =>
    have hhead := head?_of_endsBefore h
    rw [List.cons_append, List.head?_cons, Option.any_some, hw c List.mem_cons_self] at hhead
    cases hhead

/-- A name that can end somewhere before a word can end there whatever stands in the place of the word. -/
theorem endsBefore_exchange_word {p a v : Text} (hr : r ≠ [] ∧ ∀ c ∈ r, isIdentChar c = true)
    (h : endsBefore (a ++ (r ++ v)) = true) : endsBefore (a ++ (p ++ v)) = true := by
  cases a with
  | nil => exact absurd (eq_nil_of_endsBefore hr.2 h) hr.1
  | cons d a =>
    by_cases hd : d = '.'
    · subst hd
      cases a with
      | nil =>
        obtain ⟨c, r, rfl⟩ := List.exists_cons_of_ne_nil hr.1
        rw [List.cons_append, List.nil_append, List.cons_append, endsBefore, hr.2 c List.mem_cons_self] at h
        cases h
      | cons e a => exact h
    · rw [List.cons_append, endsBefore_of_ne_dot hd] at h ⊢
      exact h

/-- A mention does not depend on a class name in the text that is not exposed in the name. -/
theorem Mentions.exchange_word {p u v : Text} (hr : r ≠ [] ∧ ∀ c ∈ r, isIdentChar c = true)
    (hbetween : isBetween u.getLast? v.head? = true) (hrn : ¬Exposed r n)
    (h : Mentions none n (u ++ (r ++ v))) : Mentions none n (u ++ (p ++ v)) := by
  obtain ⟨x, y, ht, hstart, hend⟩ := h
  rw [Option.or_none] at hstart
  -- the name neither begins nor ends inside the word
  have hbefore {w d : Text} (hx : ∃ z, x = z ++ w) (hw : r = w ++ d) : w = [] := by
    obtain ⟨z, rfl⟩ := hx
    exact eq_nil_of_startsBehind (fun c hc => hr.2 c (hw ▸ List.mem_append_left _ hc)) hstart
  have hbehind {w d : Text} (hy : ∃ z, y = d ++ z) (hw : r = w ++ d) : d = [] := by
    obtain ⟨z, rfl⟩ := hy
    exact eq_nil_of_endsBefore (fun c hc => hr.2 c (hw ▸ List.mem_append_right _ hc)) hend
  -- and the word does not stand inside the name
  have hinside {w d : Text} (hu : u = x ++ w) (hn : n = w ++ d) (hd : r ++ v = d ++ y) : False := by
    obtain ⟨b, rfl, rfl⟩ : ∃ b, d = r ++ b ∧ v = b ++ y := by
      rcases List.append_eq_append_iff.1 hd with hlonger | ⟨b, hrb, rfl⟩
      · exact hlonger
      · obtain rfl := hbehind ⟨v, rfl⟩ hrb
        exact ⟨[], by simp [hrb], rfl⟩
    rw [hu, List.getLast?_append, List.head?_append] at hbetween
    exact hrn ⟨w, b, hn, isBetween_of_or hstart hbetween⟩
  rcases List.append_eq_append_iff.1 ht with ⟨w, rfl, hw⟩ | ⟨w, rfl, hw⟩
  · rcases List.append_eq_append_iff.1 hw with ⟨a, rfl, rfl⟩ | ⟨d, hd, hrest⟩
    · -- the name is mentioned behind the word
      have ha : a ≠ [] := by
        rintro rfl
        exact hr.1 (hbefore (d := []) ⟨u, by simp⟩ (by simp))
      refine ⟨u ++ (p ++ a), y, by simp, ?_, hend⟩
      rw [← List.append_assoc, List.getLast?_append, List.getLast?_eq_some_getLast ha, Option.some_or] at hstart ⊢
      rwa [Option.some_or]
    · obtain rfl := hbefore ⟨u, rfl⟩ hd
      exact (hinside (w := []) (by simp) (List.nil_append n).symm hw).elim
  · rcases List.append_eq_append_iff.1 hw with ⟨a, rfl, rfl⟩ | ⟨d, rfl, hd⟩
    · -- it is mentioned before the word
      refine ⟨x, a ++ (p ++ v), by simp, by rwa [Option.or_none], endsBefore_exchange_word hr hend⟩
    · exact (hinside rfl rfl hd).elim

end Words

/-! ## The names of a codebook -/

/-- Nothing is exchanged where the name does not stand. -/
theorem exchange?_eq_none_iff {e : Text × Text} {t : Text} : exchange? e t = none ↔ ¬Stands e.1 t := by
  rw [exchange?, Piece.exchange?_eq_none_iff, Stands]
  constructor
  · intro h hmem
    cases h _ hmem
  · intro h n hn
    rw [names_pieces _ _ n hn] at hn
    exact absurd hn h

/-- A text is changed if and only if one of the names stands in it. -/
theorem isSome_rename_iff {b : Codebook} {t : Text} : (rename b t).isSome = true ↔ ∃ n ∈ b.names, Stands n t := by
  obtain ⟨es⟩ := b
  induction es with
  | nil => simp [rename, Substitution.inTurn, Codebook.names]
  | cons e es ih =>
    rw [rename, Substitution.inTurn, Codebook.names, List.map_cons, List.exists_mem_cons_iff]
    cases he : exchange? e t with
    | none =>
      rw [or_iff_right (exchange?_eq_none_iff.1 he)]
      exact ih
    | some t' =>
      refine iff_of_true rfl (.inl ?_)
      by_contra hnot
      rw [exchange?_eq_none_iff.2 hnot] at he
      cases he

end Pseudonym.Reference
