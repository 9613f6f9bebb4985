import Mathlib.Data.List.Basic
import Mathlib.Data.List.TakeWhile
import Pseudonym.Proofs.Exchange
import Pseudonym.Proofs.Symbols
import Pseudonym.Stylesheet.ClassName

/-!
# Class tokens by symbols

A selector is written with symbols so that its words are the class names (`Tokens`): a word stands behind each dot that an
identifier character follows, nowhere else, and no identifier character stands behind a word. Then the cut at class tokens finds
the symbols again, whichever words are written for the words (`cut_flatten`), and so does the harvest of the names that end a
selector (`names_cut_lastClassToken_flatten`). The harvest passes over what a match takes, but nothing there begins a token, so
it finds what can be found at each place by itself (`names_cut_lastClassToken`).
-/

namespace Pseudonym

namespace Piece

/-- A matcher that does not look at the character before and finds nothing at the end of a text. -/
structure Matcher.Forward (m : Matcher) : Prop where
  before : ∀ b b' t, m b t = m b' t
  nil : ∀ b, m b [] = none

/-- What a forward search passes over might as well not be there. -/
theorem search_drop {m : Matcher} (h : m.Forward) (k : Nat) (b : Option Char) (t : Text) :
    search m k b t = search m 0 none (t.drop k) := by
  induction t generalizing k b with
  | nil => cases k <;> simp [search, h.nil]
  | cons c t ih =>
    cases k with
    | zero => rw [List.drop_zero, search, search, h.before b none]
    | succ k => rw [search, ih, List.drop_succ_cons]

end Piece

namespace Stylesheet

open Piece (names cut search)

/-! ## Runs of identifier characters -/

/-- A run of identifier characters is taken up to the character that ends it. -/
theorem takeWhile_run {n t : Text} (hn : ∀ c ∈ n, isIdentChar c = true) (ht : t.head?.any isIdentChar = false) :
    (n ++ t).takeWhile isIdentChar = n := by
  rw [List.takeWhile_append_of_pos hn]
  cases t with
  | nil => simp
  | cons c t => rw [List.takeWhile_cons_of_neg (by simpa using ht), List.append_nil]

/-- What is behind a run of identifier characters begins with the character that ends it. -/
theorem dropWhile_run {n t : Text} (hn : ∀ c ∈ n, isIdentChar c = true) (ht : t.head?.any isIdentChar = false) :
    (n ++ t).dropWhile isIdentChar = t := by
  rw [List.dropWhile_append_of_pos hn]
  cases t with
  | nil => rfl
  | cons c t => rw [List.dropWhile_cons_of_neg (by simpa using ht)]

/-- Behind a run of identifier characters comes none. -/
theorem head?_dropWhile_run (t : Text) : (t.dropWhile isIdentChar).head?.any isIdentChar = false := by
  induction t with
  | nil => rfl
  | cons c t ih =>
    rw [List.dropWhile_cons]
    split
    · exact ih
    · next h => simpa using h

/-! ## Matches at one place -/

/-- A class token begins with a dot. -/
theorem classToken_of_ne_dot {c : Char} (h : c ≠ '.') (b : Option Char) (t : Text) : classToken b (c :: t) = none := by
  rw [classToken]
  intro u hu
  exact h (List.cons.inj hu).1

/-- Whether a class token begins does not depend on what is before it. -/
theorem forward_classToken : Piece.Matcher.Forward classToken where
  before := by
    intro b b' t
    cases t with
    | nil => rfl
    | cons c t =>
      by_cases hc : c = '.'
      · rw [hc, classToken, classToken]
      · rw [classToken_of_ne_dot hc, classToken_of_ne_dot hc]
  nil := fun _ => rfl

/-- A dot that no identifier follows is no class token. -/
theorem classToken_dot (b : Option Char) {t : Text} (ht : t.head?.any isIdentChar = false) : classToken b ('.' :: t) = none := by
  have hempty := takeWhile_run (n := []) (by simp) ht
  rw [List.nil_append] at hempty
  simp [classToken, hempty]

/-- A dot and an identifier are a class token. -/
theorem classToken_run (b : Option Char) {n t : Text} (hne : n ≠ []) (hn : ∀ c ∈ n, isIdentChar c = true)
    (ht : t.head?.any isIdentChar = false) :
    classToken b ('.' :: (n ++ t)) = some ([.fixed ['.'], .name n], n.length + 1) := by
  simp [classToken, takeWhile_run hn ht, hne]

/-- The name that is harvested at the beginning of a text, if there is one. -/
def styledAt (t : Text) : List Text := ((lastClassToken none t).map fun m => names m.1).getD []

/-- The names that are harvested at each place of a text by itself. -/
def styled : Text → List Text
  | [] => []
  | c :: t => styledAt (c :: t) ++ styled t

/-- The last class token begins with a dot as well. -/
theorem lastClassToken_of_ne_dot {c : Char} (h : c ≠ '.') (b : Option Char) (t : Text) : lastClassToken b (c :: t) = none := by
  rw [lastClassToken]
  intro u hu
  exact h (List.cons.inj hu).1

/-- Whether it begins does not depend on what is before it. -/
theorem forward_lastClassToken : Piece.Matcher.Forward lastClassToken where
  before := by
    intro b b' t
    cases t with
    | nil => rfl
    | cons c t =>
      by_cases hc : c = '.'
      · rw [hc, lastClassToken, lastClassToken]
      · rw [lastClassToken_of_ne_dot hc, lastClassToken_of_ne_dot hc]
  nil := fun _ => rfl

/-- No class is styled where there is no dot. -/
theorem styledAt_of_ne_dot {c : Char} (h : c ≠ '.') (t : Text) : styledAt (c :: t) = [] := by
  rw [styledAt, lastClassToken_of_ne_dot h]
  rfl

/-- No class is styled by a dot that no identifier follows. -/
theorem styledAt_dot {t : Text} (ht : t.head?.any isIdentChar = false) : styledAt ('.' :: t) = [] := by
  have hempty := takeWhile_run (n := []) (by simp) ht
  rw [List.nil_append] at hempty
  simp only [styledAt, lastClassToken, hempty]
  split <;> simp

/-- A class is styled if its selector ends there, but for white space. -/
theorem styledAt_run {n t : Text} (hne : n ≠ []) (hn : ∀ c ∈ n, isIdentChar c = true) (ht : t.head?.any isIdentChar = false) :
    styledAt ('.' :: (n ++ t)) = if (Text.trimLeft t).head?.any endsSelector then [n] else [] := by
  simp only [styledAt, lastClassToken, takeWhile_run hn ht, dropWhile_run hn ht, Text.trimLeft]
  split
  · next d r hd => cases he : endsSelector d <;> simp [hd, he, hne]
  · next hd => simp [hd]

/-- A text without dots styles no class. -/
theorem styled_append {u : Text} (h : '.' ∉ u) (t : Text) : styled (u ++ t) = styled t := by
  induction u with
  | nil => rfl
  | cons c u ih =>
    rw [List.mem_cons, not_or] at h
    rw [List.cons_append, styled, styledAt_of_ne_dot (Ne.symm h.1), ih h.2, List.nil_append]

/-- What a match takes holds no dot but its first character. -/
theorem lastClassToken_eq_some {b : Option Char} {c : Char} {t : Text} {ps : List Piece} {k : Nat}
    (h : lastClassToken b (c :: t) = some (ps, k)) : ∃ j, k = j + 1 ∧ '.' ∉ t.take j := by
  have hc : c = '.' := by
    by_contra hne
    rw [lastClassToken_of_ne_dot hne] at h
    cases h
  subst hc
  simp only [lastClassToken] at h
  split at h
  · next d r hd =>
    split at h
    · next he =>
      cases h
      refine ⟨_, rfl, ?_⟩
      have hsplit : t = t.takeWhile isIdentChar ++ ((t.dropWhile isIdentChar).takeWhile isBlank ++ d :: r) := by
        rw [← hd, List.takeWhile_append_dropWhile, List.takeWhile_append_dropWhile]
      have hname : '.' ∉ t.takeWhile isIdentChar := fun hm => by
        cases List.mem_takeWhile_imp hm
      have hgap : '.' ∉ (t.dropWhile isIdentChar).takeWhile isBlank := fun hm => by
        cases List.mem_takeWhile_imp hm
      have hd : '.' ≠ d := by
        rintro rfl
        simp [endsSelector] at he
      generalize t.takeWhile isIdentChar = n at *
      generalize (t.dropWhile isIdentChar).takeWhile isBlank = gap at *
      rw [hsplit, ← List.append_assoc, List.append_cons, List.take_left' (by simp; omega)]
      simp [hname, hgap, hd]
    · cases h
  · cases h

/-- The harvest finds what can be found at each place by itself: what a match takes hides no other one. -/
theorem names_cut_lastClassToken (t : Text) : names (cut lastClassToken t) = styled t := by
  have key (k : Nat) (b : Option Char) : names (search lastClassToken k b t) = styled (t.drop k) := by
    induction t generalizing k b with
    | nil => cases k <;> rfl
    | cons c t ih =>
      cases k with
      | succ k => rw [search, ih, List.drop_succ_cons]
      | zero =>
        rw [search, List.drop_zero, styled, styledAt, forward_lastClassToken.before b none]
        split
        · next h => rw [h, Piece.names_fixed, ih]; rfl
        · next ps h =>
          obtain ⟨j, hj, -⟩ := lastClassToken_eq_some h
          cases hj
        · next ps k h =>
          obtain ⟨j, hj, hdot⟩ := lastClassToken_eq_some h
          cases hj
          rw [h, Piece.names_append, ih, ← styled_append hdot, List.take_append_drop]
          rfl
  exact key 0 none

/-- The names that the harvest finds in the preludes among segments. -/
def Segment.styled (ss : List Segment) : List Text := ss.flatMap fun s => Stylesheet.styled s.selectorText

namespace Segment

/-- Segments style the classes that each of them styles. -/
theorem styled_append (ss ts : List Segment) : styled (ss ++ ts) = styled ss ++ styled ts := List.flatMap_append

/-- Segments that are demoted style no class. -/
theorem styled_map_demoted (ss : List Segment) : styled (ss.map demoted) = [] := by
  induction ss with
  | nil => rfl
  | cons s ss ih => exact ih

end Segment

/-- The class names of a stylesheet are those that its preludes style. -/
theorem classNames_eq_styled (css : Text) : classNames css = Segment.styled (segments css) := by
  refine List.flatMap_congr fun s _ => ?_
  cases s with
  | prelude t => exact names_cut_lastClassToken t
  | other t => rfl

/-! ## Selectors by symbols -/

namespace Symbol

/-- An identifier character, or a word. -/
def isIdent {ok : Char → Bool} : Symbol ok → Bool
  | .char c => isIdentChar c
  | .word _ => true

/-- The piece of a cut at class tokens that a symbol is, with other words written for the words. -/
def piece (f : Word → Word) : Symbol → Piece
  | .char c => .fixed [c]
  | .word w => .name (f w).text

end Symbol

/-- Symbols whose words are class names: a word stands behind a dot, and behind a word, or behind a dot without a word, no
identifier character. -/
inductive Tokens : List Symbol → Prop where
  | nil : Tokens []
  | token (w : Word) {l : List Symbol} : l.head?.any Symbol.isIdent = false → Tokens l → Tokens (.char '.' :: .word w :: l)
  | char {c : Char} {l : List Symbol} : (c = '.' → l.head?.any Symbol.isIdent = false) → Tokens l → Tokens (.char c :: l)

/-- The words that a comma or a brace follows, white space aside. -/
def harvest : List Symbol → List Word
  | .char '.' :: .word w :: l =>
    let next := (l.dropWhile Symbol.isBlank).head?
    if next == some (.char '{') || next == some (.char ',') then w :: harvest l else harvest l
  | _ :: l => harvest l
  | [] => []

/-- Whether a selector ends, white space aside, before what symbols are written as is seen on the symbols. -/
theorem any_endsSelector_flatten {ok : Char → Bool} [Neutral ok] {f : Word ok → Word ok} (l : List (Symbol ok)) :
    (Text.trimLeft (flatten f l)).head?.any endsSelector =
      let next := (l.dropWhile Symbol.isBlank).head?
      next == some (.char '{') || next == some (.char ',') := by
  have hends (o : Option Char) : o.any endsSelector = (o == some '{' || o == some ',') := by
    cases o <;> rfl
  rw [hends, trimLeft_flatten, head?_flatten (by decide), head?_flatten (by decide)]

section Tokens

variable {f : Word → Word}

/-- Symbols are written as a text that begins like the first of them. -/
theorem head?_flatten_any (l : List Symbol) : (flatten f l).head?.any isIdentChar = l.head?.any Symbol.isIdent := by
  cases l with
  | nil => rfl
  | cons x l =>
    cases x with
    | char c => rfl
    | word w =>
      obtain ⟨c, t, hw, hc, -⟩ := (f w).text_eq_cons
      simp [hw, hc, Symbol.isIdent]

/-- The pieces of symbols are their text. -/
theorem join_map_piece (l : List Symbol) : Piece.join (l.map (Symbol.piece f)) = flatten f l := by
  induction l with
  | nil => rfl
  | cons x l ih =>
    rw [List.map_cons, Piece.join_cons, ih]
    cases x <;> rfl

/-- Every text is written with symbols whose words are its class names. -/
theorem exists_tokens (t : Text) : ∃ l, Tokens l ∧ flatten id l = t := by
  generalize hn : t.length = n
  induction n using Nat.strongRecOn generalizing t with
  | ind n ih =>
    cases t with
    | nil => exact ⟨[], .nil, rfl⟩
    | cons c t =>
      by_cases hrun : c = '.' ∧ t.takeWhile isIdentChar ≠ []
      · obtain ⟨rfl, hne⟩ := hrun
        obtain ⟨l, hl, hflat⟩ := ih (t.dropWhile isIdentChar).length
          (by have := (List.dropWhile_sublist (l := t) isIdentChar).length_le; simp at hn; omega) _ rfl
        refine ⟨.char '.' :: .word ⟨t.takeWhile isIdentChar, hne, fun c hc => List.mem_takeWhile_imp hc⟩ :: l, .token _ ?_ hl, ?_⟩
        · rw [← head?_flatten_any (f := id), hflat]
          exact head?_dropWhile_run t
        · rw [flatten_char, flatten_word, hflat]
          exact congrArg _ List.takeWhile_append_dropWhile
      · obtain ⟨l, hl, hflat⟩ := ih t.length (by simp at hn; omega) _ rfl
        refine ⟨.char c :: l, .char (fun hc => ?_) hl, by rw [flatten_char, hflat]⟩
        have hempty : t.takeWhile isIdentChar = [] := by
          by_contra hne
          exact hrun ⟨hc, hne⟩
        have hdrop : t.dropWhile isIdentChar = t := by
          simpa [hempty] using List.takeWhile_append_dropWhile (p := isIdentChar) (l := t)
        rw [← head?_flatten_any (f := id), hflat, ← hdrop]
        exact head?_dropWhile_run t

/-- The cut at class tokens finds the symbols of a selector, whichever words are written for its words. -/
theorem cut_flatten {l : List Symbol} (h : Tokens l) : cut classToken (flatten f l) = l.map (Symbol.piece f) := by
  unfold cut
  induction h with
  | nil => rfl
  | @token w l hl _ ih =>
    rw [flatten_char, flatten_word, search, classToken_run _ (f w).nonempty (f w).chars (by rw [head?_flatten_any]; exact hl)]
    show [.fixed ['.'], .name (f w).text] ++ search classToken (f w).text.length (some '.') ((f w).text ++ flatten f l) = _
    rw [Piece.search_drop forward_classToken, List.drop_left, ih]
    rfl
  | @char c l hl _ ih =>
    have hnone : classToken none (c :: flatten f l) = none := by
      by_cases hc : c = '.'
      · subst hc
        exact classToken_dot _ (by rw [head?_flatten_any]; exact hl rfl)
      · exact classToken_of_ne_dot hc _ _
    rw [flatten_char, search, hnone]
    show .fixed [c] :: search classToken 0 (some c) (flatten f l) = _
    rw [Piece.search_drop forward_classToken, List.drop_zero, ih]
    rfl

/-- The harvest finds the same words of a selector, whichever words are written for them. -/
theorem names_cut_lastClassToken_flatten {l : List Symbol} (h : Tokens l) :
    names (cut lastClassToken (flatten f l)) = (harvest l).map fun w => (f w).text := by
  rw [names_cut_lastClassToken]
  induction h with
  | nil => rfl
  | @token w l hl _ ih =>
    have hdot : '.' ∉ (f w).text := fun hm => by
      cases (f w).chars _ hm
    rw [flatten_char, flatten_word, styled, styled_append hdot, ih,
      styledAt_run (f w).nonempty (f w).chars (by rw [head?_flatten_any]; exact hl), any_endsSelector_flatten, harvest]
    split <;> simp
  | @char c l hl _ ih =>
    rw [flatten_char, styled, ih]
    by_cases hc : c = '.'
    · subst hc
      rw [styledAt_dot (by rw [head?_flatten_any]; exact hl rfl), harvest]
      · rfl
      · rintro w k _ rfl
        cases hl rfl
    · rw [styledAt_of_ne_dot hc, harvest]
      · rfl
      · intro w k he _
        exact hc (Symbol.char.inj he)

end Tokens

end Stylesheet

end Pseudonym
