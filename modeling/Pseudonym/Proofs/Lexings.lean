import Pseudonym.Proofs.Lexemes

/-!
# Lexemes read back off their text

A list of lexemes is read back off its text when each lexeme ends where the reader ends it (`IsLexing`). That is so of the lexemes
of every text, and of every part of them. So a stylesheet has the lexemes that its segments have, one segment after the other
(`lexemes_eq_flatMap`).
-/

namespace Pseudonym.Stylesheet

/-! ## Where a comment and a string end -/

/-- A character that does not end a comment belongs to it. -/
theorem splitComment_cons {c : Char} {t : Text} (h : ¬(c = '*' ∧ ∃ u, t = '/' :: u)) :
    splitComment (c :: t) = (c :: (splitComment t).1, (splitComment t).2) := by
  rw [splitComment]
  exact fun u hc hu => h ⟨hc, u, hu⟩

/-- A character that no backslash hides ends a string if it is its quote. -/
theorem splitQuoted_cons {q c : Char} (h : c ≠ '\\') (t : Text) :
    splitQuoted q (c :: t) = if c = q then ([c], t) else (c :: (splitQuoted q t).1, (splitQuoted q t).2) := by
  rw [splitQuoted]
  exact fun d u hc _ => h hc

/-- A comment goes on for one character at least. -/
theorem splitComment_fst_ne_nil {t : Text} (h : t ≠ []) : (splitComment t).1 ≠ [] := by
  fun_cases splitComment t with
  | case1 => exact absurd rfl h
  | case2 t => simp
  | case3 c t hne => simp

/-- A string goes on for one character at least. -/
theorem splitQuoted_fst_ne_nil {q : Char} {t : Text} (h : t ≠ []) : (splitQuoted q t).1 ≠ [] := by
  fun_cases splitQuoted q t with
  | case1 => exact absurd rfl h
  | case2 c t => simp
  | case3 t hne => simp
  | case4 c t hne hc => simp

/-- A comment that something follows ends in the same place whatever follows it. -/
theorem splitComment_append {rest s s' : Text} (h : splitComment (rest ++ s) = (rest, s)) (hs : s = [] → s' = []) :
    splitComment (rest ++ s') = (rest, s') := by
  by_cases hnil : s = []
  · rw [hs hnil, ← hnil, h]
  clear hs
  induction rest with
  | nil => exact absurd (congrArg Prod.fst h) (splitComment_fst_ne_nil hnil)
  | cons c rest ih =>
    by_cases hend : c = '*' ∧ ∃ u, rest ++ s = '/' :: u
    · obtain ⟨rfl, u, hu⟩ := hend
      rw [List.cons_append, hu, splitComment] at h
      have hrest : rest = ['/'] := (List.cons.inj (Prod.ext_iff.1 h).1).2.symm
      rw [hrest]
      rfl
    · rw [List.cons_append, splitComment_cons hend, Prod.mk.injEq, List.cons_inj_right] at h
      have hrest := ih (Prod.ext h.1 h.2)
      rw [List.cons_append, splitComment_cons, hrest]
      -- the character behind is one of the comment, for a comment is not empty
      cases rest with
      | nil => exact absurd h.1 (splitComment_fst_ne_nil hnil)
      | cons d rest =>
        rintro ⟨hc, u, hu⟩
        exact hend ⟨hc, rest ++ s, by rw [List.cons_append, (List.cons.inj hu).1]⟩

/-- A string that something follows ends in the same place whatever follows it. -/
theorem splitQuoted_append {q : Char} {rest s s' : Text} (h : splitQuoted q (rest ++ s) = (rest, s)) (hs : s = [] → s' = []) :
    splitQuoted q (rest ++ s') = (rest, s') := by
  by_cases hnil : s = []
  · rw [hs hnil, ← hnil, h]
  clear hs
  generalize hn : rest.length = n
  induction n using Nat.strongRecOn generalizing rest with
  | ind n ih =>
    cases rest with
    | nil => exact absurd (congrArg Prod.fst h) (splitQuoted_fst_ne_nil hnil)
    | cons c rest =>
      by_cases hslash : c = '\\'
      · subst hslash
        cases rest with
        | nil =>
          cases s with
          | nil => exact absurd rfl hnil
          | cons d s => cases h
        | cons d rest =>
          rw [List.cons_append, List.cons_append, splitQuoted, Prod.mk.injEq, List.cons_inj_right, List.cons_inj_right] at h
          rw [List.cons_append, List.cons_append, splitQuoted, ih rest.length (by simp at hn; omega) (Prod.ext h.1 h.2) rfl]
      · rw [List.cons_append, splitQuoted_cons hslash] at h ⊢
        split at h
        · next hq =>
          rw [Prod.mk.injEq, List.cons_inj_right] at h
          rw [if_pos hq, ← h.1]
          rfl
        · next hq =>
          rw [Prod.mk.injEq, List.cons_inj_right] at h
          rw [if_neg hq, ih rest.length (by simp at hn; omega) (Prod.ext h.1 h.2) rfl]

/-! ## Lexings -/

open Lexeme (join)

/-- Lexemes that are read off their text as they are. -/
inductive IsLexing : List Lexeme → Prop
  | nil : IsLexing []
  | comment {rest : Text} {xs : List Lexeme} :
      splitComment (rest ++ join xs) = (rest, join xs) → IsLexing xs → IsLexing (.comment rest :: xs)
  | quoted {q : Char} {rest : Text} {xs : List Lexeme} : q = '"' ∨ q = '\'' →
      splitQuoted q (rest ++ join xs) = (rest, join xs) → IsLexing xs → IsLexing (.quoted q rest :: xs)
  | plain {c : Char} {xs : List Lexeme} : ¬(c = '"' ∨ c = '\'') → (c = '/' → (join xs).head? ≠ some '*') →
      IsLexing xs → IsLexing (.plain c :: xs)

/-- The lexemes of a text are read off it as they are. -/
theorem isLexing_lexemes (t : Text) : IsLexing (lexemes t) := by
  fun_induction lexemes t with
  | case1 => exact .nil
  | case2 t ih => exact .comment (by rw [join_lexemes, append_splitComment]) ih
  | case3 c t hne hc ih => exact .quoted hc (by rw [join_lexemes, append_splitQuoted]) ih
  | case4 c t hne hc ih =>
    refine .plain hc ?_ ih
    intro hslash hstar
    rw [join_lexemes] at hstar
    obtain ⟨u, hu⟩ := List.head?_eq_some_iff.1 hstar
    exact hne u hslash hu

namespace IsLexing

/-- Lexemes that can be read off their text are. -/
theorem lexemes_join {xs : List Lexeme} (h : IsLexing xs) : lexemes (join xs) = xs := by
  induction h with
  | nil => rw [Lexeme.join_nil, lexemes]
  | comment hrest _ ih => rw [Lexeme.join_cons, Lexeme.text, List.cons_append, List.cons_append, lexemes, hrest, ih]
  | quoted hq hrest _ ih =>
    rw [Lexeme.join_cons, Lexeme.text, List.cons_append, lexemes, if_pos hq, hrest, ih]
    rintro u rfl -
    rcases hq with h | h <;> cases h
  | plain hc hslash _ ih =>
    rw [Lexeme.join_cons, Lexeme.text, List.singleton_append, lexemes, if_neg hc, ih]
    intro u hc hu
    exact hslash hc (by rw [hu]; rfl)

/-- The last lexemes can be read off their own text. -/
theorem of_append_right {ys zs : List Lexeme} (h : IsLexing (ys ++ zs)) : IsLexing zs := by
  induction ys with
  | nil => exact h
  | cons y ys ih =>
    cases h with
    | comment _ h => exact ih h
    | quoted _ _ h => exact ih h
    | plain _ _ h => exact ih h

/-- So can the first ones. -/
theorem of_append_left {ys zs : List Lexeme} (h : IsLexing (ys ++ zs)) : IsLexing ys := by
  induction ys with
  | nil => exact .nil
  | cons y ys ih =>
    have hnil : join (ys ++ zs) = [] → join ys = [] := by
      rw [Lexeme.join_append]
      exact fun h => (List.append_eq_nil_iff.1 h).1
    cases h with
    | comment hrest h => exact .comment (splitComment_append hrest hnil) (ih h)
    | quoted hq hrest h => exact .quoted hq (splitQuoted_append hrest hnil) (ih h)
    | plain hc hslash h =>
      refine .plain hc (fun hc hstar => hslash hc ?_) (ih h)
      show (join (ys ++ zs)).head? = some '*'
      rw [Lexeme.join_append, List.head?_append, hstar]
      rfl

end IsLexing

/-! ## The lexemes of segments -/

/-- The lexemes of segments, one segment after the other. -/
def Segment.lexemes (ss : List Segment) : List Lexeme := ss.flatMap fun s => Stylesheet.lexemes s.text

namespace Segment

theorem lexemes_append (ss ts : List Segment) : lexemes (ss ++ ts) = lexemes ss ++ lexemes ts := List.flatMap_append

/-- To demote segments leaves their lexemes as they are. -/
theorem lexemes_map_demoted (ss : List Segment) : lexemes (ss.map demoted) = lexemes ss := by
  rw [lexemes, List.flatMap_map]
  rfl

end Segment

namespace Section

/-- The lexemes of a section whose characters since its last segment are those of given lexemes. -/
theorem lexemes_endPrelude {s : Section} {ys : List Lexeme} (hys : s.current.reverse = join ys) (h : IsLexing ys) :
    Segment.lexemes s.endPrelude.segments.reverse = Segment.lexemes s.segments.reverse ++ ys := by
  have hnil : lexemes (Segment.prelude []).text = [] := IsLexing.nil.lexemes_join
  rw [Segment.lexemes, flatMap_segments_endPrelude hnil, Segment.text_prelude, hys, h.lexemes_join, Segment.lexemes]

/-- A section that is dismissed keeps its lexemes. -/
theorem lexemes_dismissed (s : Section) : Segment.lexemes s.dismissed = Segment.lexemes s.endPrelude.segments.reverse :=
  Segment.lexemes_map_demoted _

/-- A prelude ends once. -/
theorem endPrelude_endPrelude (s : Section) : s.endPrelude.endPrelude = s.endPrelude := by
  rw [endPrelude, current_endPrelude]
  rfl

/-- A section that ends in a brace keeps its lexemes. -/
theorem lexemes_opened (s : Section) : Segment.lexemes s.opened = Segment.lexemes s.endPrelude.segments.reverse := by
  simp only [opened]
  split
  · rw [lexemes_dismissed, endPrelude_endPrelude]
  · rfl

end Section

/-- What is read on from within a section has the lexemes of the segments before, those since the last of them, and those that are
still to be read. -/
theorem lexemes_readLexemes {s : Section} (ys : List Lexeme) (hys : s.current.reverse = join ys) {xs : List Lexeme}
    (h : IsLexing (ys ++ xs)) :
    Segment.lexemes (readLexemes s xs) = Segment.lexemes s.segments.reverse ++ (ys ++ xs) := by
  induction xs generalizing s ys with
  | nil =>
    rw [List.append_nil] at h ⊢
    exact s.lexemes_dismissed.trans (Section.lexemes_endPrelude hys h)
  | cons x xs ih =>
    rw [List.append_cons] at h ⊢
    have hrest := ih (s := {}) [] rfl h.of_append_right
    cases hx : x.isComment with
    | true =>
      obtain ⟨rest, rfl⟩ := Lexeme.isComment_iff.1 hx
      have hcomment : lexemes (Lexeme.comment rest).text = [.comment rest] := by
        simpa using h.of_append_left.of_append_right.lexemes_join
      have hsegments : Segment.lexemes (s.take (.comment rest)).segments.reverse =
          Segment.lexemes s.segments.reverse ++ (ys ++ [.comment rest]) := by
        rw [Section.take_comment, List.reverse_cons, Segment.lexemes_append,
          Section.lexemes_endPrelude hys h.of_append_left.of_append_left, List.append_assoc, ← hcomment]
        simp [Segment.lexemes]
      rw [readLexemes_of_not_isEnd rfl, ih [] (by simp [Section.take_comment]) h.of_append_right, hsegments, List.nil_append,
        List.append_assoc]
    | false =>
      have htake := Section.take_of_not_isComment (s := s) hx
      have hcurrent : (s.take x).current.reverse = join (ys ++ [x]) := by simp [htake, hys]
      have hsection : Segment.lexemes (s.take x).endPrelude.segments.reverse =
          Segment.lexemes s.segments.reverse ++ (ys ++ [x]) := by
        rw [Section.lexemes_endPrelude hcurrent h.of_append_left, htake]
      rw [readLexemes]
      split
      · rw [Segment.lexemes_append, Section.lexemes_opened, hsection, hrest, List.append_assoc]
        rfl
      · split
        · rw [Segment.lexemes_append, Section.lexemes_dismissed, hsection, hrest, List.append_assoc]
          rfl
        · rw [ih _ hcurrent h, htake]

/-- A stylesheet has the lexemes of its segments. -/
theorem lexemes_eq_flatMap (t : Text) : lexemes t = (segments t).flatMap fun s => lexemes s.text := by
  have h := lexemes_readLexemes (s := {}) [] rfl (isLexing_lexemes t)
  rw [← readFrom_lexemes] at h
  exact h.symm

end Pseudonym.Stylesheet
