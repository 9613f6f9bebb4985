import Mathlib.Data.List.Perm.Basic
import Pseudonym.Proofs.ClassTokens
import Pseudonym.Proofs.Lexings

/-!
# Comments and the class names of a stylesheet

A comment parts a selector: the harvest goes over the stretches between the comments one by one, and a class name is only found
when the comma or the brace that ends its selector stands in the same stretch. With a space in the place of each comment
(`uncommented`) a selector is one stretch. So a comment adds no class name, and it hides one exactly when it stands between the
name and the end of its selector (`classNames_uncommented`).
-/

namespace Pseudonym.Stylesheet

open Lexeme (join)

/-- A space in the place of a comment. -/
def Lexeme.blanked : Lexeme → Lexeme
  | .comment _ => .plain ' '
  | x => x

/-- The stylesheet with a space in the place of each comment. -/
def uncommented (css : Text) : Text := join ((lexemes css).map Lexeme.blanked)

/-- The selectors among lexemes, each with its comments and its brace. -/
def selectors (xs : List Lexeme) : List (List Lexeme) :=
  (xs.splitBy fun x _ => !x.isEnd).filter fun s => isSelector (placed 0 s)

/-- The texts between comments. -/
def stretches (s : List Lexeme) : List Text := (s.splitOnP Lexeme.isComment).map join

/-- Texts with a space between each and the next one. -/
def spaced (ts : List Text) : Text := [' '].intercalate ts

/-! ## Sections, one after the other -/

/-- Lexemes that nothing ends, or a section and the lexemes behind it. -/
theorem sections_induction {P : List Lexeme → Prop} (last : ∀ ys : List Lexeme, (∀ y ∈ ys, y.isEnd = false) → P ys)
    (cons : ∀ (ys : List Lexeme) (x : Lexeme) (rest : List Lexeme), (∀ y ∈ ys, y.isEnd = false) → x.isEnd = true → P rest →
      P (ys ++ x :: rest)) (xs : List Lexeme) : P xs := by
  have key (ys : List Lexeme) (hys : ∀ y ∈ ys, y.isEnd = false) : P (ys ++ xs) := by
    induction xs generalizing ys with
    | nil =>
      rw [List.append_nil]
      exact last ys hys
    | cons x xs ih =>
      cases hx : x.isEnd with
      | true => exact cons ys x xs hys hx (ih [] (by simp))
      | false =>
        rw [List.append_cons]
        refine ih (ys ++ [x]) ?_
        simpa [or_imp, forall_and] using ⟨hys, hx⟩
  exact key [] (by simp)

/-- What does not end in a brace is no selector. -/
theorem isSelector_placed_eq_false {n : Nat} {s : List Lexeme} (hs : s.getLast? ≠ some (.plain '{')) :
    isSelector (placed n s) = false := by
  refine isSelector_eq_false ?_
  rwa [getLast?_placed]

/-- There is no selector where nothing ends. -/
theorem selectors_of_not_isEnd {ys : List Lexeme} (hys : ∀ y ∈ ys, y.isEnd = false) : selectors ys = [] := by
  refine List.filter_eq_nil_iff.2 fun s hs => ?_
  rw [Bool.not_eq_true]
  refine isSelector_placed_eq_false fun hopen => ?_
  have hmem : Lexeme.plain '{' ∈ (ys.splitBy fun x _ => !x.isEnd).flatten :=
    List.mem_flatten.2 ⟨s, hs, List.mem_of_getLast? hopen⟩
  rw [List.flatten_splitBy] at hmem
  cases hys _ hmem

/-- Up to the first lexeme that ends it, a stylesheet is a selector or none; the rest follows. -/
theorem selectors_append_cons {ys rest : List Lexeme} {x : Lexeme} (hys : ∀ y ∈ ys, y.isEnd = false) (hx : x.isEnd = true) :
    selectors (ys ++ x :: rest) = (if isSelector (placed 0 (ys ++ [x])) then [ys ++ [x]] else []) ++ selectors rest := by
  rw [selectors, splitBy_append_cons hys hx, List.filter_cons]
  split <;> rfl

/-! ## The harvest, stretch by stretch -/

/-- Without comments a selector is one stretch. -/
theorem stretches_of_plain {ys : List Lexeme} (hys : ∀ y ∈ ys, y.isComment = false) : stretches ys = [join ys] := by
  rw [stretches, List.splitOnP_eq_singleton hys]
  rfl

/-- A comment ends a stretch. -/
theorem stretches_append_comment {ys : List Lexeme} (hys : ∀ y ∈ ys, y.isComment = false) (rest : Text) (xs : List Lexeme) :
    stretches (ys ++ .comment rest :: xs) = join ys :: stretches xs := by
  rw [stretches, List.splitOnP_append_cons_of_forall_mem hys _ rfl]
  rfl

namespace Section

/-- When a prelude ends, its classes are added to those that are styled. -/
theorem styled_endPrelude (s : Section) : Segment.styled s.endPrelude.segments.reverse =
    Segment.styled s.segments.reverse ++ Stylesheet.styled s.current.reverse :=
  flatMap_segments_endPrelude rfl s

/-- The names in a section whose characters since its last segment are those of given lexemes. -/
theorem styled_foldl_take {s : Section} (ys : List Lexeme) (hys : s.current.reverse = join ys)
    (hplain : ∀ y ∈ ys, y.isComment = false) (xs : List Lexeme) :
    Segment.styled (xs.foldl take s).endPrelude.segments.reverse =
      Segment.styled s.segments.reverse ++ (stretches (ys ++ xs)).flatMap Stylesheet.styled := by
  induction xs generalizing s ys with
  | nil =>
    rw [List.append_nil, stretches_of_plain hplain, List.foldl_nil, styled_endPrelude, hys, List.flatMap_singleton]
  | cons x xs ih =>
    cases hx : x.isComment with
    | true =>
      obtain ⟨rest, rfl⟩ := Lexeme.isComment_iff.1 hx
      have hsegments : Segment.styled (s.take (.comment rest)).segments.reverse =
          Segment.styled s.segments.reverse ++ Stylesheet.styled (join ys) := by
        rw [take_comment, List.reverse_cons, Segment.styled_append, styled_endPrelude, hys]
        exact List.append_nil _
      rw [List.foldl_cons, ih [] (by simp [take_comment]) (by simp), hsegments, stretches_append_comment hplain,
        List.flatMap_cons, List.append_assoc]
      rfl
    | false =>
      have htake := take_of_not_isComment (s := s) hx
      have hplain' : ∀ y ∈ ys ++ [x], y.isComment = false := by
        simpa [or_imp, forall_and] using ⟨hplain, hx⟩
      rw [List.foldl_cons, ih (ys ++ [x]) (by simp [htake, hys]) hplain', htake, List.append_assoc]
      rfl

end Section

/-- Lexemes that end nothing are taken into the section. -/
theorem readLexemes_append {ys : List Lexeme} (hys : ∀ y ∈ ys, y.isEnd = false) (s : Section) (xs : List Lexeme) :
    readLexemes s (ys ++ xs) = readLexemes (ys.foldl Section.take s) xs := by
  induction ys generalizing s with
  | nil => rfl
  | cons y ys ih =>
    rw [List.cons_append, readLexemes_of_not_isEnd (hys y List.mem_cons_self), ih fun z hz => hys z (List.mem_cons_of_mem _ hz),
      List.foldl_cons]

/-- The harvest finds the names of the stretches of the selectors. -/
theorem styled_readLexemes (xs : List Lexeme) :
    Segment.styled (readLexemes {} xs) = (selectors xs).flatMap fun s => (stretches s).flatMap styled := by
  induction xs using sections_induction with
  | last ys hys =>
    have hread := readLexemes_append hys {} []
    rw [List.append_nil] at hread
    rw [hread, selectors_of_not_isEnd hys]
    exact Segment.styled_map_demoted _
  | cons ys x rest hys hx ih =>
    have htake : (ys.foldl Section.take {}).take x = (ys ++ [x]).foldl Section.take {} := by simp
    rw [readLexemes_append hys, readLexemes, htake, selectors_append_cons hys hx, List.flatMap_append]
    by_cases hopen : x = .plain '{'
    · have hlast : (ys ++ [x]).getLast? = some (.plain '{') := by simp [hopen]
      rw [if_pos hopen, Segment.styled_append, ih, Section.opened]
      cases hat : ((ys ++ [x]).foldl Section.take {}).endPrelude.isAtRule with
      | true =>
        have hselector : isSelector (placed 0 (ys ++ [x])) = false := by rw [isSelector_placed hlast, hat]; rfl
        rw [hselector, if_pos rfl, if_neg Bool.false_ne_true]
        exact congrArg (· ++ _) (Segment.styled_map_demoted _)
      | false =>
        have hselector : isSelector (placed 0 (ys ++ [x])) = true := by rw [isSelector_placed hlast, hat]; rfl
        rw [hselector, if_neg Bool.false_ne_true, if_pos rfl, Section.styled_foldl_take (s := {}) [] rfl (by simp),
          List.flatMap_singleton]
        rfl
    · have hselector : isSelector (placed 0 (ys ++ [x])) = false := isSelector_placed_eq_false (by simpa using hopen)
      rw [if_neg hopen, if_pos hx, Segment.styled_append, ih, hselector, if_neg Bool.false_ne_true]
      exact congrArg (· ++ _) (Segment.styled_map_demoted _)

/-- The class names of a stylesheet are those that the stretches of its selectors style. -/
theorem classNames_eq_stretches (css : Text) :
    classNames css = (selectors (lexemes css)).flatMap fun s => (stretches s).flatMap styled := by
  rw [classNames_eq_styled, segments, readFrom_lexemes, styled_readLexemes]

/-! ## A space in the place of each comment -/

/-- A blank in place of a comment ends no section, as the comment ends none. -/
theorem isEnd_blanked (x : Lexeme) : x.blanked.isEnd = x.isEnd := by
  cases x <;> rfl

/-- A blank is no comment. -/
theorem isComment_blanked (x : Lexeme) : x.blanked.isComment = false := by
  cases x <;> rfl

/-- Only comments are blanked. -/
theorem blanked_of_not_isComment {x : Lexeme} (h : x.isComment = false) : x.blanked = x := by
  cases x with
  | comment rest => cases h
  | quoted q rest => rfl
  | plain c => rfl

/-- A stylesheet with blanks in place of comments has the same lexemes elsewhere. -/
theorem IsLexing.map_blanked {xs : List Lexeme} (h : IsLexing xs) : IsLexing (xs.map Lexeme.blanked) := by
  have hnil (xs : List Lexeme) : join xs = [] → join (xs.map Lexeme.blanked) = [] := by
    rw [Lexeme.join_eq_nil_iff]
    rintro rfl
    rfl
  induction h with
  | nil => exact .nil
  | comment _ _ ih => exact .plain (by decide) (fun hc => absurd hc (by decide)) ih
  | @quoted q rest xs hq hrest _ ih => exact .quoted hq (splitQuoted_append hrest (hnil xs)) ih
  | @plain c xs hc hslash _ ih =>
    refine .plain hc (fun hc hstar => hslash hc ?_) ih
    cases xs with
    | nil => cases hstar
    | cons x xs =>
      cases x with
      | comment rest => cases hstar
      | quoted q rest => exact hstar
      | plain d => exact hstar

/-- The lexemes of a stylesheet without comments are those of the stylesheet, with blanks. -/
theorem lexemes_uncommented (css : Text) : lexemes (uncommented css) = (lexemes css).map Lexeme.blanked :=
  (isLexing_lexemes css).map_blanked.lexemes_join

/-- The first character of a selector that is neither blank nor in a comment stays the first. -/
theorem find?_map_blanked (s : List Lexeme) : (join ((s.map Lexeme.blanked).filter (!·.isComment))).find? (!isBlank ·) =
    (join (s.filter (!·.isComment))).find? (!isBlank ·) := by
  have hcons {y : Lexeme} (hy : y.isComment = false) (s : List Lexeme) :
      (join ((y :: s).filter (!·.isComment))).find? (!isBlank ·) =
        (y.text.find? (!isBlank ·)).or ((join (s.filter (!·.isComment))).find? (!isBlank ·)) := by
    rw [List.filter_cons_of_pos (by simp [hy]), Lexeme.join_cons, List.find?_append]
  induction s with
  | nil => rfl
  | cons x s ih =>
    rw [List.map_cons, hcons (isComment_blanked x), ih]
    cases hx : x.isComment with
    | true =>
      obtain ⟨rest, rfl⟩ := Lexeme.isComment_iff.1 hx
      rfl
    | false => rw [hcons hx, blanked_of_not_isComment hx]

/-- White space does not decide whether a section is a selector. -/
theorem isSelector_map_blanked (n : Nat) (s : List Lexeme) :
    isSelector (placed n (s.map Lexeme.blanked)) = isSelector (placed n s) := by
  have hlast : ((s.map Lexeme.blanked).getLast? == some (.plain '{')) = (s.getLast? == some (.plain '{')) := by
    rw [List.getLast?_map]
    cases s.getLast? with
    | none => rfl
    | some x => cases x <;> simp [Lexeme.blanked]
  rw [isSelector, isSelector, getLast?_placed, getLast?_placed, join_filter_placed, join_filter_placed, hlast, find?_map_blanked]

/-- The selectors stay where they are. -/
theorem selectors_map_blanked (xs : List Lexeme) :
    selectors (xs.map Lexeme.blanked) = (selectors xs).map (List.map Lexeme.blanked) := by
  have hend {ys : List Lexeme} (hys : ∀ y ∈ ys, y.isEnd = false) : ∀ y ∈ ys.map Lexeme.blanked, y.isEnd = false := by
    simpa [isEnd_blanked] using hys
  induction xs using sections_induction with
  | last ys hys => rw [selectors_of_not_isEnd hys, selectors_of_not_isEnd (hend hys)]; rfl
  | cons ys x rest hys hx ih =>
    have hmap : (ys.map Lexeme.blanked) ++ [x.blanked] = (ys ++ [x]).map Lexeme.blanked := by simp
    rw [List.map_append, List.map_cons, selectors_append_cons (hend hys) (by rw [isEnd_blanked, hx]), ih,
      selectors_append_cons hys hx, List.map_append, hmap]
    rw [isSelector_map_blanked]
    split <;> rfl

/-- Before further stretches there is a blank. -/
theorem spaced_cons {ts : List Text} (hts : ts ≠ []) (t : Text) : spaced (t :: ts) = t ++ ' ' :: spaced ts := by
  rw [spaced, List.intercalate_cons_of_ne_nil hts, List.append_assoc]
  rfl

/-- What a selector becomes: its stretches, spaces between them. -/
theorem join_map_blanked (s : List Lexeme) : join (s.map Lexeme.blanked) = spaced (stretches s) := by
  induction s with
  | nil => rfl
  | cons x s ih =>
    obtain ⟨ys, yss, hys⟩ := List.exists_cons_of_ne_nil (List.splitOnP_ne_nil Lexeme.isComment s)
    have hs : stretches s = join ys :: yss.map join := by rw [stretches, hys]; rfl
    rw [List.map_cons, Lexeme.join_cons, ih, hs, stretches, List.splitOnP_cons_eq_if_modifyHead, hys]
    cases hx : x.isComment with
    | true =>
      obtain ⟨rest, rfl⟩ := Lexeme.isComment_iff.1 hx
      exact (spaced_cons (List.cons_ne_nil _ _) []).symm
    | false =>
      rw [blanked_of_not_isComment hx, if_neg Bool.false_ne_true]
      show x.text ++ spaced (join ys :: yss.map join) = spaced ((x.text ++ join ys) :: yss.map join)
      cases yss with
      | nil => simp [spaced]
      | cons zs zss => rw [List.map_cons, spaced_cons (List.cons_ne_nil _ _), spaced_cons (List.cons_ne_nil _ _), List.append_assoc]

/-- Without its comments a stylesheet has the names of its selectors, each of which is one stretch. -/
theorem classNames_uncommented_eq (css : Text) :
    classNames (uncommented css) = (selectors (lexemes css)).flatMap fun s => styled (spaced (stretches s)) := by
  rw [classNames_eq_stretches, lexemes_uncommented, selectors_map_blanked, List.flatMap_map]
  refine List.flatMap_congr fun s _ => ?_
  rw [stretches_of_plain (by simp [isComment_blanked]), join_map_blanked, List.flatMap_singleton]

/-! ## Names at the end of a stretch -/

/-- The name of a dot, a run of identifier characters and white space, if a text is nothing else. -/
def trailingAt : Text → List Text
  | '.' :: t =>
    if t.takeWhile isIdentChar ≠ [] ∧ Text.trimLeft (t.dropWhile isIdentChar) = [] then [t.takeWhile isIdentChar] else []
  | _ => []

/-- The class name that a text ends with, white space aside. -/
def trailing : Text → List Text
  | [] => []
  | c :: t => trailingAt (c :: t) ++ trailing t

/-- A text ends with a class name, white space aside. -/
def EndsWith (t n : Text) : Prop :=
  ∃ u gap, t = u ++ '.' :: (n ++ gap) ∧ n ≠ [] ∧ (∀ c ∈ n, isIdentChar c = true) ∧ ∀ c ∈ gap, isBlank c = true

/-- A class at the end begins with a dot. -/
theorem trailingAt_of_ne_dot {c : Char} (h : c ≠ '.') (t : Text) : trailingAt (c :: t) = [] := by
  rw [trailingAt]
  intro u hu
  exact h (List.cons.inj hu).1

/-- Without a dot there is no class at the end. -/
theorem trailing_of_not_mem {t : Text} (h : '.' ∉ t) : trailing t = [] := by
  induction t with
  | nil => rfl
  | cons c t ih =>
    rw [List.mem_cons, not_or] at h
    rw [trailing, trailingAt_of_ne_dot (Ne.symm h.1), ih h.2, List.nil_append]

/-- Does a text begin with the end of a selector, white space aside? -/
def closes (t : Text) : Bool := (Text.trimLeft t).head?.any endsSelector

/-- White space closes nothing by itself. -/
theorem closes_append_of_blank {t : Text} (h : Text.trimLeft t = []) (v : Text) : closes (t ++ v) = closes v := by
  rw [closes, closes, Text.trimLeft, List.dropWhile_append_of_pos (List.dropWhile_eq_nil_iff.1 h)]
  rfl

/-- The first character that is not white space decides. -/
theorem closes_append_of_ne {t : Text} (h : Text.trimLeft t ≠ []) (v : Text) : closes (t ++ v) = closes t := by
  obtain ⟨c, u, hu⟩ := List.exists_cons_of_ne_nil h
  rw [closes, closes, hu, Text.trimLeft, List.dropWhile_append, ← Text.trimLeft, hu]
  rfl

/-- A class is at the end if there is only white space behind it. -/
theorem trailingAt_run {n t : Text} (hne : n ≠ []) (hn : ∀ c ∈ n, isIdentChar c = true) (ht : t.head?.any isIdentChar = false) :
    trailingAt ('.' :: (n ++ t)) = if Text.trimLeft t = [] then [n] else [] := by
  simp only [trailingAt, takeWhile_run hn ht, dropWhile_run hn ht]
  simp [hne]

/-- A dot that no identifier follows is no class at the end. -/
theorem trailingAt_dot {t : Text} (ht : t.head?.any isIdentChar = false) : trailingAt ('.' :: t) = [] := by
  have hempty := takeWhile_run (n := []) (by simp) ht
  rw [List.nil_append] at hempty
  simp [trailingAt, hempty]

/-- A text that is nothing but white space. -/
theorem isBlank_of_trimLeft_eq_nil {t : Text} (h : Text.trimLeft t = []) : ∀ c ∈ t, isBlank c = true :=
  List.dropWhile_eq_nil_iff.1 h

/-- Neither a name nor the white space behind it holds a dot. -/
theorem dot_not_mem {n gap : Text} (hn : ∀ c ∈ n, isIdentChar c = true) (hgap : ∀ c ∈ gap, isBlank c = true) : '.' ∉ n ++ gap := by
  intro h
  rcases List.mem_append.1 h with h | h
  · cases hn _ h
  · cases hgap _ h

/-- Of two texts, the second of which begins with no identifier character, the harvest finds what it finds in both, and the name
that the first one ends with if the second one begins with the end of its selector. -/
theorem styled_append_eq (t : Text) {v : Text} (hv : v.head?.any isIdentChar = false) :
    styled (t ++ v) = styled t ++ ((if closes v then trailing t else []) ++ styled v) := by
  induction t with
  | nil => simp [styled, trailing]
  | cons c t ih =>
    by_cases hc : c = '.'
    · subst hc
      obtain ⟨n, rest, rfl, hn, hrest⟩ : ∃ n rest, t = n ++ rest ∧ (∀ c ∈ n, isIdentChar c = true) ∧
          rest.head?.any isIdentChar = false :=
        ⟨_, _, List.takeWhile_append_dropWhile.symm, fun c hc => List.mem_takeWhile_imp hc, head?_dropWhile_run t⟩
      have hrest' : (rest ++ v).head?.any isIdentChar = false := by
        cases rest with
        | nil => exact hv
        | cons c rest => exact hrest
      rw [List.cons_append, styled, styled, trailing]
      by_cases hne : n = []
      · rw [hne, List.nil_append] at ih ⊢
        rw [styledAt_dot hrest, styledAt_dot hrest', trailingAt_dot hrest, ih]
        rfl
      · have hat : styledAt ('.' :: (n ++ rest)) = if closes rest then [n] else [] := styledAt_run hne hn hrest
        have hat' : styledAt ('.' :: (n ++ (rest ++ v))) = if closes (rest ++ v) then [n] else [] := styledAt_run hne hn hrest'
        rw [List.append_assoc, hat, hat', trailingAt_run hne hn hrest, ← List.append_assoc]
        by_cases hblank : Text.trimLeft rest = []
        · -- the name is the last thing of the text, and nothing behind its dot is harvested there
          have hdot := dot_not_mem hn (isBlank_of_trimLeft_eq_nil hblank)
          have hnone := styled_append hdot []
          have hopen : closes rest = false := by rw [closes, hblank]; rfl
          rw [List.append_nil] at hnone
          rw [styled_append hdot, hnone, trailing_of_not_mem hdot, if_pos hblank, closes_append_of_blank hblank, hopen]
          simp [styled]
        · rw [if_neg hblank, closes_append_of_ne hblank, ih, List.append_assoc]
          rfl
    · rw [List.cons_append, styled, styled, trailing, styledAt_of_ne_dot hc, styledAt_of_ne_dot hc, trailingAt_of_ne_dot hc, ih]
      rfl

/-- The classes at the end of a text are those that it ends with. -/
theorem mem_trailing_iff {t n : Text} : n ∈ trailing t ↔ EndsWith t n := by
  constructor
  · intro h
    induction t with
    | nil => cases h
    | cons c t ih =>
      rcases List.mem_append.1 h with h | h
      · by_cases hc : c = '.'
        · subst hc
          rw [trailingAt] at h
          split at h
          · next hat =>
            rw [List.mem_singleton.1 h]
            refine ⟨[], t.dropWhile isIdentChar, ?_, hat.1, fun c hc => List.mem_takeWhile_imp hc, isBlank_of_trimLeft_eq_nil hat.2⟩
            rw [List.takeWhile_append_dropWhile]
            rfl
          · cases h
        · rw [trailingAt_of_ne_dot hc] at h
          cases h
      · obtain ⟨u, gap, rfl, hn⟩ := ih h
        exact ⟨c :: u, gap, rfl, hn⟩
  · rintro ⟨u, gap, rfl, hne, hn, hgap⟩
    induction u with
    | nil =>
      have hhead : gap.head?.any isIdentChar = false := by
        cases gap with
        | nil => rfl
        | cons c gap => exact isIdentChar_of_isBlank (hgap c List.mem_cons_self)
      have htrim : Text.trimLeft gap = [] := List.dropWhile_eq_nil_iff.2 hgap
      rw [List.nil_append, trailing, trailingAt_run hne hn hhead, if_pos htrim]
      exact List.mem_append_left _ List.mem_cons_self
    | cons c u ih => exact List.mem_append_right _ ih

/-! ## Names that comments hide -/

/-- The names at the end of a stretch for which the selector ends behind a comment. -/
def hidden : List Text → List Text
  | [] => []
  | t :: ts => (if closes (spaced ts) then trailing t else []) ++ hidden ts

/-- A class at the end of a stretch is styled if what follows closes it. -/
theorem styled_spaced_cons (t : Text) (ts : List Text) :
    styled (spaced (t :: ts)) = styled t ++ ((if closes (spaced ts) then trailing t else []) ++ styled (spaced ts)) := by
  cases ts with
  | nil => simp [spaced, closes, Text.trimLeft, styled]
  | cons t' ts =>
    rw [spaced_cons (List.cons_ne_nil _ _), styled_append_eq t (by rfl)]
    rfl

/-- A blank in place of a comment hides no class. -/
theorem sublist_styled_spaced (ts : List Text) : (ts.flatMap styled).Sublist (styled (spaced ts)) := by
  induction ts with
  | nil => exact List.nil_sublist _
  | cons t ts ih =>
    rw [List.flatMap_cons, styled_spaced_cons]
    exact (List.Sublist.refl _).append (ih.trans (List.sublist_append_right _ _))

/-- The classes that blanks bring out are the hidden ones. -/
theorem perm_styled_spaced (ts : List Text) : (styled (spaced ts)).Perm (ts.flatMap styled ++ hidden ts) := by
  induction ts with
  | nil => exact .nil
  | cons t ts ih =>
    rw [List.flatMap_cons, styled_spaced_cons, hidden, List.append_assoc]
    refine List.Perm.append_left _ ?_
    exact (List.Perm.append_left _ ih).trans (List.perm_append_comm_assoc _ _ _)

/-- A hidden class is at the end of a stretch, and behind the comment its selector ends. -/
theorem mem_hidden_iff {ts : List Text} {n : Text} :
    n ∈ hidden ts ↔ ∃ us t vs, ts = us ++ t :: vs ∧ EndsWith t n ∧ closes (spaced vs) = true := by
  induction ts with
  | nil => simp [hidden]
  | cons t ts ih =>
    rw [hidden, List.mem_append, ih]
    constructor
    · rintro (h | ⟨us, t', vs, rfl, h⟩)
      · split at h
        · next hcloses => exact ⟨[], t, ts, rfl, mem_trailing_iff.1 h, hcloses⟩
        · cases h
      · exact ⟨t :: us, t', vs, rfl, h⟩
    · rintro ⟨us, t', vs, hts, hends, hcloses⟩
      cases us with
      | nil =>
        obtain ⟨rfl, rfl⟩ := List.cons.inj hts
        rw [if_pos hcloses]
        exact .inl (mem_trailing_iff.2 hends)
      | cons u us =>
        obtain ⟨rfl, rfl⟩ := List.cons.inj hts
        exact .inr ⟨us, t', vs, rfl, hends, hcloses⟩

/-- Between a class name and the end of its selector stands a comment, and with it nothing but comments and white space. -/
def Hides (css n : Text) : Prop :=
  ∃ s ∈ selectors (lexemes css), ∃ us t vs, stretches s = us ++ t :: vs ∧ EndsWith t n ∧ closes (spaced vs) = true

/-- Comments add no class name: without them the harvest finds the same names in the same order, and besides them exactly those
that a comment stands behind, before the end of the selector. So the comments of a stylesheet do not matter to the harvest exactly
when they hide no name in this way. -/
theorem classNames_uncommented (css : Text) :
    (classNames css).Sublist (classNames (uncommented css)) ∧
    (∃ ns, (classNames (uncommented css)).Perm (classNames css ++ ns) ∧ ∀ n, n ∈ ns ↔ Hides css n) ∧
    (classNames (uncommented css) = classNames css ↔ ∀ n, ¬Hides css n) := by
  have hmem (n : Text) : n ∈ ((selectors (lexemes css)).flatMap fun s => hidden (stretches s)) ↔ Hides css n := by
    rw [List.mem_flatMap]
    exact exists_congr fun s => and_congr_right fun _ => mem_hidden_iff
  have hsublist : (classNames css).Sublist (classNames (uncommented css)) := by
    rw [classNames_uncommented_eq, classNames_eq_stretches]
    exact List.Sublist.flatMap_right _ fun s _ => sublist_styled_spaced (stretches s)
  have hperm : (classNames (uncommented css)).Perm
      (classNames css ++ (selectors (lexemes css)).flatMap fun s => hidden (stretches s)) := by
    rw [classNames_uncommented_eq, classNames_eq_stretches]
    exact (List.Perm.flatMap_left _ fun s _ => perm_styled_spaced (stretches s)).trans (List.flatMap_append_perm _ _ _).symm
  refine ⟨hsublist, ⟨_, hperm, hmem⟩, ?_⟩
  have hlength := hperm.length_eq
  rw [List.length_append] at hlength
  constructor
  · intro hsame n hn
    have hpos := List.length_pos_of_mem ((hmem n).2 hn)
    rw [hsame] at hlength
    omega
  · intro hnone
    have hnil : ((selectors (lexemes css)).flatMap fun s => hidden (stretches s)) = [] :=
      List.eq_nil_iff_forall_not_mem.2 fun n hn => hnone n ((hmem n).1 hn)
    rw [hnil] at hlength
    exact (hsublist.eq_of_length hlength.symm).symm

/-- Comments before a selector, between its names and behind its comma hide nothing, one before its brace does. -/
example : uncommented "/*.x*/.a/**/ .b,/*y*/ .c/*z*/\x7b\x7d".toList = " .a  .b,  .c \x7b\x7d".toList ∧
    classNames "/*.x*/.a/**/ .b,/*y*/ .c/*z*/\x7b\x7d".toList = ["b".toList] ∧
    classNames " .a  .b,  .c \x7b\x7d".toList = ["b".toList, "c".toList] :=
  ⟨by decide +kernel, by decide, by decide⟩

/-- The comment behind a class name keeps the harvest from the brace that ends its selector. -/
theorem classNames_uncommented_false : ¬∀ css, classNames (uncommented css) = classNames css := by
  intro h
  have hsame := h ".a/* x */\x7b\x7d".toList
  have hblank : uncommented ".a/* x */\x7b\x7d".toList = ".a \x7b\x7d".toList := by decide +kernel
  rw [hblank] at hsame
  exact absurd hsame (by decide)

end Pseudonym.Stylesheet
