import Mathlib.Data.List.SplitBy
import Mathlib.Data.List.TakeWhile
import Pseudonym.Stylesheet.Prelude

/-!
# The selector preludes of a stylesheet, declared

A stylesheet is a list of comments, of quoted strings and of plain characters (`lexemes`). It falls into sections behind each plain
brace and semicolon, a section into stretches at its comments, and the preludes are the stretches of the sections that end in an
opening brace and are no at-rules (`selectorRanges`). The reader, which goes over the stylesheet once, finds the same ranges
(`preludeRanges_eq`). A backslash hides a character of a string here and not only its first byte: no later byte of a character is a
quote or a backslash.
-/

namespace Pseudonym.Stylesheet

/-! ## Lexemes -/

/-- The text through the first end of a comment, and what is behind it. -/
def splitComment : Text → Text × Text
  | [] => ([], [])
  | '*' :: '/' :: t => (['*', '/'], t)
  | c :: t => (c :: (splitComment t).1, (splitComment t).2)

/-- The text through the first quote that no backslash hides, and what is behind it. -/
def splitQuoted (quote : Char) : Text → Text × Text
  | [] => ([], [])
  | '\\' :: c :: t => ('\\' :: c :: (splitQuoted quote t).1, (splitQuoted quote t).2)
  | c :: t => if c = quote then ([c], t) else (c :: (splitQuoted quote t).1, (splitQuoted quote t).2)

/-- A text is split at the end of a comment. -/
theorem append_splitComment (t : Text) : (splitComment t).1 ++ (splitComment t).2 = t := by
  fun_induction splitComment t <;> simp_all

/-- A text is split at the end of a string. -/
theorem append_splitQuoted (quote : Char) (t : Text) : (splitQuoted quote t).1 ++ (splitQuoted quote t).2 = t := by
  fun_induction splitQuoted quote t <;> simp_all

/-- What is behind a comment is no longer than the text. -/
theorem length_splitComment_le (t : Text) : (splitComment t).2.length ≤ t.length := by
  conv_rhs => rw [← append_splitComment t, List.length_append]
  exact Nat.le_add_left _ _

/-- What is behind a string is no longer than the text. -/
theorem length_splitQuoted_le (quote : Char) (t : Text) : (splitQuoted quote t).2.length ≤ t.length := by
  conv_rhs => rw [← append_splitQuoted quote t, List.length_append]
  exact Nat.le_add_left _ _

/-- A comment and a quoted string, by what follows their beginning, or a character outside both. -/
inductive Lexeme where
  | comment (rest : Text)
  | quoted (quote : Char) (rest : Text)
  | plain (c : Char)
  deriving DecidableEq, Repr

namespace Lexeme

/-- The characters of a lexeme. -/
def text : Lexeme → Text
  | comment rest => '/' :: '*' :: rest
  | quoted quote rest => quote :: rest
  | plain c => [c]

/-- The text of lexemes in order. -/
def join (xs : List Lexeme) : Text := xs.flatMap text

@[simp] theorem join_nil : join [] = [] := rfl

@[simp] theorem join_cons (x : Lexeme) (xs : List Lexeme) : join (x :: xs) = x.text ++ join xs := rfl

@[simp] theorem join_append (xs ys : List Lexeme) : join (xs ++ ys) = join xs ++ join ys := List.flatMap_append

/-- No lexeme is empty. -/
theorem join_eq_nil_iff {xs : List Lexeme} : join xs = [] ↔ xs = [] := by
  cases xs with
  | nil => simp
  | cons x xs => cases x <;> simp [text]

/-- Does a lexeme end a section? -/
def isEnd : Lexeme → Bool
  | plain c => c = '{' || c = '}' || c = ';'
  | _ => false

/-- Is a lexeme a comment? -/
def isComment : Lexeme → Bool
  | comment _ => true
  | _ => false

/-- Only a comment is one. -/
theorem isComment_iff {x : Lexeme} : x.isComment = true ↔ ∃ rest, x = comment rest := by
  cases x <;> simp [isComment]

end Lexeme

/-- A stylesheet from left to right. -/
def lexemes : Text → List Lexeme
  | [] => []
  | '/' :: '*' :: t => .comment (splitComment t).1 :: lexemes (splitComment t).2
  | c :: t =>
    if c = '"' ∨ c = '\'' then .quoted c (splitQuoted c t).1 :: lexemes (splitQuoted c t).2 else .plain c :: lexemes t
termination_by t => t.length
decreasing_by
  · have := length_splitComment_le t
    simp only [List.length_cons]
    omega
  · have := length_splitQuoted_le c t
    simp only [List.length_cons]
    omega
  · simp

/-- The lexemes of a stylesheet lose nothing. -/
theorem join_lexemes (t : Text) : Lexeme.join (lexemes t) = t := by
  fun_induction lexemes t with
  | case1 => rfl
  | case2 t ih => simp [Lexeme.text, ih, append_splitComment]
  | case3 c t _ _ ih => simp [Lexeme.text, ih, append_splitQuoted]
  | case4 c t _ _ ih => simp [Lexeme.text, ih]

/-! ## Ranges -/

/-- A lexeme, and the byte at which it begins. -/
structure Placed where
  start : Nat
  lexeme : Lexeme
  deriving DecidableEq, Repr

/-- The byte behind a lexeme. -/
def Placed.stop (x : Placed) : Nat := x.start + x.lexeme.text.utf8Size

/-- Lexemes in their places, the first of which is given. -/
def placed : Nat → List Lexeme → List Placed
  | _, [] => []
  | n, x :: xs => ⟨n, x⟩ :: placed (n + x.text.utf8Size) xs

/-- The sections: cut behind each plain brace and semicolon. -/
def sections (xs : List Placed) : List (List Placed) := xs.splitBy fun x _ => !x.lexeme.isEnd

/-- Does a section end in an opening brace, and is its first character outside comments, white space aside, no at sign? -/
def isSelector (s : List Placed) : Bool :=
  s.getLast?.map Placed.lexeme == some (.plain '{') &&
    ((s.filter (!·.lexeme.isComment)).flatMap (·.lexeme.text)).find? (!isBlank ·) != some '@'

/-- From the begin of the first lexeme to the end of the last one, if there are any. -/
def range? (xs : List Placed) : Option (Nat × Nat) := do
  let first ← xs.head?
  let last ← xs.getLast?
  return (first.start, last.stop)

/-- The ranges of the stretches without a comment. -/
def stretchRanges (s : List Placed) : List (Nat × Nat) := (s.splitOnP (·.lexeme.isComment)).filterMap range?

/-- Where the selectors of a stylesheet lie, comments apart. -/
def selectorRanges (css : Text) : List (Nat × Nat) :=
  ((sections (placed 0 (lexemes css))).filter isSelector).flatMap stretchRanges

/-! ## The reader by its lexemes -/

namespace Section

/-- One lexeme more. -/
def take (s : Section) : Lexeme → Section
  | .comment rest => ((Lexeme.comment rest).text.foldl push s.endPrelude).endComment
  | x => x.text.foldl push s

end Section

/-- A comment is read to its end at once. -/
theorem readFrom_comment (s : Section) (t : Text) :
    readFrom .comment s t = readFrom .plain ((splitComment t).1.foldl Section.push s).endComment (splitComment t).2 := by
  fun_induction splitComment t generalizing s with
  | case1 => rfl
  | case2 t => simp [readFrom]
  | case3 c t hne ih => simp_all [readFrom]

/-- A string is read to its end at once. -/
theorem readFrom_quoted (q : Char) (s : Section) (t : Text) :
    readFrom (.quoted q) s t = readFrom .plain ((splitQuoted q t).1.foldl Section.push s) (splitQuoted q t).2 := by
  fun_induction splitQuoted q t generalizing s with
  | case1 => rfl
  | case2 c t ih => simp [readFrom, ih]
  | case3 t hne => simp_all [readFrom]
  | case4 c t hne h ih => simp_all [readFrom]

/-- Reads on from within a section, lexeme by lexeme. -/
def readLexemes : Section → List Lexeme → List Segment
  | s, [] => s.dismissed
  | s, x :: xs =>
    if x = .plain '{' then (s.take x).opened ++ readLexemes {} xs
    else if x.isEnd then (s.take x).dismissed ++ readLexemes {} xs
    else readLexemes (s.take x) xs

/-- The reader goes on with the section that it is in. -/
theorem readLexemes_of_not_isEnd {s : Section} {x : Lexeme} (hx : x.isEnd = false) (xs : List Lexeme) :
    readLexemes s (x :: xs) = readLexemes (s.take x) xs := by
  have hopen : x ≠ .plain '{' := by
    rintro rfl
    cases hx
  rw [readLexemes, if_neg hopen, hx]
  rfl

/-- To read a stylesheet by characters is to read it by lexemes. -/
theorem readFrom_lexemes (s : Section) (t : Text) : readFrom .plain s t = readLexemes s (lexemes t) := by
  fun_induction lexemes t generalizing s with
  | case1 => rfl
  | case2 t ih => simp [readFrom, readLexemes, readFrom_comment, ih, Section.take, Lexeme.text, Lexeme.isEnd]
  | case3 c t hne h ih =>
    have hc : c ≠ '{' ∧ ¬(c = '}' ∨ c = ';') := by
      rcases h with rfl | rfl <;> decide
    rw [readFrom, if_neg hc.1, if_neg hc.2, if_pos h, readFrom_quoted, ih]
    · rfl
    · exact hne
  | case4 c t hne h ih =>
    have htake : s.take (.plain c) = s.push c := rfl
    rw [readFrom, readLexemes, if_neg h, htake, ih, ih]
    · by_cases hopen : c = '{' <;> simp [hopen, Lexeme.isEnd]
    · exact hne

/-! ## The segments of a section -/

/-- Lexemes behind others begin where those end. -/
theorem placed_append (n : Nat) (xs ys : List Lexeme) :
    placed n (xs ++ ys) = placed n xs ++ placed (n + (Lexeme.join xs).utf8Size) ys := by
  induction xs generalizing n with
  | nil => rfl
  | cons x xs ih => simp [placed, ih, Nat.add_assoc]

/-- Lexemes in their places are the lexemes. -/
theorem lexeme_mem_of_mem_placed {n : Nat} {xs : List Lexeme} {x : Placed} (h : x ∈ placed n xs) : x.lexeme ∈ xs := by
  induction xs generalizing n with
  | nil => cases h
  | cons y xs ih =>
    rcases List.mem_cons.1 h with rfl | h
    · exact List.mem_cons_self
    · exact List.mem_cons_of_mem _ (ih h)

/-- Segments behind others begin where those end. -/
theorem rangesFrom_append (n : Nat) (ss ts : List Segment) :
    rangesFrom n (ss ++ ts) = rangesFrom n ss ++ rangesFrom (n + (Segment.join ss).utf8Size) ts := by
  induction ss generalizing n with
  | nil => rfl
  | cons s ss ih => cases s <;> simp [rangesFrom, ih, Nat.add_assoc]

/-- Stretches without a comment have one range, if any. -/
theorem range?_placed (n : Nat) (xs : List Lexeme) :
    range? (placed n xs) = if xs = [] then none else some (n, n + (Lexeme.join xs).utf8Size) := by
  rcases List.eq_nil_or_concat xs with rfl | ⟨ys, x, rfl⟩
  · rfl
  · have hfirst : (placed n (ys ++ [x])).head?.map Placed.start = some n := by
      cases ys <;> rfl
    obtain ⟨first, hhead, rfl⟩ := Option.map_eq_some_iff.1 hfirst
    rw [List.concat_eq_append, if_neg (by simp), range?, hhead]
    simp [placed_append, placed, Placed.stop, Nat.add_assoc]

/-- Where no comment is, there is one stretch. -/
theorem stretchRanges_of_plain {xs : List Placed} (hxs : ∀ x ∈ xs, x.lexeme.isComment = false) :
    stretchRanges xs = [xs].filterMap range? := by
  rw [stretchRanges, List.splitOnP_eq_singleton hxs]

/-- The first comment ends the first stretch. -/
theorem stretchRanges_append_cons {xs rest : List Placed} {x : Placed} (hxs : ∀ x ∈ xs, x.lexeme.isComment = false)
    (hx : x.lexeme.isComment = true) : stretchRanges (xs ++ x :: rest) = [xs].filterMap range? ++ stretchRanges rest := by
  rw [stretchRanges, stretchRanges, List.splitOnP_append_cons_of_forall_mem hxs _ hx, ← List.filterMap_append,
    List.singleton_append]

namespace Section

/-- Characters that are pushed one by one are pushed as a text. -/
theorem foldl_push (s : Section) (t : Text) : t.foldl push s = { s with current := t.reverse ++ s.current } := by
  induction t generalizing s with
  | nil => rfl
  | cons c t ih => simp [ih, push]

/-- A lexeme that is no comment is pushed as a text. -/
theorem take_of_not_isComment {s : Section} {x : Lexeme} (h : x.isComment = false) :
    s.take x = { s with current := x.text.reverse ++ s.current } := by
  cases x with
  | comment rest => cases h
  | quoted quote rest => exact foldl_push s _
  | plain c => exact foldl_push s _

/-- A comment ends the prelude before it and is a segment of its own. -/
theorem take_comment (s : Section) (rest : Text) :
    s.take (.comment rest) = { segments := .other (Lexeme.comment rest).text :: s.endPrelude.segments } := by
  simp [take, endComment, foldl_push]

/-- The ranges of a section whose characters since its last segment are those of given lexemes. -/
theorem rangesFrom_endPrelude {s : Section} {ys : List Lexeme} (hys : s.current.reverse = Lexeme.join ys) (n : Nat) :
    rangesFrom n s.endPrelude.segments.reverse = rangesFrom n s.segments.reverse ++
      [placed (n + (Segment.join s.segments.reverse).utf8Size) ys].filterMap range? := by
  have hnil : s.current = [] ↔ ys = [] := by
    rw [← List.reverse_eq_nil_iff, hys, Lexeme.join_eq_nil_iff]
  by_cases h : ys = []
  · have hs : s.endPrelude = s := by simp [endPrelude, hnil.2 h]
    simp [hs, range?_placed, h]
  · have hs : s.endPrelude = { segments := .prelude s.current.reverse :: s.segments } := by simp [endPrelude, mt hnil.1 h]
    simp [hs, range?_placed, h, rangesFrom_append, rangesFrom, hys]

/-- The ranges of a section's segments are those of the stretches between its comments. -/
theorem rangesFrom_foldl_take {s : Section} (ys : List Lexeme) (hys : s.current.reverse = Lexeme.join ys)
    (hplain : ∀ y ∈ ys, y.isComment = false) (xs : List Lexeme) (n : Nat) :
    rangesFrom n (xs.foldl take s).endPrelude.segments.reverse = rangesFrom n s.segments.reverse ++
      stretchRanges (placed (n + (Segment.join s.segments.reverse).utf8Size) (ys ++ xs)) := by
  have hplaced (m : Nat) {ys : List Lexeme} (hplain : ∀ y ∈ ys, y.isComment = false) :
      ∀ x ∈ placed m ys, x.lexeme.isComment = false :=
    fun x hx => hplain _ (lexeme_mem_of_mem_placed hx)
  induction xs generalizing s ys with
  | nil => rw [List.append_nil, stretchRanges_of_plain (hplaced _ hplain), List.foldl_nil, rangesFrom_endPrelude hys]
  | cons x xs ih =>
    cases hx : x.isComment with
    | true =>
      obtain ⟨rest, rfl⟩ := Lexeme.isComment_iff.1 hx
      have hjoin : Segment.join s.endPrelude.segments.reverse = Segment.join s.segments.reverse ++ Lexeme.join ys := by
        rw [join_reverse_segments s.current_endPrelude, text_endPrelude, text, hys]
      rw [List.foldl_cons, ih (s := s.take (.comment rest)) [] (by simp [take_comment]) (by simp), take_comment,
        List.nil_append, placed_append, placed, stretchRanges_append_cons (hplaced _ hplain) (by exact hx), ← List.append_assoc,
        ← rangesFrom_endPrelude hys]
      simp [rangesFrom_append, rangesFrom, hjoin, Nat.add_assoc]
    | false =>
      have htake := take_of_not_isComment (s := s) hx
      have hplain' : ∀ y ∈ ys ++ [x], y.isComment = false := by
        simpa [or_imp, forall_and] using ⟨hplain, hx⟩
      rw [List.foldl_cons, ih (s := s.take x) (ys ++ [x]) (by simp [htake, hys]) hplain', htake, List.append_assoc]
      rfl

/-- A lexeme that is taken comes at the end of what has been read. -/
theorem text_take (s : Section) (x : Lexeme) : (s.take x).text = s.text ++ x.text := by
  cases hx : x.isComment with
  | true =>
    obtain ⟨rest, rfl⟩ := Lexeme.isComment_iff.1 hx
    have hjoin : Segment.join s.endPrelude.segments.reverse = s.text := by
      rw [join_reverse_segments s.current_endPrelude, text_endPrelude]
    rw [take_comment, text, List.reverse_cons, Segment.join_append, hjoin]
    simp
  | false => simp [take_of_not_isComment hx, text]

/-- Lexemes that are taken come at the end of what has been read. -/
theorem text_foldl_take (s : Section) (xs : List Lexeme) : (xs.foldl take s).text = s.text ++ Lexeme.join xs := by
  induction xs generalizing s with
  | nil => simp
  | cons x xs ih => rw [List.foldl_cons, ih, text_take, List.append_assoc, Lexeme.join_cons]

/-- Segments that are demoted have no range. -/
theorem rangesFrom_demoted (n : Nat) (ss : List Segment) : rangesFrom n (ss.map Segment.demoted) = [] := by
  induction ss generalizing n with
  | nil => rfl
  | cons s ss ih => exact ih _

/-- The end of a stretch adds what there is in the stretch as a prelude, if there is nothing in an empty one. -/
theorem flatMap_segments_endPrelude {α : Type} {f : Segment → List α} (hf : f (.prelude []) = []) (s : Section) :
    s.endPrelude.segments.reverse.flatMap f = s.segments.reverse.flatMap f ++ f (.prelude s.current.reverse) := by
  unfold endPrelude
  split
  · next h => rw [List.isEmpty_iff.1 h, List.reverse_nil, hf, List.append_nil]
  · rw [List.reverse_cons, List.flatMap_append, List.flatMap_singleton]

/-- The text of a section outside its comments. -/
def outside (s : Section) : Text := s.segments.reverse.flatMap Segment.selectorText ++ s.current.reverse

/-- To end a prelude leaves the text outside comments as it is. -/
theorem outside_endPrelude (s : Section) : s.endPrelude.outside = s.outside := by
  rw [outside, flatMap_segments_endPrelude rfl, current_endPrelude, List.reverse_nil, List.append_nil]
  rfl

/-- Outside comments a lexeme that is taken comes at the end, unless it is one. -/
theorem outside_take (s : Section) (x : Lexeme) : (s.take x).outside = s.outside ++ Lexeme.join ([x].filter (!·.isComment)) := by
  cases hx : x.isComment with
  | true =>
    obtain ⟨rest, rfl⟩ := Lexeme.isComment_iff.1 hx
    have := outside_endPrelude s
    simp [outside] at this
    simp [take_comment, outside, Segment.selectorText, hx, this]
  | false => simp [take_of_not_isComment hx, outside, hx]

/-- Outside comments the lexemes that are taken come at the end, without those that are comments. -/
theorem outside_foldl_take (s : Section) (xs : List Lexeme) :
    (xs.foldl take s).outside = s.outside ++ Lexeme.join (xs.filter (!·.isComment)) := by
  induction xs generalizing s with
  | nil => simp
  | cons x xs ih =>
    rw [List.foldl_cons, ih, outside_take, List.append_assoc, ← Lexeme.join_append, ← List.filter_append, List.singleton_append]

end Section

/-- The places of lexemes make no difference to their text. -/
theorem join_filter_placed (n : Nat) (xs : List Lexeme) :
    ((placed n xs).filter (!·.lexeme.isComment)).flatMap (·.lexeme.text) = Lexeme.join (xs.filter (!·.isComment)) := by
  induction xs generalizing n with
  | nil => rfl
  | cons x xs ih => cases hx : x.isComment <;> simp [placed, hx, ih]

/-- The places of lexemes make no difference to which is the last. -/
theorem getLast?_placed (n : Nat) (xs : List Lexeme) : (placed n xs).getLast?.map Placed.lexeme = xs.getLast? := by
  rcases List.eq_nil_or_concat xs with rfl | ⟨ys, x, rfl⟩
  · rfl
  · simp [placed_append, placed]

/-- The reader takes a section that ends in an opening brace for a selector unless it takes it for an at-rule. -/
theorem isSelector_placed {xs : List Lexeme} (hopen : xs.getLast? = some (.plain '{')) (n : Nat) :
    isSelector (placed n xs) = !(xs.foldl Section.take {}).endPrelude.isAtRule := by
  have hat : (xs.foldl Section.take {}).endPrelude.isAtRule =
      ((Lexeme.join (xs.filter (!·.isComment))).find? (!isBlank ·) == some '@') := by
    have houtside := Section.outside_endPrelude (xs.foldl Section.take {})
    rw [Section.outside_foldl_take, Section.outside, Section.current_endPrelude] at houtside
    rw [List.reverse_nil, List.append_nil] at houtside
    rw [Section.isAtRule, houtside, Text.trimLeft, List.find?_not_eq_head?_dropWhile]
    rfl
  rw [isSelector, getLast?_placed, hopen, join_filter_placed, hat]
  simp
  rfl

/-- What the reader makes of a section that ends in an opening brace. -/
theorem rangesFrom_opened {xs : List Lexeme} (hopen : xs.getLast? = some (.plain '{')) (n : Nat) :
    rangesFrom n (xs.foldl Section.take {}).opened = if isSelector (placed n xs) then stretchRanges (placed n xs) else [] := by
  rw [isSelector_placed hopen, Section.opened]
  cases (xs.foldl Section.take {}).endPrelude.isAtRule with
  | true => exact Section.rangesFrom_demoted n _
  | false => exact Section.rangesFrom_foldl_take (s := {}) [] rfl (by simp) xs n

/-! ## The sections of a stylesheet -/

/-- A list that is cut behind each end is cut behind the first one, and then as what follows is. -/
theorem splitBy_append_cons {α : Type} {p : α → Bool} {ys rest : List α} {x : α} (hys : ∀ y ∈ ys, p y = false)
    (hx : p x = true) : (ys ++ x :: rest).splitBy (fun a _ => !p a) = (ys ++ [x]) :: rest.splitBy fun a _ => !p a := by
  have hchain : (ys ++ [x]).IsChain fun y _ => (!p y) = true := by
    refine List.Pairwise.isChain (List.pairwise_append.2 ⟨?_, List.pairwise_singleton _ _, ?_⟩)
    · exact List.pairwise_of_forall_mem_list fun y hy _ _ => by simp [hys y hy]
    · exact fun y hy _ _ => by simp [hys y hy]
  rw [List.append_cons, List.splitBy_append (by simp [hx]), List.splitBy_of_isChain (by simp) hchain]
  rfl

/-- Behind the first end of a section the next one begins. -/
theorem sections_append_cons {ys rest : List Placed} {x : Placed} (hys : ∀ y ∈ ys, y.lexeme.isEnd = false)
    (hx : x.lexeme.isEnd = true) : sections (ys ++ x :: rest) = (ys ++ [x]) :: sections rest :=
  splitBy_append_cons hys hx

/-- A section without an opening brace is no selector. -/
theorem isSelector_eq_false {s : List Placed} (hs : s.getLast?.map Placed.lexeme ≠ some (.plain '{')) : isSelector s = false := by
  rw [isSelector, beq_eq_false_iff_ne.2 hs, Bool.false_and]

/-- A section that nothing ends is no selector. -/
theorem filter_sections_of_not_isEnd {ys : List Placed} (hys : ∀ y ∈ ys, y.lexeme.isEnd = false) :
    (sections ys).filter isSelector = [] := by
  refine List.filter_eq_nil_iff.2 fun s hs => ?_
  rw [Bool.not_eq_true]
  refine isSelector_eq_false fun hopen => ?_
  obtain ⟨y, hlast, hy⟩ := Option.map_eq_some_iff.1 hopen
  have hmem : y ∈ (sections ys).flatten := List.mem_flatten.2 ⟨s, hs, List.mem_of_getLast? hlast⟩
  rw [sections, List.flatten_splitBy] at hmem
  have := hys y hmem
  rw [hy] at this
  cases this

/-- What the reader finds, with the lexemes of the section that it is in. -/
theorem rangesFrom_readLexemes (ys : List Lexeme) (hys : ∀ y ∈ ys, y.isEnd = false) (xs : List Lexeme) (n : Nat) :
    rangesFrom n (readLexemes (ys.foldl Section.take {}) xs) =
      ((sections (placed n (ys ++ xs))).filter isSelector).flatMap stretchRanges := by
  have hplaced (m : Nat) {ys : List Lexeme} (hys : ∀ y ∈ ys, y.isEnd = false) : ∀ y ∈ placed m ys, y.lexeme.isEnd = false :=
    fun y hy => hys _ (lexeme_mem_of_mem_placed hy)
  induction xs generalizing ys n with
  | nil =>
    rw [List.append_nil, filter_sections_of_not_isEnd (hplaced n hys)]
    exact Section.rangesFrom_demoted n _
  | cons x xs ih =>
    have htake : (ys.foldl Section.take {}).take x = (ys ++ [x]).foldl Section.take {} := by simp
    cases hx : x.isEnd with
    | true =>
      have hsections : sections (placed n (ys ++ x :: xs)) =
          placed n (ys ++ [x]) :: sections (placed (n + (Lexeme.join (ys ++ [x])).utf8Size) ([] ++ xs)) := by
        rw [placed_append, placed, sections_append_cons (hplaced n hys) (by exact hx)]
        simp [placed_append, placed, Nat.add_assoc]
      have hrest := ih [] (by simp) (n + (Lexeme.join (ys ++ [x])).utf8Size)
      rw [hsections, readLexemes, htake]
      by_cases hopen : x = .plain '{'
      · have hlast : (ys ++ [x]).getLast? = some (.plain '{') := by simp [hopen]
        rw [if_pos hopen, rangesFrom_append, rangesFrom_opened hlast, Section.join_opened, Section.text_foldl_take]
        rw [List.foldl_nil] at hrest
        cases hselector : isSelector (placed n (ys ++ [x])) <;> simp [hselector, hrest, -Lexeme.join_append]
      · have hselector : isSelector (placed n (ys ++ [x])) = false := by
          refine isSelector_eq_false ?_
          rw [getLast?_placed]
          simpa using hopen
        rw [if_neg hopen, if_pos hx, rangesFrom_append, Section.join_dismissed, Section.text_foldl_take,
          List.filter_cons_of_neg (by simp [hselector]), ← hrest]
        exact congrArg (· ++ _) (Section.rangesFrom_demoted n _)
    | false =>
      rw [readLexemes_of_not_isEnd hx, htake, ih, List.append_assoc, List.singleton_append]
      simpa [or_imp, forall_and] using ⟨hys, hx⟩

/-- The ranges that the reader finds are those of the selectors. -/
theorem preludeRanges_eq (css : Text) : Lexeme.join (lexemes css) = css ∧ preludeRanges css = selectorRanges css := by
  refine ⟨join_lexemes css, ?_⟩
  rw [preludeRanges, segments, readFrom_lexemes]
  exact rangesFrom_readLexemes [] (by simp) (lexemes css) 0

/-- A comment parts a selector, a string hides its braces, and neither an at-rule nor an unfinished section is a selector. -/
example : selectorRanges "a/*\x7b*/b\x7b\x7d@m \x7b[t='\x7b']\x7bc".toList = [(0, 1), (6, 8), (13, 21)] := by cbv

end Pseudonym.Stylesheet
