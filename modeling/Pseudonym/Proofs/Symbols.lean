import Pseudonym.Stylesheet.Prelude

/-!
# Stylesheets read by symbols

A symbol is a character, or a word: a run of identifier characters, or of characters of file names, that is read as one. No
character of a word means anything to the reader of selector preludes, so a stylesheet that is written with symbols is read in
the same way whatever the words are: `readSymbols` reads the symbols themselves, and whichever words are written for them, the
segments of the text are what is written for the segments of the symbols (`readFrom_flatten`). That is why an exchange of class
names, or of file names, moves no comment, no string and no end of a section.
-/

namespace Pseudonym.Stylesheet

/-- Characters that mean nothing to the reader of selector preludes: some of those that file names are made of. -/
class Neutral (ok : Char → Bool) : Prop where
  isFileNameChar : ∀ c, ok c = true → isFileNameChar c = true

instance : Neutral isIdentChar := ⟨fun _ => isFileNameChar_of_isIdentChar⟩

instance : Neutral isFileNameChar := ⟨fun _ h => h⟩

/-- A run of neutral characters, of identifier characters where nothing else is said. -/
structure Word (ok : Char → Bool := isIdentChar) where
  text : Text
  nonempty : text ≠ []
  chars : ∀ c ∈ text, ok c = true
  deriving DecidableEq

/-- A character of a stylesheet, or a word of it. -/
inductive Symbol (ok : Char → Bool := isIdentChar) where
  | char (c : Char)
  | word (w : Word ok)
  deriving DecidableEq

section

variable {ok : Char → Bool}

namespace Symbol

/-- The characters of a symbol, with other words written for the words. -/
def flat (f : Word ok → Word ok) : Symbol ok → Text
  | .char c => [c]
  | .word w => (f w).text

/-- White space is no word. -/
def isBlank : Symbol ok → Bool
  | .char c => Pseudonym.isBlank c
  | .word _ => false

end Symbol

/-- The text that symbols are written as. -/
def flatten (f : Word ok → Word ok) (l : List (Symbol ok)) : Text := l.flatMap (Symbol.flat f)

end

/-- A segment of symbols. -/
inductive Stretch (ok : Char → Bool := isIdentChar) where
  | prelude (l : List (Symbol ok))
  | other (l : List (Symbol ok))

/-- A section that is read by symbols: its segments, and the symbols since the last of them, latest first in both. -/
structure Draft (ok : Char → Bool := isIdentChar) where
  stretches : List (Stretch ok) := []
  current : List (Symbol ok) := []

section

variable {ok : Char → Bool}

namespace Stretch

/-- The symbols of a segment. -/
def symbols : Stretch ok → List (Symbol ok)
  | .prelude l => l
  | .other l => l

/-- The segment that it is written as. -/
def flat (f : Word ok → Word ok) : Stretch ok → Segment
  | .prelude l => .prelude (flatten f l)
  | .other l => .other (flatten f l)

/-- A segment that turned out to belong to no selector. -/
def demoted (s : Stretch ok) : Stretch ok := .other s.symbols

/-- The symbols of a prelude, nothing for another segment. -/
def selector : Stretch ok → List (Symbol ok)
  | .prelude l => l
  | .other _ => []

end Stretch

namespace Draft

/-- The section that it is written as. -/
def flat (f : Word ok → Word ok) (d : Draft ok) : Section where
  segments := d.stretches.map (Stretch.flat f)
  current := (flatten f d.current.reverse).reverse

/-- The symbols of a section, in order. -/
def symbols (d : Draft ok) : List (Symbol ok) := d.stretches.reverse.flatMap Stretch.symbols ++ d.current.reverse

/-- One symbol more. -/
def push (d : Draft ok) (x : Symbol ok) : Draft ok := { d with current := x :: d.current }

/-- The end of a stretch outside comments. -/
def endPrelude (d : Draft ok) : Draft ok :=
  if d.current.isEmpty then d else { stretches := .prelude d.current.reverse :: d.stretches }

/-- The end of a comment. -/
def endComment (d : Draft ok) : Draft ok := { stretches := .other d.current.reverse :: d.stretches }

/-- Do the symbols outside comments begin with an at sign, white space aside? -/
def isAtRule (d : Draft ok) : Bool :=
  ((d.stretches.reverse.flatMap Stretch.selector).dropWhile Symbol.isBlank).head? == some (.char '@')

/-- The segments of a section that no opening brace ends. -/
def dismissed (d : Draft ok) : List (Stretch ok) := d.endPrelude.stretches.reverse.map Stretch.demoted

/-- The segments of a section that an opening brace ends. -/
def opened (d : Draft ok) : List (Stretch ok) :=
  let d := d.endPrelude
  if d.isAtRule then d.dismissed else d.stretches.reverse

end Draft

/-- Reads on from within a section, symbol by symbol: a word is read as any character without a meaning. -/
def readSymbols : Mode → Draft ok → List (Symbol ok) → List (Stretch ok)
  | .comment, d, [] => d.endComment.dismissed
  | _, d, [] => d.dismissed
  | .plain, d, .char '/' :: .char '*' :: l => readSymbols .comment ((d.endPrelude.push (.char '/')).push (.char '*')) l
  | .plain, d, .char c :: l =>
    if c = '{' then (d.push (.char c)).opened ++ readSymbols .plain {} l
    else if c = '}' ∨ c = ';' then (d.push (.char c)).dismissed ++ readSymbols .plain {} l
    else if c = '"' ∨ c = '\'' then readSymbols (.quoted c) (d.push (.char c)) l
    else readSymbols .plain (d.push (.char c)) l
  | .plain, d, .word w :: l => readSymbols .plain (d.push (.word w)) l
  | .comment, d, .char '*' :: .char '/' :: l => readSymbols .plain ((d.push (.char '*')).push (.char '/')).endComment l
  | .comment, d, x :: l => readSymbols .comment (d.push x) l
  | .quoted q, d, .char '\\' :: x :: l => readSymbols (.quoted q) ((d.push (.char '\\')).push x) l
  | .quoted q, d, .char c :: l => readSymbols (if c = q then .plain else .quoted q) (d.push (.char c)) l
  | .quoted q, d, .word w :: l => readSymbols (.quoted q) (d.push (.word w)) l

end

/-! ## The characters of words -/

/-- Identifier characters are ASCII characters, from the hyphen to the small letters. -/
theorem toNat_of_isIdentChar {c : Char} (h : isIdentChar c = true) : 45 ≤ c.toNat ∧ c.toNat ≤ 122 := by
  have hbetween {a b : UInt32} (ha : a ≤ c.val) (hb : c.val ≤ b) (ha' : 45 ≤ a.toNat) (hb' : b.toNat ≤ 122) :
      45 ≤ c.toNat ∧ c.toNat ≤ 122 :=
    ⟨Nat.le_trans ha' (UInt32.le_iff_toNat_le.1 ha), Nat.le_trans (UInt32.le_iff_toNat_le.1 hb) hb'⟩
  change (decide ('A'.val ≤ c.val ∧ c.val ≤ 'Z'.val) || (decide ('a'.val ≤ c.val) && decide (c.val ≤ 'z'.val)) ||
    (decide ('0'.val ≤ c.val) && decide (c.val ≤ '9'.val)) || c == '_' || c == '-') = true at h
  simp only [Bool.or_eq_true, Bool.and_eq_true, decide_eq_true_eq, beq_iff_eq] at h
  rcases h with (((h | h) | h) | rfl) | rfl
  · exact hbetween h.1 h.2 (by decide) (by decide)
  · exact hbetween h.1 h.2 (by decide) (by decide)
  · exact hbetween h.1 h.2 (by decide) (by decide)
  · decide
  · decide

theorem isBlank_of_isFileNameChar {c : Char} (h : isFileNameChar c = true) : isBlank c = false := by
  rcases Bool.or_eq_true _ _ ▸ h with hident | hdot
  · have hn := toNat_of_isIdentChar hident
    simp only [isBlank, Bool.or_eq_false_iff, Bool.and_eq_false_iff, decide_eq_false_iff_not, beq_eq_false_iff_ne]
    omega
  · rw [beq_iff_eq.1 hdot]
    rfl

theorem isIdentChar_of_isBlank {c : Char} (h : isBlank c = true) : isIdentChar c = false := by
  refine Bool.eq_false_iff.2 fun hident => ?_
  rw [isBlank_of_isFileNameChar (isFileNameChar_of_isIdentChar hident)] at h
  cases h

/-- A character that no file name holds is none of a word. -/
theorem ne_of_isFileNameChar {c d : Char} (h : isFileNameChar c = true) (hd : isFileNameChar d = false) : c ≠ d := by
  rintro rfl
  rw [h] at hd
  cases hd

theorem Word.text_eq_cons {ok : Char → Bool} (w : Word ok) : ∃ c t, w.text = c :: t ∧ ok c = true ∧ ∀ d ∈ t, ok d = true := by
  obtain ⟨t, hne, hc⟩ := w
  cases t with
  | nil => exact absurd rfl hne
  | cons c t => exact ⟨c, t, rfl, hc c List.mem_cons_self, fun d hd => hc d (List.mem_cons_of_mem _ hd)⟩

/-! ## What symbols are written as -/

section Flatten

variable {ok : Char → Bool} {f : Word ok → Word ok}

@[simp] theorem flatten_nil : flatten f [] = [] := rfl

@[simp] theorem flatten_char (c : Char) (l : List (Symbol ok)) : flatten f (.char c :: l) = c :: flatten f l := rfl

@[simp] theorem flatten_word (w : Word ok) (l : List (Symbol ok)) : flatten f (.word w :: l) = (f w).text ++ flatten f l := rfl

/-- Symbols behind others are written behind those. -/
@[simp] theorem flatten_append (k l : List (Symbol ok)) : flatten f (k ++ l) = flatten f k ++ flatten f l := by
  simp [flatten]

theorem flatten_chars (t : Text) : flatten f (t.map Symbol.char) = t := by
  induction t with
  | nil => rfl
  | cons c t ih => rw [List.map_cons, flatten_char, ih]

theorem Symbol.flat_ne_nil (x : Symbol ok) : x.flat f ≠ [] := by
  cases x with
  | char c => exact List.cons_ne_nil _ _
  | word w => exact (f w).nonempty

theorem flatten_eq_nil {l : List (Symbol ok)} : flatten f l = [] ↔ l = [] := by
  cases l with
  | nil => simp
  | cons x l => simpa [flatten] using fun h => absurd h x.flat_ne_nil

/-- A character that begins no word is a symbol of its own. -/
theorem flatten_eq_cons [Neutral ok] {c : Char} (hc : isFileNameChar c = false) {l : List (Symbol ok)} {t : Text}
    (h : flatten f l = c :: t) : ∃ k, l = .char c :: k ∧ flatten f k = t := by
  cases l with
  | nil => cases h
  | cons x l =>
    cases x with
    | char d =>
      obtain ⟨rfl, rfl⟩ := List.cons.inj h
      exact ⟨l, rfl, rfl⟩
    | word w =>
      obtain ⟨d, u, hw, hd, -⟩ := (f w).text_eq_cons
      rw [flatten_word, hw] at h
      exact absurd (List.cons.inj h).1 (ne_of_isFileNameChar (Neutral.isFileNameChar d hd) hc)

/-- White space at the start is the same whatever the words are. -/
theorem trimLeft_flatten [Neutral ok] (l : List (Symbol ok)) :
    Text.trimLeft (flatten f l) = flatten f (l.dropWhile Symbol.isBlank) := by
  induction l with
  | nil => rfl
  | cons x l ih =>
    cases x with
    | char c =>
      rw [flatten_char, Text.trimLeft, List.dropWhile_cons, List.dropWhile_cons]
      show (if isBlank c = true then _ else _) = flatten f (if isBlank c = true then _ else _)
      split
      · exact ih
      · rfl
    | word w =>
      obtain ⟨c, t, hw, hc, -⟩ := (f w).text_eq_cons
      rw [List.dropWhile_cons_of_neg (by simp [Symbol.isBlank]), flatten_word, hw, List.cons_append, Text.trimLeft,
        List.dropWhile_cons_of_neg (by simp [isBlank_of_isFileNameChar (Neutral.isFileNameChar c hc)])]

/-- A character that can stand in no word comes first whatever the words are. -/
theorem head?_flatten [Neutral ok] {c : Char} (hc : isFileNameChar c = false) (l : List (Symbol ok)) :
    ((flatten f l).head? == some c) = (l.head? == some (.char c)) := by
  rw [Bool.eq_iff_iff, beq_iff_eq, beq_iff_eq]
  constructor
  · intro h
    obtain ⟨t, ht⟩ := List.head?_eq_some_iff.1 h
    obtain ⟨k, rfl, -⟩ := flatten_eq_cons hc ht
    rfl
  · intro h
    obtain ⟨k, rfl⟩ := List.head?_eq_some_iff.1 h
    rfl

theorem selectorText_flat (s : Stretch ok) : (s.flat f).selectorText = flatten f s.selector := by
  cases s <;> rfl

theorem text_flat (s : Stretch ok) : (s.flat f).text = flatten f s.symbols := by
  cases s <;> rfl

theorem demoted_flat (s : Stretch ok) : (s.flat f).demoted = s.demoted.flat f := by
  cases s <;> rfl

end Flatten

/-! ## A section and what it is written as -/

namespace Draft

variable {ok : Char → Bool} {f : Word ok → Word ok}

theorem flat_push_char (d : Draft ok) (c : Char) : (d.push (.char c)).flat f = (d.flat f).push c := by
  simp [flat, push, Section.push]

theorem flat_push_word (d : Draft ok) (w : Word ok) :
    (d.push (.word w)).flat f = { d.flat f with current := (f w).text.reverse ++ (d.flat f).current } := by
  simp [flat, push]

theorem flat_endPrelude (d : Draft ok) : d.endPrelude.flat f = (d.flat f).endPrelude := by
  have hempty : (d.flat f).current.isEmpty = d.current.isEmpty := by
    rw [Bool.eq_iff_iff, List.isEmpty_iff, List.isEmpty_iff]
    simp [flat, flatten_eq_nil]
  unfold endPrelude Section.endPrelude
  rw [hempty]
  split
  · rfl
  · simp [flat, Stretch.flat]

theorem flat_endComment (d : Draft ok) : d.endComment.flat f = (d.flat f).endComment := by
  simp [flat, endComment, Section.endComment, Stretch.flat]

/-- Whether a draft is an at-rule does not depend on the words. -/
theorem flat_isAtRule [Neutral ok] (d : Draft ok) : (d.flat f).isAtRule = d.isAtRule := by
  have htext : (d.flat f).segments.reverse.flatMap Segment.selectorText =
      flatten f (d.stretches.reverse.flatMap Stretch.selector) := by
    rw [flat, ← List.map_reverse]
    induction d.stretches.reverse with
    | nil => rfl
    | cons s ss ih => rw [List.map_cons, List.flatMap_cons, List.flatMap_cons, flatten_append, selectorText_flat, ih]
  rw [Section.isAtRule, isAtRule, htext, trimLeft_flatten, head?_flatten (by decide)]

/-- A draft is dismissed alike whatever its words are. -/
theorem flat_dismissed (d : Draft ok) : (d.flat f).dismissed = d.dismissed.map (Stretch.flat f) := by
  have hmap (ss : List (Stretch ok)) : (ss.map (Stretch.flat f)).map Segment.demoted =
      (ss.map Stretch.demoted).map (Stretch.flat f) := by
    rw [List.map_map, List.map_map]
    exact List.map_congr_left fun s _ => demoted_flat s
  rw [Section.dismissed, dismissed, ← flat_endPrelude, ← hmap]
  exact congrArg _ List.map_reverse.symm

/-- A draft ends in a brace alike whatever its words are. -/
theorem flat_opened [Neutral ok] (d : Draft ok) : (d.flat f).opened = d.opened.map (Stretch.flat f) := by
  simp only [Section.opened, opened, ← flat_endPrelude, flat_isAtRule]
  split
  · exact flat_dismissed _
  · exact List.map_reverse.symm

/-! The symbols of a section, whatever is done with it. -/

@[simp] theorem symbols_empty : symbols ({} : Draft ok) = [] := rfl

/-- A symbol that is pushed comes at the end. -/
@[simp] theorem symbols_push (d : Draft ok) (x : Symbol ok) : (d.push x).symbols = d.symbols ++ [x] := by
  simp [push, symbols]

@[simp] theorem symbols_endPrelude (d : Draft ok) : d.endPrelude.symbols = d.symbols := by
  unfold endPrelude
  split <;> simp [symbols, Stretch.symbols]

@[simp] theorem symbols_endComment (d : Draft ok) : d.endComment.symbols = d.symbols := by
  simp [endComment, symbols, Stretch.symbols]

theorem current_endPrelude (d : Draft ok) : d.endPrelude.current = [] := by
  unfold endPrelude
  split
  · next h => simpa using h
  · rfl

theorem flatMap_endPrelude (d : Draft ok) : d.endPrelude.stretches.reverse.flatMap Stretch.symbols = d.symbols := by
  rw [← d.symbols_endPrelude, symbols, current_endPrelude, List.reverse_nil, List.append_nil]

/-- A draft that is dismissed keeps its symbols. -/
@[simp] theorem symbols_dismissed (d : Draft ok) : d.dismissed.flatMap Stretch.symbols = d.symbols := by
  rw [dismissed, List.flatMap_map, ← d.flatMap_endPrelude]
  rfl

/-- A draft that ends in a brace keeps its symbols. -/
@[simp] theorem symbols_opened (d : Draft ok) : d.opened.flatMap Stretch.symbols = d.symbols := by
  simp only [opened]
  split
  · simp
  · exact d.flatMap_endPrelude

end Draft

/-! ## A text and its symbols are read alike -/

/-- A mode that is not inside a string whose quote is a character of file names; no other one is reached. -/
def Mode.Proper (m : Mode) : Prop := ∀ q, m = .quoted q → isFileNameChar q = false

/-- A character of a word is one more character of the section, whatever the reader is inside of. -/
theorem readFrom_of_isFileNameChar {m : Mode} (hm : m.Proper) (s : Section) {c : Char} (h : isFileNameChar c = true) (t : Text) :
    readFrom m s (c :: t) = readFrom m (s.push c) t := by
  have hne (d : Char) (hd : isFileNameChar d = false) : c ≠ d := ne_of_isFileNameChar h hd
  cases m with
  | plain =>
    rw [readFrom, if_neg (hne _ (by decide)), if_neg, if_neg]
    · exact not_or.2 ⟨hne _ (by decide), hne _ (by decide)⟩
    · exact not_or.2 ⟨hne _ (by decide), hne _ (by decide)⟩
    · exact fun u hc _ => hne _ (by decide) hc
  | comment =>
    rw [readFrom]
    exact fun u hc _ => hne _ (by decide) hc
  | quoted q =>
    rw [readFrom, if_neg (hne _ (hm q rfl))]
    exact fun d u hc _ => hne _ (by decide) hc

/-- A run of file-name characters ends nothing. -/
theorem readFrom_run {m : Mode} (hm : m.Proper) (s : Section) {w : Text} (h : ∀ c ∈ w, isFileNameChar c = true) (t : Text) :
    readFrom m s (w ++ t) = readFrom m { s with current := w.reverse ++ s.current } t := by
  induction w generalizing s with
  | nil => rfl
  | cons c w ih =>
    rw [List.cons_append, readFrom_of_isFileNameChar hm s (h c List.mem_cons_self),
      ih _ fun d hd => h d (List.mem_cons_of_mem _ hd)]
    simp [Section.push]

variable {ok : Char → Bool} [Neutral ok] {f : Word ok → Word ok}

theorem readFrom_flatten_word {m : Mode} (hm : m.Proper) (d : Draft ok) (w : Word ok) (l : List (Symbol ok)) :
    readFrom m (d.flat f) (flatten f (.word w :: l)) = readFrom m ((d.push (.word w)).flat f) (flatten f l) := by
  rw [flatten_word, readFrom_run hm _ fun c hc => Neutral.isFileNameChar c ((f w).chars c hc), Draft.flat_push_word]

/-- The words that are written for the words of a stylesheet change the words of its segments and nothing else. -/
theorem readFrom_flatten {m : Mode} (hm : m.Proper) (d : Draft ok) (l : List (Symbol ok)) :
    readFrom m (d.flat f) (flatten f l) = (readSymbols m d l).map (Stretch.flat f) := by
  have hplain : Mode.plain.Proper := fun q h => by cases h
  have hcomment : Mode.comment.Proper := fun q h => by cases h
  -- what a character that is no part of a word is followed by can be seen on the symbols
  have hnext {c d : Char} {l : List (Symbol ok)} (hc : isFileNameChar c = false) (h : ∀ k, l = .char c :: k → d = '/' → False) :
      ∀ t, d = '/' → flatten f l = c :: t → False := by
    intro t hd ht
    obtain ⟨k, hk, -⟩ := flatten_eq_cons hc ht
    exact h k hk hd
  fun_induction readSymbols m d l with
  | case1 d => rw [flatten_nil, readFrom, ← Draft.flat_endComment, Draft.flat_dismissed]
  | case2 m d h => rw [flatten_nil, readFrom, Draft.flat_dismissed]; exact h
  | case3 d l ih =>
    rw [flatten_char, flatten_char, readFrom, ← Draft.flat_endPrelude, ← Draft.flat_push_char, ← Draft.flat_push_char]
    exact ih hcomment
  | case4 d l h ih =>
    rw [flatten_char, readFrom, if_pos rfl, ← Draft.flat_push_char, Draft.flat_opened, List.map_append, ← ih hplain]
    · rfl
    · exact fun t hd _ => absurd hd (by decide)
  | case5 d c l h h1 h2 ih =>
    rw [flatten_char, readFrom, if_neg h1, if_pos h2, ← Draft.flat_push_char, Draft.flat_dismissed, List.map_append, ← ih hplain]
    · rfl
    · exact hnext (by decide) h
  | case6 d c l h h1 h2 h3 ih =>
    rw [flatten_char, readFrom, if_neg h1, if_neg h2, if_pos h3, ← Draft.flat_push_char]
    · refine ih fun q hq => ?_
      cases hq
      rcases h3 with rfl | rfl <;> decide
    · exact hnext (by decide) h
  | case7 d c l h h1 h2 h3 ih =>
    rw [flatten_char, readFrom, if_neg h1, if_neg h2, if_neg h3, ← Draft.flat_push_char]
    · exact ih hplain
    · exact hnext (by decide) h
  | case8 d w l ih => rw [readFrom_flatten_word hplain, ih hplain]
  | case9 d l ih =>
    rw [flatten_char, flatten_char, readFrom, ← Draft.flat_push_char, ← Draft.flat_push_char, ← Draft.flat_endComment]
    exact ih hplain
  | case10 d x l h ih =>
    cases x with
    | char c =>
      rw [flatten_char, readFrom, ← Draft.flat_push_char]
      · exact ih hcomment
      · rintro t rfl ht
        obtain ⟨k, hk, -⟩ := flatten_eq_cons (by decide) ht
        exact h k rfl hk
    | word w => rw [readFrom_flatten_word hcomment, ih hcomment]
  | case11 q d x l ih =>
    cases x with
    | char c =>
      rw [flatten_char, flatten_char, readFrom, ← Draft.flat_push_char, ← Draft.flat_push_char]
      exact ih hm
    | word w =>
      -- the backslash hides the first character of the word
      obtain ⟨c, t, hw, -, ht⟩ := (f w).text_eq_cons
      rw [← ih hm, Draft.flat_push_word, hw, flatten_char, flatten_word, hw, List.cons_append, readFrom,
        readFrom_run hm _ fun c hc => Neutral.isFileNameChar c (ht c hc), Draft.flat_push_char]
      simp [Section.push]
  | case12 q d c l h ih =>
    rw [flatten_char, readFrom, ← Draft.flat_push_char]
    · refine ih ?_
      split
      · exact hplain
      · exact hm
    · rintro e t rfl ht
      cases l with
      | nil => cases ht
      | cons x l => exact h x l rfl rfl
  | case13 q d w l ih => rw [readFrom_flatten_word hm, ih hm]

omit [Neutral ok] in
/-- Reading loses no symbol. -/
theorem symbols_readSymbols (m : Mode) (d : Draft ok) (l : List (Symbol ok)) :
    (readSymbols m d l).flatMap Stretch.symbols = d.symbols ++ l := by
  fun_induction readSymbols m d l <;> simp_all

end Pseudonym.Stylesheet
