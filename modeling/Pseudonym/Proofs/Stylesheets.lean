import Mathlib.Data.List.Basic
import Pseudonym.Proofs.ClassTokens
import Pseudonym.Proofs.Codebook
import Pseudonym.Proofs.Utf8

/-!
# Class names exchanged in a stylesheet

The words of a stylesheet are the class names of its selectors. When each is exchanged for a run of identifier characters, the
stylesheet is cut into segments as before, and of these only the words of the preludes are changed (`segments_flatten`). So the
exchanged stylesheet has the class names that are the images of the old ones, as many preludes, the same bytes between them, and
nothing left to exchange (`rename_commutes`).
-/

namespace Pseudonym.Stylesheet

open Piece (imageOf swap)

/-- The bytes outside ranges that lie in order, from an offset on: before the first, between each and the next one, and behind
the last. -/
def between (bytes : Bytes) : Nat → List (Nat × Nat) → List Bytes
  | n, [] => [bytes.drop n]
  | n, (i, j) :: rs => (bytes.drop n).take (i - n) :: between bytes j rs

/-- The bytes of a stylesheet outside its selector preludes. -/
def gaps (css : Text) : List Bytes := between (Utf8.encode css) 0 (preludeRanges css)

/-- A codebook whose pseudonyms can stand for a class name: runs of identifier characters. -/
def IsClassCodebook (b : Codebook) : Prop := ∀ p ∈ b.pseudonyms, p ≠ [] ∧ ∀ c ∈ p, isIdentChar c = true

instance (b : Codebook) : Decidable (IsClassCodebook b) :=
  decidable_of_iff (b.pseudonyms.all fun p => !p.isEmpty && p.all isIdentChar) (by simp [IsClassCodebook])

/-! ## A stylesheet by its symbols -/

namespace Stretch

/-- The words of a segment are the class names of its selectors; where no selector stands, there is no word. -/
def Cut : Stretch → Prop
  | .prelude l => Tokens l
  | .other l => ∀ f, flatten f l = flatten id l

/-- The pieces of a segment, with other words written for its words. -/
def pieces (f : Word → Word) : Stretch → List Piece
  | .prelude l => l.map (Symbol.piece f)
  | .other l => [.fixed (flatten f l)]

/-- The words of a segment that end a selector. -/
def harvest : Stretch → List Word
  | .prelude l => Stylesheet.harvest l
  | .other _ => []

end Stretch

namespace StretchAux

variable {f : Word → Word}

theorem flatten_stretches (gs : List Stretch) : flatten f (gs.flatMap Stretch.symbols) = Segment.join (gs.map (Stretch.flat f)) := by
  induction gs with
  | nil => rfl
  | cons g gs ih => rw [List.flatMap_cons, flatten_append, ih, List.map_cons, Segment.join_cons, text_flat]

theorem append_inj_of_flatten {k l r s : List Symbol} (h : k ++ r = l ++ s) (hf : flatten f k = flatten f l) : k = l ∧ r = s := by
  rcases List.append_eq_append_iff.1 h with ⟨a, rfl, rfl⟩ | ⟨a, rfl, rfl⟩
  · rw [flatten_append, List.self_eq_append_right, flatten_eq_nil] at hf
    subst hf
    simp
  · rw [flatten_append, List.append_right_eq_self, flatten_eq_nil] at hf
    subst hf
    simp

/-- Where symbols fall into segments is seen on the text that is written for them. -/
theorem stretches_eq {gs hs : List Stretch} (h : gs.flatMap Stretch.symbols = hs.flatMap Stretch.symbols)
    (hflat : gs.map (Stretch.flat f) = hs.map (Stretch.flat f)) : gs = hs := by
  induction gs generalizing hs with
  | nil => exact (List.map_eq_nil_iff.1 hflat.symm).symm
  | cons g gs ih =>
    cases hs with
    | nil => cases hflat
    | cons g' hs =>
      obtain ⟨hg, htail⟩ := List.cons.inj hflat
      have htext : flatten f g.symbols = flatten f g'.symbols := by
        rw [← text_flat, ← text_flat, hg]
      obtain ⟨hsymbols, hrest⟩ := append_inj_of_flatten h htext
      rw [ih hrest htail]
      cases g with
      | prelude l =>
        cases g' with
        | prelude l' => exact congrArg (· :: hs) (congrArg Stretch.prelude hsymbols)
        | other l' => cases hg
      | other l =>
        cases g' with
        | prelude l' => cases hg
        | other l' => exact congrArg (· :: hs) (congrArg Stretch.other hsymbols)

/-- Segments can be cut at their class names. -/
theorem exists_cut (ss : List Segment) : ∃ gs : List Stretch, (∀ g ∈ gs, g.Cut) ∧ gs.map (Stretch.flat id) = ss := by
  induction ss with
  | nil => exact ⟨[], by simp, rfl⟩
  | cons s ss ih =>
    obtain ⟨gs, hcut, hflat⟩ := ih
    have hone : ∃ g : Stretch, g.Cut ∧ g.flat id = s := by
      cases s with
      | prelude t =>
        obtain ⟨l, hl, ht⟩ := exists_tokens t
        exact ⟨.prelude l, hl, congrArg Segment.prelude ht⟩
      | other t => exact ⟨.other (t.map Symbol.char), fun f => by rw [flatten_chars, flatten_chars], congrArg _ (flatten_chars t)⟩
    obtain ⟨g, hg, rfl⟩ := hone
    exact ⟨g :: gs, by simpa using ⟨hg, hcut⟩, by rw [List.map_cons, hflat]⟩

end StretchAux

open StretchAux

/-- A stylesheet is written with symbols whose words are its class names, and with other words it is cut into the same segments. -/
theorem segments_flatten (css : Text) : ∃ gs : List Stretch, (∀ g ∈ gs, g.Cut) ∧ flatten id (gs.flatMap Stretch.symbols) = css ∧
    ∀ f, segments (flatten f (gs.flatMap Stretch.symbols)) = gs.map (Stretch.flat f) := by
  obtain ⟨gs, hcut, hflat⟩ := exists_cut (segments css)
  have hcss : flatten id (gs.flatMap Stretch.symbols) = css := by
    rw [flatten_stretches, hflat, join_segments]
  have hread (f : Word → Word) : segments (flatten f (gs.flatMap Stretch.symbols)) =
      (readSymbols .plain {} (gs.flatMap Stretch.symbols)).map (Stretch.flat f) :=
    readFrom_flatten (fun q h => by cases h) {} _
  have hgs : gs = readSymbols .plain {} (gs.flatMap Stretch.symbols) := by
    refine stretches_eq (f := id) ?_ ?_
    · rw [symbols_readSymbols]
      rfl
    · rw [← hread, hcss, hflat]
  refine ⟨gs, hcut, hcss, fun f => ?_⟩
  rw [hread, ← hgs]

/-! ## Pieces, names and ranges by symbols -/

namespace StretchAux

variable {f : Word → Word} {gs : List Stretch}

/-- A stylesheet is cut at the words of its stretches, whatever these are. -/
theorem pieces_eq {t : Text} (hcut : ∀ g ∈ gs, g.Cut) (ht : segments t = gs.map (Stretch.flat f)) :
    pieces t = gs.flatMap (Stretch.pieces f) := by
  rw [pieces, ht, List.flatMap_map]
  refine List.flatMap_congr fun g hg => ?_
  cases g with
  | prelude l => exact cut_flatten (hcut _ hg)
  | other l => rfl

/-- A stylesheet has the words of its stretches as class names, whatever these are. -/
theorem classNames_eq {t : Text} (hcut : ∀ g ∈ gs, g.Cut) (ht : segments t = gs.map (Stretch.flat f)) :
    classNames t = gs.flatMap fun g => g.harvest.map fun w => (f w).text := by
  rw [classNames, ht, List.flatMap_map]
  refine List.flatMap_congr fun g hg => ?_
  cases g with
  | prelude l => exact names_cut_lastClassToken_flatten (hcut _ hg)
  | other l => rfl

theorem length_rangesFrom (n : Nat) (ss : List Segment) :
    (rangesFrom n ss).length = ss.countP fun s => s matches .prelude _ := by
  induction ss generalizing n with
  | nil => rfl
  | cons s ss ih => cases s <;> simp [rangesFrom, ih]

/-- The bytes between the preludes of segments, behind bytes that have been read already. -/
def gapsFrom (before : Bytes) : List Segment → List Bytes
  | [] => [before]
  | .prelude _ :: ss => before :: gapsFrom [] ss
  | .other t :: ss => gapsFrom (before ++ Utf8.encode t) ss

theorem between_rangesFrom (start before : Bytes) (ss : List Segment) :
    between (start ++ (before ++ Utf8.encode (Segment.join ss))) start.length (rangesFrom (start.length + before.length) ss) =
      gapsFrom before ss := by
  induction ss generalizing start before with
  | nil => simp [rangesFrom, between, gapsFrom]
  | cons s ss ih =>
    cases s with
    | other t =>
      have := ih start (before ++ Utf8.encode t)
      rw [List.length_append, Utf8.length_encode, ← Nat.add_assoc, List.append_assoc before, ← Utf8.encode_append] at this
      rw [rangesFrom, gapsFrom, ← this]
      rfl
    | prelude t =>
      have := ih (start ++ (before ++ Utf8.encode t)) []
      simp only [List.length_append, Utf8.length_encode, List.length_nil, Nat.add_zero, List.nil_append, List.append_assoc] at this
      rw [rangesFrom, gapsFrom, between, List.drop_left, Nat.add_sub_cancel_left, List.take_left, Nat.add_assoc, ← this,
        Segment.join_cons, Utf8.encode_append]
      rfl

theorem gaps_eq (t : Text) : gaps t = gapsFrom [] (segments t) := by
  have := between_rangesFrom [] [] (segments t)
  rwa [join_segments] at this

/-- The gaps between selectors are the same whatever the words are. -/
theorem gapsFrom_flat {g : Word → Word} (hcut : ∀ s ∈ gs, s.Cut) (before : Bytes) :
    gapsFrom before (gs.map (Stretch.flat f)) = gapsFrom before (gs.map (Stretch.flat g)) := by
  induction gs generalizing before with
  | nil => rfl
  | cons s gs ih =>
    have hgs (before : Bytes) := ih (fun s hs => hcut s (List.mem_cons_of_mem _ hs)) before
    cases s with
    | prelude l => exact congrArg (before :: ·) (hgs [])
    | other l =>
      have hl : ∀ f, flatten f l = flatten id l := hcut _ List.mem_cons_self
      rw [List.map_cons, List.map_cons, Stretch.flat, Stretch.flat, gapsFrom, gapsFrom, hl f, hl g, hgs]

end StretchAux

/-- A class name is a word. -/
theorem exists_word_of_mem_classNames {css n : Text} (h : n ∈ classNames css) : ∃ w : Word, w.text = n := by
  obtain ⟨gs, hcut, hcss, hseg⟩ := segments_flatten css
  have hsegments : segments css = gs.map (Stretch.flat id) := by
    rw [← hseg, hcss]
  rw [classNames_eq hcut hsegments] at h
  obtain ⟨g, -, hn⟩ := List.mem_flatMap.1 h
  obtain ⟨w, -, hw⟩ := List.mem_map.1 hn
  exact ⟨w, hw⟩

/-! ## The exchange -/

/-- The word that a codebook of class names puts for a word. -/
def IsClassCodebook.image {b : Codebook} (h : IsClassCodebook b) (w : Word) : Word :=
  have himage : imageOf b.get? w.text ≠ [] ∧ ∀ c ∈ imageOf b.get? w.text, isIdentChar c = true := by
    unfold imageOf
    cases hp : b.get? w.text with
    | none => exact ⟨w.nonempty, w.chars⟩
    | some p => exact h p (List.mem_map_of_mem (Codebook.mem_entries_of_get? hp))
  ⟨imageOf b.get? w.text, himage.1, himage.2⟩

/-- The stylesheet after an exchange, whether anything was exchanged or not. -/
def renamed (b : Codebook) (css : Text) : Text := (rename b css).getD css

namespace StretchAux

variable {b : Codebook} {gs : List Stretch}

/-- To swap the names is to write other words. -/
theorem swap_pieces (h : IsClassCodebook b) (hcut : ∀ g ∈ gs, g.Cut) :
    swap b.get? (gs.flatMap (Stretch.pieces id)) = gs.flatMap (Stretch.pieces h.image) := by
  rw [swap, List.map_flatMap]
  refine List.flatMap_congr fun g hg => ?_
  cases g with
  | prelude l =>
    simp only [Stretch.pieces, List.map_map]
    refine List.map_congr_left fun x _ => ?_
    cases x <;> rfl
  | other l =>
    have hl : ∀ f, flatten f l = flatten id l := hcut _ hg
    simp [Stretch.pieces, hl h.image]

theorem join_flatMap_pieces {f : Word → Word} (gs : List Stretch) :
    Piece.join (gs.flatMap (Stretch.pieces f)) = flatten f (gs.flatMap Stretch.symbols) := by
  induction gs with
  | nil => rfl
  | cons g gs ih =>
    rw [List.flatMap_cons, List.flatMap_cons, Piece.join_append, flatten_append, ih]
    cases g with
    | prelude l => rw [Stretch.pieces, join_map_piece, Stretch.symbols]
    | other l => simp [Stretch.pieces, Stretch.symbols]

end StretchAux

/-- The exchanged stylesheet is the one that is written with the images of the words. -/
theorem exists_renamed {b : Codebook} (h : IsClassCodebook b) (css : Text) : ∃ gs : List Stretch, (∀ g ∈ gs, g.Cut) ∧
    segments css = gs.map (Stretch.flat id) ∧ segments (renamed b css) = gs.map (Stretch.flat h.image) := by
  obtain ⟨gs, hcut, hcss, hseg⟩ := segments_flatten css
  have hsegments : segments css = gs.map (Stretch.flat id) := by
    rw [← hseg, hcss]
  refine ⟨gs, hcut, hsegments, ?_⟩
  have hrenamed : renamed b css = flatten h.image (gs.flatMap Stretch.symbols) := by
    have hgetD := Piece.getD_exchange? (f := b.get?) (pieces css)
    rw [join_pieces, ← Piece.join_swap] at hgetD
    refine hgetD.trans ?_
    rw [pieces_eq hcut hsegments, swap_pieces h hcut, join_flatMap_pieces]
  rw [hrenamed, hseg]

/-- The exchanged stylesheet styles the images of the names that were styled, in the same order and with the same repeats. -/
theorem IsClassCodebook.classNames_renamed {b : Codebook} (h : IsClassCodebook b) (css : Text) :
    classNames (renamed b css) = (classNames css).map (imageOf b.get?) := by
  obtain ⟨gs, hcut, hcss, hout⟩ := exists_renamed h css
  rw [classNames_eq hcut hcss, classNames_eq hcut hout, List.map_flatMap]
  refine List.flatMap_congr fun g _ => ?_
  rw [List.map_map]
  rfl

/-- The exchange of class names and the reading of a stylesheet commute. The exchanged stylesheet styles the images of the names
that were styled, in the same order and with the same repeats; it has as many selector preludes, and the same bytes before,
between and behind them; and when no pseudonym is a name, there is nothing to exchange in it any more. -/
theorem rename_commutes {b : Codebook} (h : IsClassCodebook b) (css : Text) :
    classNames (renamed b css) = (classNames css).map (imageOf b.get?) ∧
    (preludeRanges (renamed b css)).length = (preludeRanges css).length ∧
    gaps (renamed b css) = gaps css ∧
    ((∀ p ∈ b.pseudonyms, p ∉ b.names) → rename b (renamed b css) = none) := by
  obtain ⟨gs, hcut, hcss, hout⟩ := exists_renamed h css
  refine ⟨h.classNames_renamed css, ?_, ?_, ?_⟩
  · rw [preludeRanges, preludeRanges, length_rangesFrom, length_rangesFrom, hcss, hout, List.countP_map, List.countP_map]
    refine List.countP_congr fun g _ => ?_
    cases g <;> rfl
  · rw [gaps_eq, gaps_eq, hcss, hout]
    exact gapsFrom_flat hcut []
  · intro hfresh
    rw [rename, Piece.exchange?_eq_none_iff, pieces_eq hcut hout, ← swap_pieces h hcut, Piece.names_swap]
    intro n hn
    obtain ⟨m, -, rfl⟩ := List.mem_map.1 hn
    unfold imageOf
    cases hp : b.get? m with
    | none => exact hp
    | some p => exact Codebook.get?_eq_none_iff.2 (hfresh p (List.mem_map_of_mem (Codebook.mem_entries_of_get? hp)))

namespace SelectorWitness

/-- Two classes, the name of one the beginning of the name of the other. -/
def book : Codebook := ⟨[("a".toList, "x1".toList), ("ab".toList, "y".toList)]⟩

/-- A selector with a comment in it, a name inside a string, and declarations that look like selectors. -/
def css : Text := "/*.a\x7b*/ p.ab /*.a*/ [t=\".a\x7b\"].a , .c\x7bk:.a;u:\".ab\"\x7d @m .a\x7b.ab \x7b\x7d".toList

theorem isClassCodebook : IsClassCodebook book := by decide

end SelectorWitness

open SelectorWitness in
/-- A class whose name another begins with, among comments, strings, an at-rule and declarations. -/
theorem rename_commutes_selector : IsClassCodebook book ∧
    renamed book css = "/*.a\x7b*/ p.y /*.a*/ [t=\".x1\x7b\"].x1 , .c\x7bk:.a;u:\".ab\"\x7d @m .a\x7b.y \x7b\x7d".toList ∧
    classNames css = ["a".toList, "a".toList, "c".toList, "ab".toList] ∧
    classNames (renamed book css) = (classNames css).map (imageOf book.get?) ∧
    (preludeRanges (renamed book css)).length = (preludeRanges css).length ∧
    gaps (renamed book css) = gaps css ∧
    rename book (renamed book css) = none := by
  obtain ⟨h1, h2, h3, h4⟩ := rename_commutes isClassCodebook css
  exact ⟨isClassCodebook, by decide, by decide, h1, h2, h3, h4 (by decide)⟩

end Pseudonym.Stylesheet
