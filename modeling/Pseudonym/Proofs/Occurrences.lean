import Pseudonym.Proofs.ClassTokens

/-!
# The places of class names

A stylesheet styles a class name where a selector prelude holds a dot, the name as the longest run of identifier characters
behind it, white space, and the comma or the brace that ends the selector (`StyledAt`). The harvest returns these names and no
other ones, one for each place and in the order of the places, and wherever it finds a name the exchange finds the same one
(`classNames_places`). A place is the byte that the dot is at.
-/

namespace Pseudonym.Stylesheet

open Piece (names cut search exchange)

/-- The text of a name that ends its selector. Neither white space nor the end of a selector is an identifier character, so that
the run behind the dot is the longest one. -/
def IsLastToken (n token : Text) : Prop :=
  ∃ gap d, token = '.' :: (n ++ (gap ++ [d])) ∧ n ≠ [] ∧ (∀ c ∈ n, isIdentChar c = true) ∧ (∀ c ∈ gap, isBlank c = true) ∧
    endsSelector d = true

/-- Within a range of a stylesheet's bytes stands a name that ends its selector, the dot at byte `i`. -/
def StyledAt (css : Text) (range : Nat × Nat) (i : Nat) (n : Text) : Prop :=
  ∃ u token v, css = u ++ (token ++ v) ∧ IsLastToken n token ∧ u.utf8Size = i ∧ range.1 ≤ i ∧ i + token.utf8Size ≤ range.2

/-! ## One place -/

/-- A selector ends in a brace or a comma. -/
theorem endsSelector_iff {c : Char} : endsSelector c = true ↔ c = '{' ∨ c = ',' := by
  simp [endsSelector]

/-- What is harvested at the beginning of a text is at most one name, and its token stands there. -/
theorem mem_styledAt_iff {t n : Text} : n ∈ styledAt t ↔ ∃ token v, t = token ++ v ∧ IsLastToken n token := by
  constructor
  · intro h
    cases t with
    | nil => cases h
    | cons c r =>
      have hdot : c = '.' := by
        by_contra hc
        rw [styledAt_of_ne_dot hc] at h
        cases h
      subst hdot
      obtain ⟨m, rest, rfl, hm, hrest⟩ : ∃ m rest, r = m ++ rest ∧ (∀ c ∈ m, isIdentChar c = true) ∧
          rest.head?.any isIdentChar = false :=
        ⟨_, _, List.takeWhile_append_dropWhile.symm, fun c hc => List.mem_takeWhile_imp hc, head?_dropWhile_run r⟩
      by_cases hne : m = []
      · rw [hne, List.nil_append, styledAt_dot hrest] at h
        cases h
      · rw [styledAt_run hne hm hrest] at h
        split at h
        · next hends =>
          obtain ⟨d, hd, hend⟩ := (Option.any_eq_true _ _).1 hends
          obtain ⟨v, hv⟩ := List.head?_eq_some_iff.1 hd
          have hsplit : rest = rest.takeWhile isBlank ++ d :: v := by
            rw [← hv, Text.trimLeft, List.takeWhile_append_dropWhile]
          have htext : m ++ rest = m ++ (rest.takeWhile isBlank ++ [d]) ++ v := by
            rw [List.append_assoc, List.append_assoc, List.singleton_append, ← hsplit]
          rw [htext, List.mem_singleton.1 h]
          exact ⟨_, v, rfl, _, d, rfl, hne, hm, fun c hc => List.mem_takeWhile_imp hc, hend⟩
        · cases h
  · rintro ⟨token, v, rfl, gap, d, rfl, hne, hn, hgap, hd⟩
    have hrest : (gap ++ d :: v).head?.any isIdentChar = false := by
      cases gap with
      | nil => rcases endsSelector_iff.1 hd with rfl | rfl <;> rfl
      | cons c gap => exact isIdentChar_of_isBlank (hgap c List.mem_cons_self)
    have htrim : Text.trimLeft (gap ++ d :: v) = d :: v := by
      rw [Text.trimLeft, List.dropWhile_append_of_pos hgap, List.dropWhile_cons_of_neg]
      rcases endsSelector_iff.1 hd with rfl | rfl <;> decide
    have htext : '.' :: (n ++ (gap ++ [d])) ++ v = '.' :: (n ++ (gap ++ d :: v)) := by simp
    rw [htext, styledAt_run hne hn hrest, htrim]
    simp [hd]

/-- At one place stands one name at most. -/
theorem length_styledAt_le (t : Text) : (styledAt t).length ≤ 1 := by
  have hnames {m : List Piece × Nat} (h : lastClassToken none t = some m) : (names m.1).length = 1 := by
    unfold lastClassToken at h
    split at h
    · simp only at h
      split at h
      · split at h
        · cases h
          rfl
        · cases h
      · cases h
    · cases h
  unfold styledAt
  cases h : lastClassToken none t with
  | none => exact Nat.zero_le _
  | some m => exact (hnames h).le

/-! ## The names of a text with their places -/

/-- The names that are harvested at each place of a text that begins at an offset, with their places. -/
def styledFrom : Nat → Text → List (Nat × Text)
  | _, [] => []
  | i, c :: t => (styledAt (c :: t)).map (i, ·) ++ styledFrom (i + c.utf8Size) t

/-- The places hold the classes that are styled. -/
theorem map_snd_styledFrom (i : Nat) (t : Text) : (styledFrom i t).map Prod.snd = styled t := by
  induction t generalizing i with
  | nil => rfl
  | cons c t ih => simp [styledFrom, styled, ih, Function.comp_def]

/-- A class has its place where it is styled. -/
theorem mem_styledFrom_iff {i k : Nat} {t n : Text} :
    (i, n) ∈ styledFrom k t ↔ ∃ u s, t = u ++ s ∧ i = k + Text.utf8Size u ∧ n ∈ styledAt s := by
  induction t generalizing k with
  | nil =>
    constructor
    · intro h
      cases h
    · rintro ⟨u, s, hus, -, hn⟩
      rw [(List.append_eq_nil_iff.1 hus.symm).2] at hn
      cases hn
  | cons c t ih =>
    rw [styledFrom, List.mem_append, ih]
    constructor
    · rintro (h | ⟨u, s, rfl, rfl, hn⟩)
      · obtain ⟨m, hm, heq⟩ := List.mem_map.1 h
        cases heq
        exact ⟨[], c :: t, rfl, rfl, hm⟩
      · exact ⟨c :: u, s, rfl, by rw [Text.utf8Size, Nat.add_assoc], hn⟩
    · rintro ⟨u, s, hus, rfl, hn⟩
      cases u with
      | nil =>
        rw [List.nil_append] at hus
        exact .inl (List.mem_map.2 ⟨n, hus ▸ hn, rfl⟩)
      | cons c' u =>
        obtain ⟨rfl, rfl⟩ := List.cons.inj hus
        exact .inr ⟨u, s, rfl, by rw [Text.utf8Size, Nat.add_assoc], hn⟩

/-- The places of a text's names lie in it. -/
theorem bounds_of_mem_styledFrom {x : Nat × Text} {k : Nat} {t : Text} (h : x ∈ styledFrom k t) :
    k ≤ x.1 ∧ x.1 < k + t.utf8Size := by
  obtain ⟨u, s, rfl, hi, hn⟩ := mem_styledFrom_iff.1 h
  have hs : s ≠ [] := by
    rintro rfl
    cases hn
  have hpos := Text.utf8Size_pos hs
  rw [Text.utf8Size_append]
  omega

/-- They are in order, and no two are the same. -/
theorem pairwise_styledFrom (k : Nat) (t : Text) : (styledFrom k t).Pairwise fun x y => x.1 < y.1 := by
  induction t generalizing k with
  | nil => exact .nil
  | cons c t ih =>
    refine List.pairwise_append.2 ⟨?_, ih _, ?_⟩
    · have hlen := length_styledAt_le (c :: t)
      cases hat : styledAt (c :: t) with
      | nil => exact .nil
      | cons n ns =>
        rw [hat, List.length_cons] at hlen
        have hns : ns = [] := List.length_eq_zero_iff.1 (by omega)
        rw [hns]
        exact List.pairwise_singleton _ _
    · intro x hx y hy
      obtain ⟨n, -, rfl⟩ := List.mem_map.1 hx
      have hc := c.utf8Size_pos
      have hy := (bounds_of_mem_styledFrom hy).1
      show k < y.1
      omega

/-! ## The preludes of a stylesheet with their begins -/

/-- The preludes among segments that begin at an offset, each with the byte at which it begins. -/
def preludesFrom : Nat → List Segment → List (Nat × Text)
  | _, [] => []
  | k, .prelude t :: ss => (k, t) :: preludesFrom (k + t.utf8Size) ss
  | k, .other t :: ss => preludesFrom (k + t.utf8Size) ss

/-- The names that a stylesheet styles, each with its place. -/
def places (css : Text) : List (Nat × Text) := (preludesFrom 0 (segments css)).flatMap fun p => styledFrom p.1 p.2

/-- The ranges are those of the preludes in their places. -/
theorem rangesFrom_eq_map (k : Nat) (ss : List Segment) :
    rangesFrom k ss = (preludesFrom k ss).map fun p => (p.1, p.1 + p.2.utf8Size) := by
  induction ss generalizing k with
  | nil => rfl
  | cons s ss ih => cases s <;> simp [rangesFrom, preludesFrom, ih]

/-- A prelude has its place behind the segments before it. -/
theorem mem_preludesFrom_iff {p : Nat × Text} {k : Nat} {ss : List Segment} : p ∈ preludesFrom k ss ↔
    ∃ before after, ss = before ++ .prelude p.2 :: after ∧ p.1 = k + (Segment.join before).utf8Size := by
  induction ss generalizing k with
  | nil => simp [preludesFrom]
  | cons s ss ih =>
    -- a segment in front of all others, or none
    have hcons {q : Prop} (hq : q ↔ s = .prelude p.2 ∧ p.1 = k) : q ∨ p ∈ preludesFrom (k + s.text.utf8Size) ss ↔
        ∃ before after, s :: ss = before ++ .prelude p.2 :: after ∧ p.1 = k + (Segment.join before).utf8Size := by
      rw [hq, ih]
      constructor
      · rintro (⟨rfl, hk⟩ | ⟨before, after, rfl, hk⟩)
        · exact ⟨[], ss, rfl, hk⟩
        · exact ⟨s :: before, after, rfl, by rw [hk, Segment.join_cons, Text.utf8Size_append, Nat.add_assoc]⟩
      · rintro ⟨before, after, hss, hk⟩
        cases before with
        | nil => exact .inl ⟨(List.cons.inj hss).1, hk⟩
        | cons s' before =>
          obtain ⟨rfl, rfl⟩ := List.cons.inj hss
          exact .inr ⟨before, after, rfl, by rw [hk, Segment.join_cons, Text.utf8Size_append, Nat.add_assoc]⟩
    cases s with
    | prelude t =>
      rw [preludesFrom, List.mem_cons]
      refine hcons ?_
      rw [Prod.ext_iff, Segment.prelude.injEq]
      exact ⟨fun h => ⟨h.2.symm, h.1⟩, fun h => ⟨h.2, h.1.symm⟩⟩
    | other t =>
      rw [preludesFrom, ← hcons (q := False) (by simp), false_or]
      rfl

/-- The places of a stylesheet hold its class names. -/
theorem map_snd_places (css : Text) : (places css).map Prod.snd = classNames css := by
  have key (k : Nat) (ss : List Segment) :
      ((preludesFrom k ss).flatMap fun p => styledFrom p.1 p.2).map Prod.snd = Segment.styled ss := by
    induction ss generalizing k with
    | nil => rfl
    | cons s ss ih =>
      cases s with
      | prelude t => rw [preludesFrom, List.flatMap_cons, List.map_append, ih, map_snd_styledFrom]; rfl
      | other t => rw [preludesFrom, ih]; rfl
  rw [places, key, classNames_eq_styled]

/-- The places of a stylesheet are in order. -/
theorem pairwise_places (css : Text) : (places css).Pairwise fun x y => x.1 < y.1 := by
  have key (k : Nat) (ss : List Segment) :
      ((preludesFrom k ss).flatMap fun p => styledFrom p.1 p.2).Pairwise fun x y => x.1 < y.1 := by
    induction ss generalizing k with
    | nil => exact .nil
    | cons s ss ih =>
      cases s with
      | other t => exact ih _
      | prelude t =>
        refine List.pairwise_append.2 ⟨pairwise_styledFrom k t, ih _, ?_⟩
        intro x hx y hy
        obtain ⟨p, hp, hy⟩ := List.mem_flatMap.1 hy
        obtain ⟨before, -, -, hstart⟩ := mem_preludesFrom_iff.1 hp
        have hx : x.1 < k + t.utf8Size := (bounds_of_mem_styledFrom hx).2
        have hy := (bounds_of_mem_styledFrom hy).1
        omega
  exact key 0 (segments css)

/-- Of two beginnings of a text, the one that takes fewer bytes begins the other. -/
theorem exists_append_of_utf8Size_le {a b c d : Text} (h : a ++ b = c ++ d) (hle : a.utf8Size ≤ c.utf8Size) :
    ∃ e, c = a ++ e ∧ b = e ++ d := by
  rcases List.append_eq_append_iff.1 h with ⟨e, hc, hb⟩ | ⟨e, ha, hd⟩
  · exact ⟨e, hc, hb⟩
  · have he : e = [] := by
      by_contra hne
      have hpos := Text.utf8Size_pos hne
      rw [ha, Text.utf8Size_append] at hle
      omega
    subst he
    exact ⟨[], by simpa using ha.symm, by simpa using hd.symm⟩

/-- The places are those of the names that end a selector. -/
theorem mem_places_iff {css : Text} {i : Nat} {n : Text} :
    (i, n) ∈ places css ↔ ∃ range ∈ preludeRanges css, StyledAt css range i n := by
  rw [places, List.mem_flatMap, preludeRanges, rangesFrom_eq_map]
  constructor
  · rintro ⟨p, hp, hin⟩
    refine ⟨_, List.mem_map_of_mem hp, ?_⟩
    obtain ⟨before, after, hsegments, hstart⟩ := mem_preludesFrom_iff.1 hp
    obtain ⟨u, s, hp2, rfl, hn⟩ := mem_styledFrom_iff.1 hin
    obtain ⟨token, v, rfl, htoken⟩ := mem_styledAt_iff.1 hn
    refine ⟨Segment.join before ++ u, token, v ++ Segment.join after, ?_, htoken, ?_, Nat.le_add_right _ _, ?_⟩
    · rw [← join_segments css, hsegments]
      simp [hp2]
    · rw [hstart, Text.utf8Size_append, Nat.zero_add]
    · rw [hp2]
      simp only [Text.utf8Size_append]
      omega
  · rintro ⟨range, hrange, u, token, v, hcss, htoken, rfl, hbegin, hend⟩
    obtain ⟨p, hp, rfl⟩ := List.mem_map.1 hrange
    refine ⟨p, hp, ?_⟩
    obtain ⟨before, after, hsegments, hstart⟩ := mem_preludesFrom_iff.1 hp
    rw [Nat.zero_add] at hstart
    have hjoin : Segment.join before ++ (p.2 ++ Segment.join after) = u ++ (token ++ v) := by
      rw [← hcss, ← join_segments css, hsegments]
      simp
    obtain ⟨w, rfl, hw⟩ := exists_append_of_utf8Size_le hjoin (hstart ▸ hbegin)
    have hinside : (w ++ token).utf8Size ≤ p.2.utf8Size := by
      simp only [Text.utf8Size_append] at hend ⊢
      omega
    rw [← List.append_assoc] at hw
    obtain ⟨e, he, -⟩ := exists_append_of_utf8Size_le hw.symm hinside
    refine mem_styledFrom_iff.2 ⟨w, token ++ e, by rw [he, List.append_assoc], ?_, mem_styledAt_iff.2 ⟨token, e, rfl, htoken⟩⟩
    rw [hstart, Text.utf8Size_append]

/-! ## The exchange at the same places -/

/-- Tokens may be followed by others that do not begin with an identifier character. -/
theorem Tokens.append {l k : List Symbol} (hl : Tokens l) (hk : Tokens k) (hhead : k.head?.any Symbol.isIdent = false) :
    Tokens (l ++ k) := by
  have hnext {l : List Symbol} (h : l.head?.any Symbol.isIdent = false) : (l ++ k).head?.any Symbol.isIdent = false := by
    cases l with
    | nil => exact hhead
    | cons x l => exact h
  induction hl with
  | nil => exact hk
  | token w hw _ ih => exact .token w (hnext hw) ih
  | char hc _ ih => exact .char (fun hdot => hnext (hc hdot)) ih

/-- Where no identifier character begins what follows, a cut goes on as it begins. -/
theorem cut_append (u : Text) {v : Text} (hv : v.head?.any isIdentChar = false) :
    cut classToken (u ++ v) = cut classToken u ++ cut classToken v := by
  obtain ⟨l, hl, rfl⟩ := exists_tokens u
  obtain ⟨k, hk, rfl⟩ := exists_tokens v
  rw [head?_flatten_any] at hv
  rw [← flatten_append, cut_flatten (hl.append hk hv), cut_flatten hl, cut_flatten hk, List.map_append]

/-- The exchange finds the name of a token that ends a selector. -/
theorem IsLastToken.cut_eq {n token : Text} (h : IsLastToken n token) (v : Text) :
    ∃ qs, cut classToken (token ++ v) = .fixed ['.'] :: .name n :: qs := by
  obtain ⟨gap, d, rfl, hne, hn, hgap, hd⟩ := h
  have hrest : (gap ++ [d] ++ v).head?.any isIdentChar = false := by
    cases gap with
    | nil => rcases endsSelector_iff.1 hd with rfl | rfl <;> rfl
    | cons c gap => exact isIdentChar_of_isBlank (hgap c List.mem_cons_self)
  have hmatch := classToken_run none hne hn hrest
  rw [List.cons_append, List.append_assoc, cut, search, hmatch]
  exact ⟨_, rfl⟩

/-- The pieces of a segment. -/
def Segment.pieces : Segment → List Piece
  | .prelude t => cut classToken t
  | .other t => [.fixed t]

theorem pieces_eq_flatMap (css : Text) : pieces css = (segments css).flatMap Segment.pieces := rfl

/-- The pieces of segments are their text. -/
theorem Segment.join_flatMap_pieces (ss : List Segment) : Piece.join (ss.flatMap Segment.pieces) = Segment.join ss := by
  induction ss with
  | nil => rfl
  | cons s ss ih =>
    rw [List.flatMap_cons, Piece.join_append, ih, Segment.join_cons]
    cases s with
    | prelude t => rw [Segment.pieces, Piece.join_cut splits_classToken, Segment.text_prelude]
    | other t => rw [Segment.pieces, Piece.join_cons, Piece.join_nil, List.append_nil, Piece.text_fixed, Segment.text_other]

/-- Where the harvest finds a name, the exchange finds it too. -/
theorem pieces_of_mem_places {css : Text} {i : Nat} {n : Text} (h : (i, n) ∈ places css) :
    ∃ ps qs, pieces css = ps ++ .fixed ['.'] :: .name n :: qs ∧ (Piece.join ps).utf8Size = i := by
  obtain ⟨p, hp, hin⟩ := List.mem_flatMap.1 h
  obtain ⟨before, after, hsegments, hstart⟩ := mem_preludesFrom_iff.1 hp
  obtain ⟨u, s, hp2, rfl, hn⟩ := mem_styledFrom_iff.1 hin
  obtain ⟨token, v, rfl, htoken⟩ := mem_styledAt_iff.1 hn
  obtain ⟨qs, hqs⟩ := htoken.cut_eq v
  have hhead : (token ++ v).head?.any isIdentChar = false := by
    obtain ⟨gap, d, rfl, -⟩ := htoken
    rfl
  refine ⟨before.flatMap Segment.pieces ++ cut classToken u, qs ++ after.flatMap Segment.pieces, ?_, ?_⟩
  · rw [pieces_eq_flatMap, hsegments, List.flatMap_append, List.flatMap_cons, Segment.pieces, hp2, cut_append u hhead, hqs]
    simp
  · rw [Piece.join_append, Segment.join_flatMap_pieces, Piece.join_cut splits_classToken, Text.utf8Size_append, hstart, Nat.zero_add]

/-- An exchange puts the pseudonym of a name where the name is. -/
theorem rename_of_pieces {b : Codebook} {css n p : Text} {ps qs : List Piece}
    (hpieces : pieces css = ps ++ .fixed ['.'] :: .name n :: qs) (hp : b.get? n = some p) :
    rename b css = some (exchange b.get? ps ++ '.' :: (p ++ exchange b.get? qs)) := by
  rw [rename, Piece.exchange?_eq_some_iff, hpieces]
  refine ⟨⟨n, by simp, by simp [hp]⟩, ?_⟩
  rw [Piece.exchange_append, exchange, exchange, hp]
  rfl

/-- The harvest finds its grammar and nothing else: there is a list of places, in order and each once, that holds exactly the
names that end a selector inside one prelude, and the class names are the names of that list. At each of these places the pieces
of the stylesheet have the name too, so that a codebook that knows it puts its pseudonym there. -/
theorem classNames_places (css : Text) : ∃ occurrences : List (Nat × Text),
    classNames css = occurrences.map Prod.snd ∧
    (occurrences.Pairwise fun x y => x.1 < y.1) ∧
    (∀ i n, (i, n) ∈ occurrences ↔ ∃ range ∈ preludeRanges css, StyledAt css range i n) ∧
    ∀ i n, (i, n) ∈ occurrences → ∃ ps qs, pieces css = ps ++ .fixed ['.'] :: .name n :: qs ∧ (Piece.join ps).utf8Size = i ∧
      ∀ b : Codebook, ∀ p, b.get? n = some p →
        rename b css = some (exchange b.get? ps ++ '.' :: (p ++ exchange b.get? qs)) := by
  refine ⟨places css, (map_snd_places css).symm, pairwise_places css, fun i n => mem_places_iff, ?_⟩
  intro i n h
  obtain ⟨ps, qs, hpieces, hsize⟩ := pieces_of_mem_places h
  refine ⟨ps, qs, hpieces, hsize, ?_⟩
  intro b p hp
  exact rename_of_pieces hpieces hp

/-- Two selectors in one prelude, a name that a pseudo-class follows, the same name again, and one in a declaration. -/
example : places "p.a .b , .a:hover, .b\u2003\x7bt:.c;\x7d é.a\x7b".toList =
    [(4, "b".toList), (19, "b".toList), (34, "a".toList)] := by decide

end Pseudonym.Stylesheet
