import Mathlib.Data.List.Nodup
import Pseudonym.Proofs.ClassTokens
import Pseudonym.Proofs.Codebook
import Pseudonym.Script

/-!
# String literals by the quotes of a script

A script is cut at each of its quotes (`cutAtQuotes`). What stands between two equal quotes is a literal, unless the quote in
front of it ends a literal already. `translate` exchanges literals in one pass from left to right; two passes for names that have
nothing to do with each other are one (`translate_translate`). So the literals of a codebook, which are exchanged one after the
other on a text that changes all the time, are exchanged as in one pass over the text that was there at first (`rename_eq`).
-/

namespace Pseudonym.Script

open Piece (exchange exchanged names)

/-- The quotes that a literal stands in. -/
def isQuote (c : Char) : Bool := c == '\'' || c == '"'

/-- There are two quotes. -/
theorem isQuote_iff {c : Char} : isQuote c = true ↔ c = '\'' ∨ c = '"' := by
  simp [isQuote]

/-- A quote, the text behind it up to the next quote, and whether that quote is the same. -/
structure Strip where
  quote : Char
  body : Text
  closed : Bool
  deriving DecidableEq, Repr

/-- A name in its quotes. -/
abbrev Key := Char × Text

namespace Strip

/-- What a strip may be a literal of. -/
def key (s : Strip) : Key := (s.quote, s.body)

/-- The text of strips in order. -/
def join (ss : List Strip) : Text := ss.flatMap fun s => s.quote :: s.body

@[simp] theorem join_nil : join [] = [] := rfl

@[simp] theorem join_cons (s : Strip) (ss : List Strip) : join (s :: ss) = s.quote :: (s.body ++ join ss) := rfl

end Strip

open Strip (join)

/-- The text in front of the first quote, and a strip for each quote. -/
def cutAtQuotes : Text → Text × List Strip
  | [] => ([], [])
  | c :: t =>
    if isQuote c then ([], ⟨c, (cutAtQuotes t).1, (cutAtQuotes t).2.head?.any (·.quote == c)⟩ :: (cutAtQuotes t).2)
    else (c :: (cutAtQuotes t).1, (cutAtQuotes t).2)

/-- The strips with literals exchanged from left to right. The name that was exchanged just before, if there is one, is not
exchanged again: its literal has the quote in between. -/
def translate (f : Key → Option Text) : Option Key → List Strip → List Strip
  | _, [] => []
  | last, s :: ss =>
    match if s.closed ∧ last ≠ some s.key then f s.key else none with
    | some p => { s with body := p } :: translate f (some s.key) ss
    | none => s :: translate f none ss

/-- Is there a literal to exchange? -/
def hits (f : Key → Option Text) (ss : List Strip) : Bool := ss.any fun s => s.closed && (f s.key).isSome

/-- A script with literals exchanged in one pass, or nothing when there is none to exchange. -/
def translated? (f : Key → Option Text) (js : Text) : Option Text :=
  if hits f (cutAtQuotes js).2 then some ((cutAtQuotes js).1 ++ join (translate f none (cutAtQuotes js).2)) else none

variable {f g : Key → Option Text} {t : Text}

/-! ## The cut -/

/-- A quote begins a strip. -/
theorem cutAtQuotes_quote {q : Char} (hq : isQuote q = true) (t : Text) : cutAtQuotes (q :: t) =
    ([], ⟨q, (cutAtQuotes t).1, (cutAtQuotes t).2.head?.any (·.quote == q)⟩ :: (cutAtQuotes t).2) := by
  rw [cutAtQuotes, if_pos hq]

/-- A character that is no quote belongs to the text in front. -/
theorem cutAtQuotes_cons {c : Char} (hc : isQuote c = false) (t : Text) :
    cutAtQuotes (c :: t) = (c :: (cutAtQuotes t).1, (cutAtQuotes t).2) := by
  rw [cutAtQuotes, if_neg (by simp [hc])]

/-- A text without quotes belongs to the text in front. -/
theorem cutAtQuotes_append {u : Text} (hu : ∀ c ∈ u, isQuote c = false) (t : Text) :
    cutAtQuotes (u ++ t) = (u ++ (cutAtQuotes t).1, (cutAtQuotes t).2) := by
  induction u with
  | nil => rfl
  | cons c u ih =>
    rw [List.forall_mem_cons] at hu
    rw [List.cons_append, cutAtQuotes_cons hu.1, ih hu.2, List.cons_append]

/-- The text in front and the strips are the text. -/
theorem join_cutAtQuotes (t : Text) : (cutAtQuotes t).1 ++ join (cutAtQuotes t).2 = t := by
  induction t with
  | nil => rfl
  | cons c t ih =>
    cases hc : isQuote c with
    | true => rw [cutAtQuotes_quote hc, List.nil_append, Strip.join_cons, ih]
    | false => rw [cutAtQuotes_cons hc, List.cons_append, ih]

/-- In front of the first quote there is none. -/
theorem not_isQuote_of_mem_front {c : Char} (h : c ∈ (cutAtQuotes t).1) : isQuote c = false := by
  induction t with
  | nil => cases h
  | cons d t ih =>
    cases hd : isQuote d with
    | true =>
      rw [cutAtQuotes_quote hd] at h
      cases h
    | false =>
      rw [cutAtQuotes_cons hd] at h
      rcases List.mem_cons.1 h with rfl | h
      · exact hd
      · exact ih h

/-- Each strip begins with a quote. -/
theorem isQuote_of_mem_strips {s : Strip} (h : s ∈ (cutAtQuotes t).2) : isQuote s.quote = true := by
  induction t with
  | nil => cases h
  | cons c t ih =>
    cases hc : isQuote c with
    | true =>
      rw [cutAtQuotes_quote hc] at h
      rcases List.mem_cons.1 h with rfl | h
      · exact hc
      · exact ih h
    | false =>
      rw [cutAtQuotes_cons hc] at h
      exact ih h

/-- A strip that is closed begins with a literal. -/
theorem prefix_of_closed {q : Char} (h : (cutAtQuotes t).2.head?.any (·.quote == q) = true) :
    (cutAtQuotes t).1 ++ [q] <+: t := by
  obtain ⟨s, hhead, hs⟩ := (Option.any_eq_true _ _).1 h
  obtain ⟨ss, hss⟩ := List.head?_eq_some_iff.1 hhead
  obtain rfl : s.quote = q := eq_of_beq hs
  refine ⟨s.body ++ join ss, ?_⟩
  calc (cutAtQuotes t).1 ++ [s.quote] ++ (s.body ++ join ss)
    _ = (cutAtQuotes t).1 ++ join (cutAtQuotes t).2 := by simp [hss]
    _ = t := join_cutAtQuotes t

/-- Every closed strip is a literal of the script. -/
theorem infix_of_closed {s : Strip} (hs : s ∈ (cutAtQuotes t).2) (hclosed : s.closed = true) :
    s.quote :: s.body ++ [s.quote] <:+: t := by
  induction t with
  | nil => cases hs
  | cons c t ih =>
    cases hc : isQuote c with
    | true =>
      rw [cutAtQuotes_quote hc] at hs
      rcases List.mem_cons.1 hs with rfl | hs
      · exact (List.cons_prefix_cons.2 ⟨rfl, prefix_of_closed hclosed⟩).isInfix
      · exact List.infix_cons (ih hs)
    | false =>
      rw [cutAtQuotes_cons hc] at hs
      exact List.infix_cons (ih hs)

/-! ## Passes -/

/-- What a pass does at a strip: it exchanges a literal, or goes on with nothing in mind. -/
theorem translate_cons (f : Key → Option Text) (last : Option Key) (s : Strip) (ss : List Strip) :
    (∃ p, s.closed = true ∧ last ≠ some s.key ∧ f s.key = some p ∧
      translate f last (s :: ss) = { s with body := p } :: translate f (some s.key) ss) ∨
    ((s.closed = true → last ≠ some s.key → f s.key = none) ∧ translate f last (s :: ss) = s :: translate f none ss) := by
  rw [translate]
  split
  · next p hp =>
    obtain ⟨hs, hp⟩ := Option.ite_none_right_eq_some.1 hp
    exact .inl ⟨p, hs.1, hs.2, hp, rfl⟩
  · next hnone => exact .inr ⟨fun hclosed hlast => by rwa [if_pos ⟨hclosed, hlast⟩] at hnone, rfl⟩

/-- A literal with a pseudonym is exchanged, unless it is the one exchanged just before. -/
theorem translate_cons_of_some {last : Option Key} {s : Strip} {ss : List Strip} {p : Text} (hclosed : s.closed = true)
    (hlast : last ≠ some s.key) (hp : f s.key = some p) :
    translate f last (s :: ss) = { s with body := p } :: translate f (some s.key) ss := by
  rw [translate, if_pos ⟨hclosed, hlast⟩, hp]

/-- A strip that is not exchanged stays, and the next one may be exchanged. -/
theorem translate_cons_of_none {last : Option Key} {s : Strip} {ss : List Strip}
    (h : s.closed = true → last ≠ some s.key → f s.key = none) : translate f last (s :: ss) = s :: translate f none ss := by
  rcases translate_cons f last s ss with ⟨p, hclosed, hlast, hp, -⟩ | ⟨-, heq⟩
  · rw [h hclosed hlast] at hp
    cases hp
  · exact heq

/-- Nothing is exchanged if no literal has a pseudonym. -/
theorem hits_eq_false_iff {ss : List Strip} : hits f ss = false ↔ ∀ s ∈ ss, s.closed = true → f s.key = none := by
  simp [hits]

/-- With nothing to exchange, a pass changes nothing. -/
theorem translate_of_not_hits {ss : List Strip} (h : hits f ss = false) (last : Option Key) : translate f last ss = ss := by
  rw [hits_eq_false_iff] at h
  induction ss generalizing last with
  | nil => rfl
  | cons s ss ih =>
    rw [List.forall_mem_cons] at h
    rw [translate_cons_of_none fun hclosed _ => h.1 hclosed, ih h.2]

/-- Only what is answered to the names of the strips counts. -/
theorem translate_congr {ss : List Strip} (h : ∀ s ∈ ss, f s.key = g s.key) (last : Option Key) :
    translate f last ss = translate g last ss := by
  induction ss generalizing last with
  | nil => rfl
  | cons s ss ih =>
    rw [List.forall_mem_cons] at h
    rw [translate, translate, h.1, ih h.2, ih h.2]

/-- Only the literals are looked at. -/
theorem hits_congr {ss : List Strip} (h : ∀ s ∈ ss, f s.key = g s.key) : hits f ss = hits g ss := by
  induction ss with
  | nil => rfl
  | cons s ss ih =>
    rw [List.forall_mem_cons] at h
    rw [hits, hits, List.any_cons, List.any_cons, h.1]
    exact congrArg _ (ih h.2)

/-- What becomes of a script depends on its literals only. -/
theorem translated?_congr (h : ∀ s ∈ (cutAtQuotes t).2, f s.key = g s.key) : translated? f t = translated? g t := by
  rw [translated?, translated?, hits_congr h, translate_congr h]

/-- The quotes stay in their places. -/
theorem head?_translate (last : Option Key) (ss : List Strip) :
    (translate f last ss).head?.map Strip.quote = ss.head?.map Strip.quote := by
  cases ss with
  | nil => rfl
  | cons s ss => rcases translate_cons f last s ss with ⟨p, -, -, -, heq⟩ | ⟨-, heq⟩ <;> rw [heq] <;> rfl

/-- A pass that writes no quotes leaves the script cut where it was. -/
theorem cutAtQuotes_join_translate (hf : ∀ k p, f k = some p → ∀ c ∈ p, isQuote c = false) (last : Option Key) (t : Text) :
    cutAtQuotes (join (translate f last (cutAtQuotes t).2)) = ([], translate f last (cutAtQuotes t).2) := by
  induction t generalizing last with
  | nil => rfl
  | cons c t ih =>
    cases hc : isQuote c with
    | false =>
      rw [cutAtQuotes_cons hc]
      exact ih last
    | true =>
      have hstrip {body : Text} (hbody : ∀ d ∈ body, isQuote d = false) (last : Option Key) :
          cutAtQuotes (c :: (body ++ join (translate f last (cutAtQuotes t).2))) =
            ([], ⟨c, body, (cutAtQuotes t).2.head?.any (·.quote == c)⟩ :: translate f last (cutAtQuotes t).2) := by
        have hhead := congrArg (Option.any (· == c)) (head?_translate (f := f) last (cutAtQuotes t).2)
        rw [Option.any_map, Option.any_map] at hhead
        rw [cutAtQuotes_quote hc, cutAtQuotes_append hbody, ih last, List.append_nil]
        exact congrArg (fun closed => ([], Strip.mk c body closed :: _)) hhead
      rw [cutAtQuotes_quote hc]
      rcases translate_cons f last ⟨c, (cutAtQuotes t).1, (cutAtQuotes t).2.head?.any (·.quote == c)⟩ (cutAtQuotes t).2 with
        ⟨p, -, -, hp, heq⟩ | ⟨-, heq⟩
      · rw [heq]
        exact hstrip (hf _ p hp) _
      · rw [heq]
        exact hstrip (fun d => not_isQuote_of_mem_front) none

/-- A script is cut after a pass where it was cut before. -/
theorem cutAtQuotes_translated (hf : ∀ k p, f k = some p → ∀ c ∈ p, isQuote c = false) (t : Text) :
    cutAtQuotes ((cutAtQuotes t).1 ++ join (translate f none (cutAtQuotes t).2)) =
      ((cutAtQuotes t).1, translate f none (cutAtQuotes t).2) := by
  rw [cutAtQuotes_append fun c => not_isQuote_of_mem_front, cutAtQuotes_join_translate hf, List.append_nil]

/-- Two passes whose names have nothing to do with each other are one pass. -/
theorem translate_translate (hdisjoint : ∀ k, f k ≠ none → g k = none) (himage : ∀ k p, f k = some p → g (k.1, p) = none)
    (last last' : Option Key) (hlast : ∀ k ∈ last, f k ≠ none) (hlast' : ∀ k ∈ last', g k ≠ none)
    (hone : last = none ∨ last' = none) (ss : List Strip) :
    translate g last' (translate f last ss) = translate (fun k => (f k).or (g k)) (last.or last') ss := by
  induction ss generalizing last last' with
  | nil => rfl
  | cons s ss ih =>
    rcases translate_cons f last s ss with ⟨p, hclosed, hne, hp, heq⟩ | ⟨hkeep, heq⟩
    · have hor : last.or last' ≠ some s.key := by
        rw [Ne, Option.or_eq_some_iff]
        rintro (h | ⟨-, h⟩)
        · exact hne h
        · exact hlast' _ h (hdisjoint _ (by simp [hp]))
      rw [heq, translate_cons_of_none (f := g) fun _ _ => himage _ _ hp,
        translate_cons_of_some hclosed hor (by rw [hp, Option.some_or]), ih _ _ (by simp [hp]) (by simp) (.inr rfl)]
      rfl
    · rw [heq]
      rcases translate_cons g last' s (translate f none ss) with ⟨p, hclosed, hne', hp, heq'⟩ | ⟨hkeep', heq'⟩
      · have hne : last ≠ some s.key := fun h => absurd (hdisjoint _ (hlast _ h)) (by simp [hp])
        have hor : last.or last' ≠ some s.key := by
          rw [Ne, Option.or_eq_some_iff]
          exact not_or.2 ⟨hne, fun h => hne' h.2⟩
        rw [heq', translate_cons_of_some hclosed hor (by rw [hkeep hclosed hne, hp, Option.none_or]),
          ih _ _ (by simp) (by simp [hp]) (.inl rfl)]
        rfl
      · have hnone : s.closed = true → last.or last' ≠ some s.key → (f s.key).or (g s.key) = none := by
          intro hclosed hor
          have hne : last ≠ some s.key := fun h => hor (by rw [h, Option.some_or])
          have hne' : last' ≠ some s.key := by
            rintro rfl
            rcases hone with rfl | h
            · exact hor rfl
            · cases h
          rw [hkeep hclosed hne, hkeep' hclosed hne', Option.or_none]
        rw [heq', translate_cons_of_none hnone, ih _ _ (by simp) (by simp) (.inl rfl)]
        rfl

/-- Two exchanges find a literal if one of them does. -/
theorem hits_or (ss : List Strip) : hits (fun k => (f k).or (g k)) ss = (hits f ss || hits g ss) := by
  induction ss with
  | nil => rfl
  | cons s ss ih =>
    simp only [hits, List.any_cons, Option.isSome_or] at ih ⊢
    rw [ih, Bool.and_or_distrib_left, Bool.or_assoc, Bool.or_assoc, Bool.or_left_comm (s.closed && (g s.key).isSome)]

/-- Whether there is anything to exchange or not, what comes out is the script after the pass. -/
theorem getD_translated? (f : Key → Option Text) (t : Text) :
    (translated? f t).getD t = (cutAtQuotes t).1 ++ join (translate f none (cutAtQuotes t).2) := by
  cases hhits : hits f (cutAtQuotes t).2 with
  | true => rw [translated?, if_pos hhits, Option.getD_some]
  | false => rw [translated?, hhits, translate_of_not_hits hhits, join_cutAtQuotes, if_neg Bool.false_ne_true, Option.getD_none]

/-- A pass over what another one has left. -/
theorem translated?_or (hf : ∀ k p, f k = some p → ∀ c ∈ p, isQuote c = false) (hdisjoint : ∀ k, f k ≠ none → g k = none)
    (himage : ∀ k p, f k = some p → g (k.1, p) = none) (t : Text) :
    (match translated? f t with
      | none => translated? g t
      | some t' => some ((translated? g t').getD t')) = translated? (fun k => (f k).or (g k)) t := by
  have htwo := translate_translate hdisjoint himage none none (by simp) (by simp) (.inl rfl) (cutAtQuotes t).2
  rw [Option.none_or] at htwo
  cases hhits : hits f (cutAtQuotes t).2 with
  | false =>
    rw [translate_of_not_hits hhits] at htwo
    simp only [translated?, hhits, hits_or, htwo, Bool.false_or, if_neg Bool.false_ne_true]
  | true =>
    have hsome : translated? f t = some ((cutAtQuotes t).1 ++ join (translate f none (cutAtQuotes t).2)) := if_pos hhits
    rw [hsome]
    simp only [getD_translated?, cutAtQuotes_translated hf, htwo]
    rw [translated?, hits_or, hhits, Bool.true_or, if_pos rfl]

/-! ## One literal -/

namespace Literal

variable {l : Literal}

/-- The name in the literal's quotes. -/
def key (l : Literal) : Key := (l.quote, l.name)

/-- What the exchange of a literal writes. -/
def answer (l : Literal) (k : Key) : Option Text := if k = l.key then some l.pseudonym else none

/-- Name and pseudonym stand between quotes, and there are none in them. -/
structure IsQuoted (l : Literal) : Prop where
  quote : isQuote l.quote = true
  name : ∀ c ∈ l.name, isQuote c = false
  pseudonym : ∀ c ∈ l.pseudonym, isQuote c = false

/-- Whether a literal begins does not depend on what is before it. -/
theorem forward_text (l : Literal) : (Piece.literal l.text).Forward where
  before _ _ _ := rfl
  nil _ := rfl

/-- Where the literal does not begin, a character stays. -/
theorem pieces_cons_of_ne {c : Char} (h : ¬l.text <+: c :: t) : l.pieces (c :: t) = .fixed [c] :: l.pieces t := by
  have hnone : Piece.literal l.text none (c :: t) = none := by
    rw [Piece.literal, if_neg (by rwa [List.isPrefixOf_iff_prefix])]
  rw [pieces, Piece.cut, Piece.search, hnone]
  exact congrArg _ (Piece.search_drop l.forward_text 0 _ t)

/-- Where the literal begins, it is a name. -/
theorem pieces_text_append (t : Text) : l.pieces (l.text ++ t) = .name l.text :: l.pieces t := by
  have hsome : Piece.literal l.text none (l.text ++ t) = some ([.name l.text], (l.name ++ [l.quote]).length + 1) :=
    if_pos (List.isPrefixOf_iff_prefix.2 (List.prefix_append _ _))
  have htext : l.text ++ t = l.quote :: (l.name ++ [l.quote] ++ t) := rfl
  rw [htext] at hsome
  rw [htext, pieces, Piece.cut, Piece.search, hsome]
  refine congrArg _ ((Piece.search_drop l.forward_text _ _ _).trans ?_)
  rw [List.drop_left]
  rfl

/-- Where a literal begins, two strips do: that of its name, and one from its last quote. -/
theorem cutAtQuotes_text_append (hl : l.IsQuoted) (t : Text) : ∃ closed, cutAtQuotes (l.text ++ t) =
    ([], ⟨l.quote, l.name, true⟩ :: ⟨l.quote, (cutAtQuotes t).1, closed⟩ :: (cutAtQuotes t).2) := by
  refine ⟨(cutAtQuotes t).2.head?.any (·.quote == l.quote), ?_⟩
  have htext : l.text ++ t = l.quote :: (l.name ++ l.quote :: t) := by simp [text]
  rw [htext, cutAtQuotes_quote hl.quote, cutAtQuotes_append hl.name, cutAtQuotes_quote hl.quote, List.append_nil]
  simp

/-- The pieces of a script at a literal are those of a pass. -/
theorem exchange_pieces (hl : l.IsQuoted) (t : Text) :
    exchange (fun _ => some l.image) (l.pieces t) = (cutAtQuotes t).1 ++ join (translate l.answer none (cutAtQuotes t).2) ∧
    (names (l.pieces t) = [] ↔ hits l.answer (cutAtQuotes t).2 = false) := by
  induction hn : t.length using Nat.strong_induction_on generalizing t with
  | _ n ih =>
    by_cases hprefix : l.text <+: t
    · obtain ⟨rest, rfl⟩ := hprefix
      obtain ⟨ih, -⟩ := ih rest.length (by simp [← hn, text]; omega) rest rfl
      obtain ⟨closed, hcut⟩ := cutAtQuotes_text_append hl rest
      have hself : l.answer l.key = some l.pseudonym := if_pos rfl
      -- the literal's second quote begins a strip that is not exchanged
      have htranslate : translate l.answer none (cutAtQuotes (l.text ++ rest)).2 = ⟨l.quote, l.pseudonym, true⟩ ::
          ⟨l.quote, (cutAtQuotes rest).1, closed⟩ :: translate l.answer none (cutAtQuotes rest).2 := by
        rw [hcut, translate_cons_of_some rfl (by simp) (by exact hself), translate_cons_of_none]
        exact fun _ hne => if_neg fun h => hne (congrArg some h.symm)
      rw [htranslate, pieces_text_append, hcut]
      constructor
      · rw [exchange, ih, image]
        simp
      · have hhits : hits l.answer
            (⟨l.quote, l.name, true⟩ :: ⟨l.quote, (cutAtQuotes rest).1, closed⟩ :: (cutAtQuotes rest).2) = true := by
          rw [hits, List.any_cons]
          exact Bool.or_eq_true_iff.2 (.inl (congrArg Option.isSome hself))
        simp [hhits]
    · cases t with
      | nil => exact ⟨rfl, by simp [pieces, Piece.cut, Piece.search, Piece.literal, text, hits, cutAtQuotes]⟩
      | cons c t =>
        obtain ⟨ih, ihnames⟩ := ih t.length (by simp [← hn]) t rfl
        rw [pieces_cons_of_ne hprefix]
        cases hc : isQuote c with
        | false => simp [cutAtQuotes_cons hc, exchange, ih, ihnames]
        | true =>
          have hkeep : (cutAtQuotes t).2.head?.any (·.quote == c) = true → l.answer (c, (cutAtQuotes t).1) = none := by
            refine fun hclosed => if_neg fun hkey => hprefix ?_
            obtain ⟨rfl, hname⟩ := Prod.mk.inj hkey
            rw [text, ← hname]
            exact List.cons_prefix_cons.2 ⟨rfl, prefix_of_closed hclosed⟩
          rw [cutAtQuotes_quote hc, translate_cons_of_none fun hclosed _ => hkeep hclosed]
          refine ⟨by simp [exchange, ih], ?_⟩
          rw [hits_eq_false_iff] at ihnames ⊢
          exact ihnames.trans ⟨fun h => List.forall_mem_cons.2 ⟨hkeep, h⟩, fun h => (List.forall_mem_cons.1 h).2⟩

/-- The exchange of one literal is a pass. -/
theorem exchange?_eq (hl : l.IsQuoted) (t : Text) : l.exchange? t = translated? l.answer t := by
  obtain ⟨htext, hnames⟩ := exchange_pieces hl t
  have hzero : exchanged (fun _ => some l.image) (l.pieces t) = 0 ↔ names (l.pieces t) = [] := by
    rw [Piece.exchanged_eq_zero_iff, List.eq_nil_iff_forall_not_mem]
    exact forall₂_congr fun n hn => by simp
  rw [exchange?, Piece.exchange?, translated?, htext]
  cases hhits : hits l.answer (cutAtQuotes t).2 with
  | false => rw [if_pos (hzero.2 (hnames.2 hhits)), if_neg Bool.false_ne_true]
  | true =>
    rw [if_neg fun h => ?_, if_pos rfl]
    rw [hnames.1 (hzero.1 h)] at hhits
    cases hhits

end Literal

/-! ## A codebook's literals -/

/-- What literals write that are exchanged one after the other. -/
def answers (ls : List Literal) (k : Key) : Option Text := (ls.find? (·.key = k)).map Literal.pseudonym

/-- The first literal that stands for a key answers for it. -/
theorem answers_cons (l : Literal) (ls : List Literal) (k : Key) : answers (l :: ls) k = (l.answer k).or (answers ls k) := by
  rw [answers, List.find?_cons, Literal.answer]
  by_cases h : l.key = k
  · simp [h]
  · simp [h, Ne.symm h, answers]

/-- An answer is the pseudonym of a literal. -/
theorem exists_of_answers {ls : List Literal} {k : Key} {p : Text} (h : answers ls k = some p) :
    ∃ l ∈ ls, l.key = k ∧ l.pseudonym = p := by
  obtain ⟨l, hl, hp⟩ := Option.map_eq_some_iff.1 h
  exact ⟨l, List.mem_of_find?_eq_some hl, by simpa using List.find?_some hl, hp⟩

/-- Literals that are exchanged one after the other are exchanged in one pass, when each has its own name and no pseudonym is the
name of another. -/
theorem inTurn_exchange? {ls : List Literal} (hquoted : ∀ l ∈ ls, l.IsQuoted) (hkeys : (ls.map Literal.key).Nodup)
    (hfresh : ∀ l ∈ ls, ∀ l' ∈ ls, l.pseudonym ≠ l'.name) (t : Text) :
    Substitution.inTurn Literal.exchange? ls t = translated? (answers ls) t := by
  induction ls generalizing t with
  | nil =>
    have : hits (answers []) (cutAtQuotes t).2 = false := hits_eq_false_iff.2 fun _ _ _ => rfl
    rw [Substitution.inTurn, translated?, if_neg (by simp [this])]
  | cons l ls ih =>
    rw [List.map_cons, List.nodup_cons] at hkeys
    have ih := ih (fun l hl => hquoted l (List.mem_cons_of_mem _ hl)) hkeys.2
      (fun l hl l' hl' => hfresh l (List.mem_cons_of_mem _ hl) l' (List.mem_cons_of_mem _ hl'))
    have hanswer {k : Key} {p : Text} (h : l.answer k = some p) : k = l.key ∧ p = l.pseudonym := by
      obtain ⟨hk, hp⟩ := Option.ite_none_right_eq_some.1 h
      exact ⟨hk, (Option.some.inj hp).symm⟩
    have hnone {k : Key} (h : ∀ l' ∈ ls, l'.key ≠ k) : answers ls k = none := by
      rw [Option.eq_none_iff_forall_ne_some]
      intro p hp
      obtain ⟨l', hl', hk, -⟩ := exists_of_answers hp
      exact h l' hl' hk
    simp only [Substitution.inTurn, Literal.exchange?_eq (hquoted l List.mem_cons_self), ih]
    rw [funext (answers_cons l ls)]
    refine translated?_or ?_ ?_ ?_ t
    · intro k p hp
      rw [(hanswer hp).2]
      exact (hquoted l List.mem_cons_self).pseudonym
    · intro k hk
      obtain ⟨p, hp⟩ := Option.ne_none_iff_exists'.1 hk
      rw [(hanswer hp).1]
      exact hnone fun l' hl' hkey => hkeys.1 (hkey ▸ List.mem_map_of_mem hl')
    · intro k p hp
      rw [(hanswer hp).2]
      exact hnone fun l' hl' hkey => hfresh l List.mem_cons_self l' (List.mem_cons_of_mem _ hl') (Prod.mk.inj hkey).2.symm

/-- A codebook of quote-free texts in which no pseudonym is a name. -/
structure IsLiteralCodebook (b : Codebook) : Prop where
  nodup : b.names.Nodup
  names : ∀ n ∈ b.names, ∀ c ∈ n, isQuote c = false
  pseudonyms : ∀ p ∈ b.pseudonyms, ∀ c ∈ p, isQuote c = false
  fresh : ∀ p ∈ b.pseudonyms, p ∉ b.names

/-- The literals of a codebook are its names in either quote. -/
theorem mem_literals_iff {b : Codebook} {l : Literal} :
    l ∈ literals b ↔ isQuote l.quote = true ∧ (l.name, l.pseudonym) ∈ b.entries := by
  obtain ⟨q, n, p⟩ := l
  simp only [literals, List.mem_flatMap, List.mem_cons, List.not_mem_nil, or_false, Literal.mk.injEq, isQuote_iff]
  constructor
  · rintro ⟨⟨n', p'⟩, he, ⟨rfl, rfl, rfl⟩ | ⟨rfl, rfl, rfl⟩⟩
    · exact ⟨.inl rfl, he⟩
    · exact ⟨.inr rfl, he⟩
  · rintro ⟨rfl | rfl, he⟩
    · exact ⟨_, he, .inl ⟨rfl, rfl, rfl⟩⟩
    · exact ⟨_, he, .inr ⟨rfl, rfl, rfl⟩⟩

/-- Distinct names have distinct literals. -/
theorem nodup_keys {b : Codebook} (hb : b.names.Nodup) : ((literals b).map Literal.key).Nodup := by
  have hkeys : (literals b).map Literal.key = b.names.flatMap fun n => [('\'', n), ('"', n)] := by
    rw [literals, List.map_flatMap, Codebook.names, List.flatMap_map]
    rfl
  rw [hkeys, List.nodup_flatMap]
  refine ⟨fun n _ => by simp, hb.imp fun hne => ?_⟩
  simp [Function.onFun, Ne.symm hne]

/-- The literals of a codebook answer with its pseudonyms. -/
theorem answers_literals {b : Codebook} {k : Key} (hk : isQuote k.1 = true) : answers (literals b) k = b.get? k.2 := by
  obtain ⟨entries⟩ := b
  induction entries with
  | nil => rfl
  | cons e entries ih =>
    obtain ⟨n, p⟩ := e
    have hsplit : literals ⟨(n, p) :: entries⟩ = ⟨'\'', n, p⟩ :: ⟨'"', n, p⟩ :: literals ⟨entries⟩ := rfl
    have hget : Codebook.get? ⟨(n, p) :: entries⟩ k.2 = (if k.2 = n then some p else none).or (Codebook.get? ⟨entries⟩ k.2) := by
      by_cases h : k.2 = n
      · simp [Codebook.get?, h]
      · simp [Codebook.get?, List.lookup_cons, h, beq_eq_false_iff_ne.2 h]
    rw [hsplit, answers_cons, answers_cons, ih, hget, ← Option.or_assoc]
    obtain ⟨q, m⟩ := k
    refine congrArg (Option.or · _) ?_
    rcases isQuote_iff.1 hk with rfl | rfl <;> by_cases h : m = n <;> simp [Literal.answer, Literal.key, h]

/-- The literals of a codebook are exchanged as in one pass from left to right. -/
theorem rename_eq {b : Codebook} (hb : IsLiteralCodebook b) (js : Text) :
    rename b js = translated? (fun k => b.get? k.2) js := by
  have hname {l : Literal} (hl : l ∈ literals b) : l.name ∈ b.names := List.mem_map_of_mem (mem_literals_iff.1 hl).2
  have hpseudonym {l : Literal} (hl : l ∈ literals b) : l.pseudonym ∈ b.pseudonyms :=
    List.mem_map_of_mem (mem_literals_iff.1 hl).2
  rw [rename, inTurn_exchange?]
  · exact translated?_congr fun s hs => answers_literals (isQuote_of_mem_strips hs)
  · exact fun l hl => ⟨(mem_literals_iff.1 hl).1, hb.names _ (hname hl), hb.pseudonyms _ (hpseudonym hl)⟩
  · exact nodup_keys hb.nodup
  · exact fun l hl l' hl' h => hb.fresh _ (hpseudonym hl) (h ▸ hname hl')

end Pseudonym.Script
