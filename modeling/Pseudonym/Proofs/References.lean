import Pseudonym.Proofs.Codebook
import Pseudonym.Proofs.Extension
import Pseudonym.Proofs.FileNameRuns

/-!
# References are exchanged at once

The entries of a codebook are taken in turn, and each sees what the ones before it have written. When the names and the pseudonyms
are file names and no pseudonym is a name, this is the exchange of all names in one pass over the runs of the text
(`rename_eq_onePass`). One entry exchanges the runs that lead with its name (`exchange?_eq`); behind the beginning of a run nothing
is exchanged, and no occurrence that is passed over reaches into the next run (`search_inside`).
-/

namespace Pseudonym.Reference

open RunsAux

namespace ReferenceAux

variable {n : Text} (hn : n ≠ []) (hc : ∀ c ∈ n, isFileNameChar c = true)

include hn hc

/-- A file name does not begin where no file-name character stands. -/
theorem not_isPrefixOf {t : Text} (ht : beginsInName t = false) : n.isPrefixOf t = false := by
  cases n with
  | nil => exact absurd rfl hn
  | cons d n =>
    cases t with
    | nil => rfl
    | cons c t =>
      have hd := hc d List.mem_cons_self
      have hne : d ≠ c := by
        rintro rfl
        simp [beginsInName, hd] at ht
      simp [List.isPrefixOf, hne]

omit hn in
/-- A file name that a run and what follows it begin with lies within the run. -/
theorem isPrefix_run {w t : Text} (ht : beginsInName t = false) (h : n <+: w ++ t) : n <+: w := by
  induction w generalizing n with
  | nil =>
    cases n with
    | nil => exact List.prefix_refl _
    | cons d n =>
      have := not_isPrefixOf (by simp) hc ht
      rw [List.nil_append, ← List.isPrefixOf_iff_prefix, this] at h
      cases h
  | cons c w ih =>
    cases n with
    | nil => exact List.nil_prefix
    | cons d n =>
      rw [List.cons_append, List.cons_prefix_cons] at h
      obtain ⟨rfl, h⟩ := h
      exact (List.prefix_cons_inj d).2 (ih (fun x hx => hc x (List.mem_cons_of_mem _ hx)) h)

/-- Between runs nothing is found, whatever stands before. -/
theorem search_outside {c : Char} (h : isFileNameChar c = false) (before : Option Char) (t : Text) :
    Piece.search (occurrence n) 0 before (c :: t) = .fixed [c] :: Piece.search (occurrence n) 0 (some c) t := by
  rw [Piece.search]
  simp [occurrence, not_isPrefixOf hn hc (t := c :: t) (by simpa [beginsInName] using h)]

/-- Behind a character of a file name nothing is found before the run ends: an occurrence there is passed over, and with it nothing
that lies behind the run. -/
theorem search_inside {t : Text} (ht : beginsInName t = false) (w : Text) (k : Nat) (c : Char) (hk : k ≤ w.length)
    (hcw : ∀ x ∈ c :: w, isFileNameChar x = true) :
    ∃ qs, Piece.search (occurrence n) k (some c) (w ++ t) = qs ++ pieces n t ∧ Piece.names qs = [] ∧
      Piece.join qs = w.drop k := by
  induction w generalizing k c with
  | nil =>
    obtain rfl : k = 0 := by simpa using hk
    refine ⟨[], ?_, rfl, rfl⟩
    cases t with
    | nil => simp [pieces, Piece.cut, Piece.search, occurrence, not_isPrefixOf hn hc (t := []) rfl]
    | cons d t =>
      have hd : isFileNameChar d = false := by simpa [beginsInName] using ht
      simp [pieces, Piece.cut, search_outside hn hc hd]
  | cons d w ih =>
    have hdw : ∀ x ∈ d :: w, isFileNameChar x = true := fun x hx => hcw x (List.mem_cons_of_mem _ hx)
    cases k with
    | succ k =>
      obtain ⟨qs, h1, h2, h3⟩ := ih k d (by simpa using hk) hdw
      exact ⟨qs, by rw [List.cons_append, Piece.search, h1], h2, by simpa using h3⟩
    | zero =>
      have hstart : startsBehind (some c) = false := by simp [startsBehind, hcw c List.mem_cons_self]
      rw [List.cons_append, Piece.search]
      by_cases hp : n.isPrefixOf (d :: (w ++ t)) = true
      · have hp' : n <+: (d :: w) ++ t := List.isPrefixOf_iff_prefix.1 hp
        obtain ⟨r, hr⟩ := isPrefix_run hc ht hp'
        cases n with
        | nil => exact absurd rfl hn
        | cons e n =>
          obtain ⟨rfl, hw⟩ : e = d ∧ n ++ r = w := by simpa using hr
          obtain ⟨qs, h1, h2, h3⟩ := ih n.length e (by rw [← hw]; simp) hdw
          refine ⟨.fixed (e :: n) :: qs, ?_, h2, ?_⟩
          · simp [occurrence, hp, hstart, h1]
          · rw [Piece.join_cons, h3, ← hw]
            simp
      · obtain ⟨qs, h1, h2, h3⟩ := ih 0 d (Nat.zero_le _) hdw
        refine ⟨.fixed [d] :: qs, ?_, h2, ?_⟩
        · simp [occurrence, hp, h1]
        · rw [Piece.join_cons, h3]
          rfl

omit hn hc in
/-- A name ends before the rest of a run exactly when that rest leads with no name. -/
theorem endsBefore_run {w t : Text} (hw : ∀ x ∈ w, isFileNameChar x = true) (ht : beginsInName t = false) :
    endsBefore (w ++ t) = (leadName w).isEmpty := by
  have hblank : ∀ {d : Char} {u : Text}, t = d :: u → isIdentChar d = false ∧ d ≠ '.' := by
    rintro d u rfl
    simpa [beginsInName, isFileNameChar] using ht
  cases w with
  | nil =>
    cases t with
    | nil => rfl
    | cons d u =>
      obtain ⟨h1, h2⟩ := hblank rfl
      unfold endsBefore
      split <;> simp_all [leadName]
  | cons c w =>
    by_cases hdot : c = '.'
    · subst hdot
      cases w with
      | nil =>
        cases t with
        | nil => rfl
        | cons d u =>
          obtain ⟨h1, h2⟩ := hblank rfl
          simp [endsBefore, leadName, h1]
      | cons d w => cases h : isIdentChar d <;> simp [endsBefore, leadName, h]
    · have hi := isIdentChar_of_ne_dot (hw c List.mem_cons_self) hdot
      rw [List.cons_append]
      unfold endsBefore
      split <;> simp_all [leadName]

end ReferenceAux

open ReferenceAux

/-! ## One entry -/

/-- A name stands at the beginning of a run and ends there, before the rest of the run and the text behind it. -/
def begins (n w t : Text) : Bool := n.isPrefixOf w && endsBefore (w.drop n.length ++ t)

section Run

variable {n : Text} (hn : n ≠ []) (hc : ∀ c ∈ n, isFileNameChar c = true)

include hn hc

theorem pieces_nil : pieces n [] = [] := by
  simp [pieces, Piece.cut, Piece.search, occurrence, not_isPrefixOf hn hc (t := []) rfl]

/-- A character that is in no file name is a piece of its own. -/
theorem pieces_of_not_fileNameChar {c : Char} (h : isFileNameChar c = false) (t : Text) :
    pieces n (c :: t) = .fixed [c] :: pieces n t := by
  rw [pieces, Piece.cut, search_outside hn hc h]
  congr 1
  -- a character outside file names before the text is as good as none
  cases t with
  | nil => simp [pieces, Piece.cut, Piece.search, occurrence, not_isPrefixOf hn hc (t := []) rfl]
  | cons d t => simp [pieces, Piece.cut, Piece.search, occurrence, startsBehind, h]

/-- A run is cut at the name that it begins with, if the name ends there, and nowhere else. -/
theorem pieces_run {w t : Text} (h : IsRun w t) : ∃ qs, Piece.names qs = [] ∧
    pieces n (w ++ t) = (if begins n w t then [.name n] else []) ++ qs ++ pieces n t ∧
    Piece.join qs = if begins n w t then w.drop n.length else w := by
  obtain ⟨c, w, rfl⟩ := List.exists_cons_of_ne_nil h.nonempty
  have hstart : startsBehind none = true := rfl
  rw [pieces, Piece.cut, List.cons_append, Piece.search]
  by_cases hp : n.isPrefixOf (c :: w) = true
  · obtain ⟨r, hr⟩ := List.isPrefixOf_iff_prefix.1 hp
    have hp' : n.isPrefixOf (c :: (w ++ t)) = true :=
      List.isPrefixOf_iff_prefix.2 ((List.isPrefixOf_iff_prefix.1 hp).trans (List.prefix_append _ t))
    obtain ⟨e, m, rfl⟩ := List.exists_cons_of_ne_nil hn
    obtain ⟨rfl, hw⟩ : e = c ∧ m ++ r = w := by simpa using hr
    have hends : endsBefore ((w ++ t).drop m.length) = endsBefore (r ++ t) := by
      rw [← hw, List.append_assoc, List.drop_left' rfl]
    have hbegins : begins (e :: m) (e :: w) t = endsBefore (r ++ t) := by
      rw [begins, hp, Bool.true_and, ← hw, List.length_cons, List.drop_succ_cons, List.drop_left' rfl]
    obtain ⟨qs, h1, h2, h3⟩ := search_inside hn hc h.ends w m.length e (by rw [← hw]; simp) h.chars
    rw [hbegins]
    by_cases hl : endsBefore (r ++ t) = true
    · refine ⟨qs, h2, ?_, ?_⟩
      · simp [occurrence, hp', hstart, hends, hl, h1]
      · rw [if_pos hl, h3]
        rfl
    · refine ⟨.fixed (e :: m) :: qs, h2, ?_, ?_⟩
      · simp [occurrence, hp', hstart, hends, hl, h1]
      · rw [if_neg hl, Piece.join_cons, h3, ← hw]
        simp
  · have hp' : ¬n.isPrefixOf (c :: (w ++ t)) = true := by
      intro hp'
      exact hp (List.isPrefixOf_iff_prefix.2 (isPrefix_run hc h.ends (List.isPrefixOf_iff_prefix.1 hp')))
    have hbegins : begins n (c :: w) t = false := by
      rw [begins, Bool.eq_false_iff.2 hp, Bool.false_and]
    obtain ⟨qs, h1, h2, h3⟩ := search_inside hn hc h.ends w 0 c (Nat.zero_le _) h.chars
    rw [hbegins]
    refine ⟨.fixed [c] :: qs, h2, ?_, ?_⟩
    · simp [occurrence, hp', h1]
    · rw [Piece.join_cons, h3]
      rfl

end Run

/-- A file name begins a run exactly when it is the name that the run leads with. -/
theorem begins_iff {n w t : Text} (hn : IsFileName n) (h : IsRun w t) : begins n w t = true ↔ leadName w = n := by
  rw [begins, Bool.and_eq_true, List.isPrefixOf_iff_prefix]
  constructor
  · rintro ⟨⟨r, rfl⟩, hends⟩
    have hr : ∀ x ∈ r, isFileNameChar x = true := fun x hx => h.chars x (List.mem_append_right _ hx)
    rw [List.drop_left' rfl, endsBefore_run hr h.ends, List.isEmpty_iff] at hends
    rw [hn.leadName_append, hends, List.append_nil]
  · rintro rfl
    refine ⟨leadName_begins w, ?_⟩
    have hdrop : ∀ x ∈ w.drop (leadName w).length, isFileNameChar x = true := fun x hx => h.chars x (List.mem_of_mem_drop hx)
    rw [endsBefore_run hdrop h.ends, leadName_drop]
    rfl

/-- The exchange of one name. -/
def single (n p : Text) (m : Text) : Option Text := if m = n then some p else none

/-- One entry exchanges the runs that lead with its name. -/
theorem exchange_pieces {n : Text} (hn : IsFileName n) (p t : Text) :
    Piece.exchange (fun _ => some p) (pieces n t) = Piece.exchange (single n p) (nameCut t) := by
  induction t using run_induction with
  | nil => rw [pieces_nil hn.nonempty hn.chars]; rfl
  | char c t hc ih =>
    simp [pieces_of_not_fileNameChar hn.nonempty hn.chars hc, nameCut_of_not_fileNameChar hc, Piece.exchange, ih]
  | run w t h ih =>
    obtain ⟨qs, h1, h2, h3⟩ := pieces_run hn.nonempty hn.chars h
    simp only [begins_iff hn h] at h2 h3
    rw [h2, nameCut_append h, Piece.exchange_append, Piece.exchange_append, Piece.exchange_of_names_eq_nil h1, h3, ih]
    by_cases hl : leadName w = n
    · simp [hl, Piece.exchange, single]
    · simp [hl, Piece.exchange, single, ← List.append_assoc, leadName_append_drop]

/-- As many references are exchanged as names are that the runs begin with. -/
theorem exchanged_pieces {n : Text} (hn : IsFileName n) (p t : Text) :
    Piece.exchanged (fun _ => some p) (pieces n t) = Piece.exchanged (single n p) (nameCut t) := by
  induction t using run_induction with
  | nil => rw [pieces_nil hn.nonempty hn.chars]; rfl
  | char c t hc ih =>
    rw [pieces_of_not_fileNameChar hn.nonempty hn.chars hc, nameCut_of_not_fileNameChar hc]
    exact ih
  | run w t h ih =>
    obtain ⟨qs, h1, h2, -⟩ := pieces_run hn.nonempty hn.chars h
    simp only [begins_iff hn h] at h2
    rw [h2, nameCut_append h, Piece.exchanged_append, Piece.exchanged_append, ih]
    by_cases hl : leadName w = n <;> simp [Piece.exchanged, hl, h1, single, Nat.add_comm]

/-- To exchange the references to one file is to exchange the names that runs begin with. -/
theorem exchange?_eq {n : Text} (hn : IsFileName n) (p t : Text) :
    exchange? (n, p) t = Piece.exchange? (single n p) (nameCut t) := by
  simp only [exchange?, Piece.exchange?]
  rw [exchange_pieces hn, exchanged_pieces hn]

/-! ## All entries -/

/-- The entries of a codebook whose names and pseudonyms are file names, no pseudonym being a name. -/
structure Exchangeable (entries : List (Text × Text)) : Prop where
  name : ∀ e ∈ entries, IsFileName e.1
  pseudonym : ∀ e ∈ entries, IsFileName e.2
  fresh : ∀ e ∈ entries, e.2 ∉ entries.map (·.1)

/-- What can be exchanged in one pass can be without the first entry. -/
theorem Exchangeable.tail {e : Text × Text} {es : List (Text × Text)} (h : Exchangeable (e :: es)) : Exchangeable es where
  name := fun x hx => h.name x (List.mem_cons_of_mem _ hx)
  pseudonym := fun x hx => h.pseudonym x (List.mem_cons_of_mem _ hx)
  fresh := fun x hx hm => h.fresh x (List.mem_cons_of_mem _ hx) (List.mem_cons_of_mem _ hm)

/-- What is not listed is not found. -/
theorem lookup_eq_none {es : List (Text × Text)} {n : Text} (h : n ∉ es.map (·.1)) : es.lookup n = none := by
  rw [List.lookup_eq_none_iff]
  intro e he
  simpa using fun hne => h (List.mem_map.2 ⟨e, he, hne.symm⟩)

/-- Entries taken in turn exchange the names of the runs all at once. -/
theorem inTurn_exchange? {es : List (Text × Text)} (h : Exchangeable es) (t : Text) :
    Substitution.inTurn exchange? es t = Piece.exchange? (fun n => es.lookup n) (nameCut t) := by
  induction es generalizing t with
  | nil => simp [Substitution.inTurn, Piece.exchange?, Piece.exchanged]
  | cons e es ih =>
    obtain ⟨n, p⟩ := e
    have hn : IsFileName n := h.name _ List.mem_cons_self
    have hp : IsFileName p := h.pseudonym _ List.mem_cons_self
    have hfree : es.lookup p = none := by
      have := h.fresh _ List.mem_cons_self
      rw [List.map_cons, List.mem_cons, not_or] at this
      exact lookup_eq_none this.2
    have hlook (m : Text) : List.lookup m ((n, p) :: es) = if m = n then some p else es.lookup m := by
      by_cases hm : m = n
      · simp [hm]
      · rw [List.lookup_cons, beq_eq_false_iff_ne.2 hm, if_neg hm]
    rw [Substitution.inTurn, exchange?_eq hn]
    cases hx : Piece.exchange? (single n p) (nameCut t) with
    | none =>
      have hne := Piece.exchange?_eq_none_iff.1 hx
      simp only [ih h.tail]
      refine Piece.exchange?_congr fun m hm => ?_
      have : m ≠ n := by
        rintro rfl
        simpa [single] using hne m hm
      rw [hlook, if_neg this]
    | some t' =>
      obtain ⟨⟨m, hm, hmn⟩, rfl⟩ := Piece.exchange?_eq_some_iff.1 hx
      have hsingle : ∀ m q, single n p m = some q → IsFileName q := by
        intro m q hq
        unfold single at hq
        split at hq
        · cases hq
          exact hp
        · cases hq
      simp only [ih h.tail, nameCut_exchange hsingle]
      rw [← Piece.join_swap, Piece.getD_exchange?, eq_comm, Piece.exchange?_eq_some_iff]
      refine ⟨⟨m, hm, ?_⟩, ?_⟩
      · obtain rfl : m = n := by
          by_contra hne
          exact hmn (by simp [single, hne])
        simp [hlook]
      · rw [Piece.exchange_swap]
        refine Piece.exchange_congr fun m _ => ?_
        -- the pseudonym is no later name, and a name that was not exchanged is looked up as before
        by_cases hm : m = n
        · simp [Piece.imageOf, hlook, hm, single, hfree]
        · simp [Piece.imageOf, hlook, hm, single]

/-! ## The codebook of images -/

/-- A codebook of file names with tokens of the same extension, in which no token is a name. -/
structure IsImageCodebook (b : Codebook) : Prop where
  distinct : b.names.Nodup
  name : ∀ n ∈ b.names, IsFileName n
  token : ∀ e ∈ b.entries, IsFileToken (textExtension? e.1) e.2
  fresh : ∀ p ∈ b.pseudonyms, p ∉ b.names

/-- A token made for a file name is a file name: the one dot that it may hold is followed by what followed the last dot of the
name. -/
theorem IsFileName.token {n p : Text} (hn : IsFileName n) (hp : IsFileToken (textExtension? n) p) : IsFileName p := by
  have hchars : ∀ c ∈ p, isFileNameChar c = true :=
    hp.forall_mem (fun c hc => isFileNameChar_of_isIdentChar (Token.isIdentChar_of_mem_alphanumerics c hc)) hn.chars
  obtain ⟨s, hlen, hs, rfl⟩ := hp
  have hsne : s ≠ [] := by
    rintro rfl
    cases hlen
  have hsdot : '.' ∉ s := fun h => absurd (Token.isIdentChar_of_mem_alphanumerics _ (hs _ h)) (by decide)
  rw [isFileName_iff, List.all_eq_true, leadName_append_of_not_mem hsdot]
  refine ⟨by simp [hsne], hchars, ?_⟩
  congr 1
  unfold Token.extensionSuffix
  split
  · next x ext he =>
    obtain ⟨pre, -, hname, hdot⟩ := textExtension?_eq_some he
    rw [leadName_dot, if_pos (hn.dots pre _ hname)]
    simpa [leadName] using leadName_append_of_not_mem hdot []
  · rfl

/-- The entries of a codebook of images can be exchanged in one pass. -/
theorem IsImageCodebook.exchangeable {b : Codebook} (h : IsImageCodebook b) : Exchangeable b.entries where
  name := fun _ he => h.name _ (List.mem_map_of_mem he)
  pseudonym := fun e he => (h.name _ (List.mem_map_of_mem he)).token (h.token e he)
  fresh := fun _ he => h.fresh _ (List.mem_map_of_mem he)

/-- A codebook of images is one in any order. -/
theorem IsImageCodebook.perm {b b' : Codebook} (h : IsImageCodebook b) (hp : b'.entries.Perm b.entries) :
    IsImageCodebook b' where
  distinct := (hp.map _).nodup_iff.2 h.distinct
  name := fun n hn => h.name n ((hp.map _).mem_iff.1 hn)
  token := fun e he => h.token e (hp.mem_iff.1 he)
  fresh := fun p hp' hn => h.fresh p ((hp.map _).mem_iff.1 hp') ((hp.map _).mem_iff.1 hn)

/-- Its references are exchanged in one pass. -/
theorem IsImageCodebook.rename {b : Codebook} (h : IsImageCodebook b) (t : Text) : Reference.rename b t = onePass b t :=
  inTurn_exchange? h.exchangeable t

/-- The entries of a codebook of images are exchanged all at once. A text is renamed as one pass over its runs renames it; the order
of the entries means nothing; a run that leads with no name of the codebook stays as it is, whatever stands around it; and nothing
is renamed exactly when every run is one of these. -/
theorem rename_eq_onePass {b : Codebook} (h : IsImageCodebook b) :
    (∀ t, rename b t = onePass b t) ∧
    (∀ b' : Codebook, b'.entries.Perm b.entries → ∀ t, rename b' t = rename b t) ∧
    (∀ u w v, u.getLast?.any isFileNameChar = false → IsRun w v → leadName w ∉ b.names →
      (rename b (u ++ w ++ v)).getD (u ++ w ++ v) = (rename b u).getD u ++ w ++ (rename b v).getD v) ∧
    (∀ t, rename b t = none ↔ ∀ r, .name r ∈ runs t → leadName r ∉ b.names) := by
  refine ⟨h.rename, ?_, ?_, ?_⟩
  · intro b' hp t
    rw [h.rename, (h.perm hp).rename]
    exact Piece.exchange?_congr fun n _ => Codebook.get?_perm h.distinct hp n
  · intro u w v hu hw hl
    have hgetD (t : Text) : (Reference.rename b t).getD t = Piece.exchange b.get? (nameCut t) := by
      have := Piece.getD_exchange? (f := b.get?) (nameCut t)
      rwa [join_nameCut, ← onePass, ← h.rename] at this
    have himage : Piece.imageOf b.get? (leadName w) = leadName w := by
      rw [Piece.imageOf, Codebook.get?_eq_none_iff.2 hl, Option.getD_none]
    rw [hgetD, hgetD, hgetD, List.append_assoc u w v, nameCut_append_of_ends hu, nameCut_append hw, Piece.exchange_append]
    simp only [Piece.exchange]
    rw [← Piece.imageOf, himage, ← List.append_assoc (leadName w), leadName_append_drop, List.append_assoc]
  · intro t
    rw [h.rename, onePass, Piece.exchange?_eq_none_iff]
    simp only [mem_names_nameCut, Codebook.get?_eq_none_iff]
    constructor
    · exact fun hr r hm => hr _ ⟨r, hm, rfl⟩
    · rintro hr n ⟨r, hm, rfl⟩
      exact hr r hm

namespace LogoWitness

/-- Three images, the name of one ending in the name of another and one without an extension. -/
def book : Codebook :=
  ⟨[("logo.png".toList, "a1B2c3D4e5.png".toList), ("mylogo.png".toList, "zZ0yY1xX2w.png".toList),
    ("LICENSE".toList, "0123456789".toList)]⟩

/-- The same entries, the last one first. -/
def reversed : Codebook := ⟨book.entries.reverse⟩

/-- Two references, one of them before the dot of a sentence. -/
def text : Text := "img/mylogo.png, logo.png.".toList

/-- The names of the book are file names, and no pseudonym is one of them. -/
theorem isImageCodebook : IsImageCodebook book where
  distinct := by decide
  name := by decide
  token := by
    have hmade {s : Text} (h : s ⊆ Token.alphanumerics) : ∀ c ∈ s, c ∈ Token.alphanumerics := fun c hc => h hc
    intro e he
    simp only [book, List.mem_cons, List.not_mem_nil, or_false] at he
    rcases he with rfl | rfl | rfl
    · exact ⟨"a1B2c3D4e5".toList, by decide, hmade (by decide), by decide⟩
    · exact ⟨"zZ0yY1xX2w".toList, by decide, hmade (by decide), by decide⟩
    · exact ⟨"0123456789".toList, by decide, hmade (by decide), by decide⟩
  fresh := by decide

end LogoWitness

open LogoWitness in
/-- A name, another one that ends in it, and a dot behind a name, in either order of the book. -/
theorem rename_logo : IsImageCodebook book ∧
    rename book text = onePass book text ∧
    onePass book text = some "img/zZ0yY1xX2w.png, a1B2c3D4e5.png.".toList ∧
    rename reversed text = rename book text ∧
    (rename book ("logo.png ".toList ++ "logo.png.bak".toList ++ " LICENSE".toList)).getD
        ("logo.png ".toList ++ "logo.png.bak".toList ++ " LICENSE".toList) =
      (rename book "logo.png ".toList).getD "logo.png ".toList ++ "logo.png.bak".toList ++
        (rename book " LICENSE".toList).getD " LICENSE".toList := by
  obtain ⟨h1, h2, h3, -⟩ := rename_eq_onePass isImageCodebook
  refine ⟨isImageCodebook, h1 text, by decide, h2 reversed (List.reverse_perm _) text, ?_⟩
  exact h3 _ _ _ (by decide) ⟨by decide, List.all_eq_true.1 (by decide), by decide⟩ (by decide)

end Pseudonym.Reference
