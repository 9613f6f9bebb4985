import Mathlib.Data.Prod.Lex
import Pseudonym.Proofs.Respellings
import Pseudonym.Proofs.Skips

/-!
# An exchange makes a text heavier

Names are exchanged one at a time, in a script and for references on a text that changes all the time, and a pseudonym may be longer
than its name or shorter, and hold anything. The exchanges cannot cancel out all the same, because each one makes the text heavier
(`weight`). The weight of a text is first of all the number of its characters outside words. A pseudonym that brings none of these is
a word that is no name, or nothing; then there is one name less among the words. Only the empty name is no word, and what is put
in its place makes the text longer.
-/

namespace Pseudonym

open Piece (exchange exchange? join names)

/-! ## Weights -/

/-- The weight of a text, by the number of its characters outside words and of its words that are names. -/
def weight (breaks words : Text → ℕ) (t : Text) : ℕ ×ₗ ℕᵒᵈ ×ₗ ℕ := toLex (breaks t, toLex (OrderDual.toDual (words t), t.length))

/-- A name exchanged for something else makes a text heavier. -/
theorem weight_lt {breaks words : Text → ℕ} {u n p v : Text} (hne : p ≠ n)
    (hbreaks : breaks (u ++ (p ++ v)) = breaks (u ++ (n ++ v)) + breaks p)
    (hwords : breaks p = 0 → words (u ++ (n ++ v)) = words (u ++ (p ++ v)) + if n = [] then 0 else 1) :
    weight breaks words (u ++ (n ++ v)) < weight breaks words (u ++ (p ++ v)) := by
  rw [weight, weight, Prod.Lex.toLex_lt_toLex, hbreaks]
  rcases Nat.eq_zero_or_pos (breaks p) with hzero | hpos
  · refine .inr ⟨by simp [hzero], Prod.Lex.toLex_lt_toLex.2 ?_⟩
    have hwords := hwords hzero
    by_cases hn : n = []
    · subst hn
      rw [if_pos rfl] at hwords
      have := List.length_pos_iff.2 hne
      exact .inr ⟨congrArg OrderDual.toDual hwords, by simp; omega⟩
    · rw [if_neg hn] at hwords
      exact .inl (OrderDual.toDual_lt_toDual.2 (by omega))
  · exact .inl (by simp; omega)

/-- A codebook of names of a kind, none of which is a pseudonym. -/
structure Codebook.IsFresh (b : Codebook) (kind : Text → Prop) : Prop where
  names : ∀ n ∈ b.names, kind n
  fresh : ∀ p ∈ b.pseudonyms, p ∉ b.names

/-! ## Class names -/

/-- The words of a text: its longest runs of identifier characters. -/
def identifiers (t : Text) : List Text := (t.splitOnP (!isIdentChar ·)).filter (!·.isEmpty)

/-- The words of a text in front of a character that is in none of them, and those behind it. -/
theorem identifiers_append_cons {c : Char} (hc : isIdentChar c = false) (u v : Text) :
    identifiers (u ++ c :: v) = identifiers u ++ identifiers v := by
  rw [identifiers, List.splitOnP_append_cons _ _ (by simpa using hc), List.filter_append]
  rfl

/-- No word goes on from one text into the next. -/
theorem identifiers_append {u v : Text} (h : u.getLast?.any isIdentChar = false ∨ v.head?.any isIdentChar = false) :
    identifiers (u ++ v) = identifiers u ++ identifiers v := by
  have hnil : identifiers [] = [] := by simp [identifiers]
  rcases h with hu | hv
  · rcases List.eq_nil_or_concat u with rfl | ⟨u, c, rfl⟩
    · rw [hnil]; rfl
    · rw [List.concat_eq_append, List.getLast?_concat] at hu
      rw [List.concat_eq_append, List.append_assoc, List.singleton_append, identifiers_append_cons (by simpa using hu),
        identifiers_append_cons (by simpa using hu), hnil, List.append_nil]
  · cases v with
    | nil => rw [hnil, List.append_nil, List.append_nil]
    | cons c v =>
      have hc : isIdentChar c = false := by simpa using hv
      have hv := identifiers_append_cons hc [] v
      rw [hnil, List.nil_append, List.nil_append] at hv
      rw [identifiers_append_cons hc, hv]

/-- A text of identifier characters is one word, or it is empty. -/
theorem identifiers_of_forall {r : Text} (hr : ∀ c ∈ r, isIdentChar c = true) :
    identifiers r = if r = [] then [] else [r] := by
  rw [identifiers, List.splitOnP_eq_singleton (by simpa using hr)]
  by_cases h : r = [] <;> simp [h]

section Words

/-- The weight of a text of class names. -/
def classWeight (b : Codebook) : Text → ℕ ×ₗ ℕᵒᵈ ×ₗ ℕ :=
  weight (·.countP (!isIdentChar ·)) fun t => (identifiers t).countP b.contains

variable {b : Codebook} (hb : b.IsFresh fun n => ∀ c ∈ n, isIdentChar c = true)

include hb

/-- A class name exchanged where it is a word makes a text heavier. -/
theorem classWeight_lt {u v n p : Text} (hentry : (n, p) ∈ b.entries)
    (hu : u.getLast?.any isIdentChar = false) (hv : v.head?.any isIdentChar = false) :
    classWeight b (u ++ (n ++ v)) < classWeight b (u ++ (p ++ v)) := by
  have hn : n ∈ b.names := List.mem_map_of_mem hentry
  have hp : p ∉ b.names := hb.fresh p (List.mem_map_of_mem hentry)
  have hchars := hb.names n hn
  have hcut (x : Text) : identifiers (u ++ (x ++ v)) = identifiers u ++ (identifiers x ++ identifiers v) := by
    rw [identifiers_append (.inl hu), identifiers_append (.inr hv)]
  refine weight_lt (by rintro rfl; exact hp hn) ?_ fun hbreaks => ?_
  · have hzero : n.countP (!isIdentChar ·) = 0 := List.countP_eq_zero.2 fun c hc => by simp [hchars c hc]
    simp only [List.countP_append, hzero]
    omega
  · have hpchars : ∀ c ∈ p, isIdentChar c = true := by simpa [List.countP_eq_zero] using hbreaks
    simp only [hcut, List.countP_append, identifiers_of_forall hchars, identifiers_of_forall hpchars]
    by_cases hnil : n = [] <;> by_cases hpnil : p = [] <;> simp [hnil, hpnil, Codebook.contains_iff_mem_names, hn, hp] <;> omega

/-- Exchanging its class names makes a text heavier. -/
theorem Language.classWeight_lt {l : Language} {t out : Text} (h : l.rename b t = some out) : classWeight b t < classWeight b out :=
  Language.wordwise (R := fun s t => classWeight b s < classWeight b t)
    ⟨fun _ _ _ => lt_trans, fun hn hbetween => Pseudonym.classWeight_lt hb hn (Reference.isIdentChar_of_isBetween hbetween).1
      (Reference.isIdentChar_of_isBetween hbetween).2⟩ h

end Words

/-! ## References -/

namespace Reference

/-- The number of characters that stand in no file name: dots that no identifier character follows are among them. -/
def breaks : Text → ℕ
  | [] => 0
  | c :: t => (if isIdentChar c || c == '.' && t.head?.any isIdentChar then 0 else 1) + breaks t

/-- The breaks of a text are those of its parts, unless a dot is parted from what follows it. -/
theorem breaks_append {u v : Text} (h : u.getLast? ≠ some '.' ∨ v.head?.any isIdentChar = false) :
    breaks (u ++ v) = breaks u + breaks v := by
  induction u with
  | nil => simp [breaks]
  | cons c u ih =>
    cases u with
    | nil =>
      rcases h with hu | hv
      · have hc : c ≠ '.' := by simpa using hu
        simp [breaks, hc]
      · simp [breaks, hv]
    | cons d u =>
      rw [List.cons_append, breaks, breaks, ih (by simpa using h), List.cons_append, List.head?_cons, List.head?_cons, Nat.add_assoc]

theorem breaks_cons_eq_zero_iff {c : Char} {t : Text} :
    breaks (c :: t) = 0 ↔ (isIdentChar c = true ∨ c = '.' ∧ t.head?.any isIdentChar = true) ∧ breaks t = 0 := by
  cases hc : isIdentChar c <;> simp [breaks, hc]

/-- A text without breaks is a file name, or it is empty. -/
theorem breaks_eq_zero_iff {n : Text} : breaks n = 0 ↔ (n ≠ [] → IsFileName n) := by
  induction n with
  | nil => simp [breaks]
  | cons c t ih =>
    rw [breaks_cons_eq_zero_iff, ih]
    constructor
    · rintro ⟨hc, ht⟩ -
      have hchars : ∀ d ∈ t, isFileNameChar d = true := fun d hd => (ht (List.ne_nil_of_mem hd)).chars d hd
      refine ⟨List.cons_ne_nil c t, List.forall_mem_cons.2 ⟨?_, hchars⟩, fun s u hsplit => ?_⟩
      · rcases hc with hc | ⟨rfl, -⟩
        · exact isFileNameChar_of_isIdentChar hc
        · rfl
      · cases s with
        | nil =>
          obtain ⟨rfl, rfl⟩ := List.cons.inj hsplit
          exact (hc.resolve_left (by decide)).2
        | cons d s =>
          obtain ⟨rfl, rfl⟩ := List.cons.inj hsplit
          exact (ht (by simp)).dots s u rfl
    · intro h
      have hname := h (List.cons_ne_nil c t)
      refine ⟨?_, fun ht => ⟨ht, fun d hd => hname.chars d (List.mem_cons_of_mem _ hd), RunsAux.dots_tail hname.dots⟩⟩
      by_cases hc : c = '.'
      · subst hc
        exact .inr ⟨rfl, hname.dots [] t rfl⟩
      · exact .inl (RunsAux.isIdentChar_of_ne_dot (hname.chars c List.mem_cons_self) hc)

/-- The names that begin a run of file-name characters. -/
def leading (t : Text) : List Text := (names (nameCut t)).filter (!·.isEmpty)

/-- The weight of a text of file names. -/
def fileWeight (b : Codebook) : Text → ℕ ×ₗ ℕᵒᵈ ×ₗ ℕ := weight breaks fun t => (leading t).countP b.contains

theorem leading_append {u : Text} (hu : startsBehind u.getLast? = true) (v : Text) : leading (u ++ v) = leading u ++ leading v := by
  rw [leading, nameCut_append_of_ends (by simpa [startsBehind] using hu), Piece.names_append, List.filter_append]
  rfl

/-- A run has the name at its beginning. -/
theorem leading_run {w t : Text} (h : IsRun w t) : leading (w ++ t) = (if leadName w = [] then [] else [leadName w]) ++ leading t := by
  rw [leading, nameCut_append h, Piece.names_name, Piece.names_fixed, List.filter_cons]
  by_cases hlead : leadName w = [] <;> simp [hlead, leading]

/-- A file name that ends before a text leads what is made of the two. -/
theorem leading_of_endsBefore {n v : Text} (hn : n ≠ [] → IsFileName n) (hv : endsBefore v = true) :
    leading (n ++ v) = (if n = [] then [] else [n]) ++ leading v := by
  by_cases hnil : n = []
  · simp [hnil]
  · obtain ⟨w, t, rfl, hw, ht⟩ := exists_run v
    rw [ReferenceAux.endsBefore_run hw ht, List.isEmpty_iff] at hv
    have hrun : IsRun (n ++ w) t :=
      ⟨by simp [hnil], fun c hc => (List.mem_append.1 hc).elim ((hn hnil).chars c) (hw c), ht⟩
    rw [← List.append_assoc, leading_run hrun, (hn hnil).leadName_append, hv, List.append_nil]
    by_cases hwnil : w = []
    · simp [hwnil]
    · rw [leading_run ⟨hwnil, hw, ht⟩, hv, if_pos rfl, List.nil_append]

theorem around_of_ne_nil {n t : Text} {before : Option Char} (hne : n ≠ []) (hn : ∀ c ∈ n, isFileNameChar c = true) {qs rs : List Piece}
    (h : Piece.search (occurrence n) 0 before t = qs ++ .name n :: rs) (f : Text → Option Text) :
    startsBehind ((exchange f qs).getLast?.or before) = true ∧ endsBefore (join rs) = true := by
  refine ⟨?_, (isReference_of_search hne h).2⟩
  induction before, t using search_induction hne generalizing qs with
  | hnil before => rw [search_nil hne] at h; simp at h
  | hchar before c t hp ih =>
    rw [search_char hp] at h
    cases qs with
    | nil => cases h
    | cons q qs =>
      obtain ⟨rfl, hrest⟩ := List.cons.inj h
      rw [exchange, List.singleton_append, getLast?_cons_or]
      exact ih hrest
  | hname before t ih =>
    rw [search_name hne] at h
    cases qs with
    | nil =>
      obtain ⟨hq, -⟩ := List.cons.inj h
      split at hq
      · next hwhole => exact (Bool.and_eq_true .. ▸ hwhole).1
      · cases hq
    | cons q qs =>
      -- no reference follows at once on an occurrence
      have ih := ih (List.cons.inj h).2
      rw [← List.singleton_append, Piece.exchange_append, List.getLast?_append]
      cases hlast : (exchange f qs).getLast? with
      | none =>
        rw [hlast, Option.none_or, List.getLast?_eq_some_getLast hne, startsBehind, Option.any_some, hn _ (List.getLast_mem hne)] at ih
        cases ih
      | some c =>
        rw [hlast] at ih
        exact ih

/-- The empty name is looked for before each character, and at the end. -/
theorem search_empty_cons (before : Option Char) (c : Char) (t : Text) : ∃ q, Piece.search (occurrence []) 0 before (c :: t) =
    q :: .fixed [c] :: Piece.search (occurrence []) 0 (some c) t := ⟨_, rfl⟩

theorem around_head {t : Text} {before : Option Char} {rs : List Piece}
    (h : Piece.search (occurrence []) 0 before t = .name [] :: rs) : startsBehind before = true ∧ endsBefore (join rs) = true := by
  have hjoin := congrArg join h
  rw [Piece.join_search (splits_occurrence []), List.drop_zero, Piece.join_cons, Piece.text_name, List.nil_append] at hjoin
  obtain ⟨ps, hps⟩ : ∃ ps, Piece.search (occurrence []) 0 before t =
      (if startsBehind before && endsBefore t then .name [] else .fixed []) :: ps := by
    cases t <;> exact ⟨_, rfl⟩
  have hhead := (List.cons.inj (hps.symm.trans h)).1
  split at hhead
  · next hwhole => rwa [hjoin, Bool.and_eq_true] at hwhole
  · cases hhead

theorem around_of_eq_nil {t : Text} {before : Option Char} {qs rs : List Piece}
    (h : Piece.search (occurrence []) 0 before t = qs ++ .name [] :: rs) (f : Text → Option Text) :
    startsBehind ((exchange f qs).getLast?.or before) = true ∧ endsBefore (join rs) = true := by
  induction t generalizing before qs with
  | nil =>
    cases qs with
    | nil => exact around_head h
    | cons q qs => simp [Piece.search, occurrence] at h
  | cons c t ih =>
    cases qs with
    | nil => exact around_head h
    | cons q qs =>
      obtain ⟨q', hq'⟩ := search_empty_cons before c t
      have htail := (List.cons.inj (hq'.symm.trans h)).2
      cases qs with
      | nil => cases htail
      | cons q₁ qs =>
        obtain ⟨rfl, hrest⟩ := List.cons.inj htail
        have hlast : exchange f (q :: .fixed [c] :: qs) = exchange f [q] ++ c :: exchange f qs := by
          rw [← List.singleton_append, Piece.exchange_append]
          rfl
        rw [hlast, List.getLast?_append, List.getLast?_cons, Option.some_or, Option.some_or, ← Option.or_some]
        exact ih hrest

/-- What is exchanged is a reference, whatever has come in the place of the references before it. -/
theorem around_name {n t : Text} (hn : n ≠ [] → IsFileName n) {qs rs : List Piece} (h : pieces n t = qs ++ .name n :: rs)
    (f : Text → Option Text) : startsBehind (exchange f qs).getLast? = true ∧ endsBefore (join rs) = true := by
  rw [← Option.or_none (o := (exchange f qs).getLast?)]
  by_cases hnil : n = []
  · subst hnil
    exact around_of_eq_nil h f
  · exact around_of_ne_nil hnil (hn hnil).chars h f

variable {b : Codebook} (hb : b.IsFresh fun n => n ≠ [] → IsFileName n)

include hb

/-- A file name exchanged where it is a reference makes a text heavier. -/
theorem fileWeight_lt {u v n p : Text} (hentry : (n, p) ∈ b.entries) (hu : startsBehind u.getLast? = true)
    (hv : endsBefore v = true) : fileWeight b (u ++ (n ++ v)) < fileWeight b (u ++ (p ++ v)) := by
  have hn : n ∈ b.names := List.mem_map_of_mem hentry
  have hp : p ∉ b.names := hb.fresh p (List.mem_map_of_mem hentry)
  have hname := hb.names n hn
  have hdot : u.getLast? ≠ some '.' := by
    intro hdot
    rw [hdot] at hu
    cases hu
  have hcut (x : Text) : breaks (u ++ (x ++ v)) = breaks u + (breaks x + breaks v) := by
    rw [breaks_append (.inl hdot), breaks_append (.inr (head?_of_endsBefore hv))]
  refine weight_lt (by rintro rfl; exact hp hn) ?_ fun hbreaks => ?_
  · rw [hcut, hcut, breaks_eq_zero_iff.2 hname]
    omega
  · simp only [leading_append hu, leading_of_endsBefore hname hv, leading_of_endsBefore (breaks_eq_zero_iff.1 hbreaks) hv,
      List.countP_append]
    by_cases hnil : n = [] <;> by_cases hpnil : p = [] <;> simp [hnil, hpnil, Codebook.contains_iff_mem_names, hn, hp] <;> omega

/-- To exchange the references to one file makes a text heavier. -/
theorem exchange?_fileWeight_lt {e : Text × Text} (he : e ∈ b.entries) {s t : Text} (h : exchange? e s = some t) :
    fileWeight b s < fileWeight b t := by
  rw [← join_pieces e.1 s]
  refine Piece.exchange?_trans (R := fun s t => fileWeight b s < fileWeight b t) (fun _ _ _ => lt_trans) ?_ h
  intro qs n rs hps p hp
  obtain rfl : n = e.1 := names_pieces e.1 s n (by simp [hps])
  obtain rfl := Option.some.inj hp
  obtain ⟨hstart, hend⟩ := around_name (hb.names e.1 (List.mem_map_of_mem he)) hps fun _ => some e.2
  exact fileWeight_lt hb he hstart hend

/-- Exchanging its references makes a text heavier. -/
theorem rename_fileWeight_lt {t out : Text} (h : rename b t = some out) : fileWeight b t < fileWeight b out :=
  Substitution.inTurn_trans (R := fun s t => fileWeight b s < fileWeight b t) (fun _ _ _ => lt_trans)
    (fun _ he _ _ => exchange?_fileWeight_lt hb he) h

end Reference

end Pseudonym
