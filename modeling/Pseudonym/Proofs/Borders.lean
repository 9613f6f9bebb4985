import Pseudonym.Proofs.Charsets
import Pseudonym.Proofs.References

/-!
# References in quotes

A quote or a slash is a border: no character of a file name, and in no name of an image either. What is exchanged on one side of
a border does not depend on what stands on the other (`renamed_border`), so a reference in quotes is exchanged as its parts are
by themselves. For a file name this is the exchange for its pseudonym, whatever the other names are
(`IsLeafCodebook.renamed_fileName`); but in another name, one with a space in it for example, a second name may stand as a
reference of its own, and then the first one is exchanged in the middle of it (`rename_quoted_false`). `rename_quoted` says when
a reference in quotes stays one.
-/

namespace Pseudonym

/-- A text falls into two parts at its first border. -/
theorem border_inj {c : Char} {u u' v v' : Text} (hu : c ∉ u) (hu' : c ∉ u') (h : u ++ c :: v = u' ++ c :: v') :
    u = u' ∧ v = v' := by
  induction u generalizing u' with
  | nil =>
    cases u' with
    | nil => exact ⟨rfl, (List.cons.inj h).2⟩
    | cons d u' => exact absurd (by simp [(List.cons.inj h).1]) hu'
  | cons d u ih =>
    cases u' with
    | nil => exact absurd (by simp [(List.cons.inj h).1]) hu
    | cons e u' =>
      obtain ⟨rfl, htail⟩ := List.cons.inj h
      obtain ⟨rfl, hv⟩ := ih (fun hm => hu (List.mem_cons_of_mem _ hm)) (fun hm => hu' (List.mem_cons_of_mem _ hm)) htail
      exact ⟨rfl, hv⟩

/-- The text that substitutions made one after another leave. -/
theorem Substitution.getD_inTurn_cons {ε : Type} (step : ε → Text → Option Text) (e : ε) (es : List ε) (t : Text) :
    (inTurn step (e :: es) t).getD t = (inTurn step es ((step e t).getD t)).getD ((step e t).getD t) := by
  rw [inTurn]
  cases step e t <;> rfl

namespace Reference

/-- A text after an exchange of references, whether any was exchanged or not. -/
def renamed (b : Codebook) (t : Text) : Text := (rename b t).getD t

/-- The name stands in a text as a reference. -/
def Stands (n t : Text) : Prop := n ∈ Piece.names (pieces n t)

instance (n t : Text) : Decidable (Stands n t) := inferInstanceAs (Decidable (n ∈ Piece.names (pieces n t)))

/-- A reference to an image, in quotes. -/
def quoted (n : Text) : Text := '"' :: ("img".toList ++ '/' :: (n ++ ['"']))

/-- A quoted reference to an image, character by character. -/
theorem quoted_between (u n v : Text) : u ++ quoted n ++ v = u ++ '"' :: ("img".toList ++ '/' :: (n ++ '"' :: v)) := by
  rw [quoted, List.append_assoc, List.cons_append, List.append_assoc, List.cons_append, List.append_assoc]
  rfl

/-! ## One name -/

section Search

variable {n : Text}

theorem occurrence_nil (hn : n ≠ []) (before : Option Char) : occurrence n before [] = none := by
  cases n with
  | nil => exact absurd rfl hn
  | cons c n => rfl

/-- A search does not look behind a character that is no part of a file name. -/
theorem search_some_border {c : Char} (hc : isFileNameChar c = false) (t : Text) :
    Piece.search (occurrence n) 0 (some c) t = pieces n t := by
  have hocc (t : Text) : occurrence n (some c) t = occurrence n none t := by
    unfold occurrence startsBehind
    simp [hc]
  cases t with
  | nil => rw [pieces, Piece.cut, Piece.search, Piece.search, hocc]
  | cons d t => rw [pieces, Piece.cut, Piece.search, Piece.search, hocc]

/-- But for a dot, the next character alone tells whether a name can end. -/
theorem endsBefore_of_ne_dot {c : Char} (hc : c ≠ '.') (t : Text) : endsBefore (c :: t) = !isIdentChar c := by
  rw [endsBefore]
  intro d u h _
  exact hc h

/-- A name does not end before an identifier character. -/
theorem head?_of_endsBefore {t : Text} (h : endsBefore t = true) : t.head?.any isIdentChar = false := by
  cases t with
  | nil => rfl
  | cons c t =>
    by_cases hc : c = '.'
    · subst hc
      rfl
    · rw [endsBefore_of_ne_dot hc] at h
      simpa using h

/-- Whether a name can end before a text does not depend on what stands behind a border. -/
theorem endsBefore_border {c : Char} (hc : isFileNameChar c = false) (u v : Text) :
    endsBefore (u ++ c :: v) = endsBefore u := by
  obtain ⟨hident, hdot⟩ : isIdentChar c = false ∧ c ≠ '.' := by
    simpa [isFileNameChar] using hc
  cases u with
  | nil => rw [List.nil_append, endsBefore_of_ne_dot hdot, hident]; rfl
  | cons d u =>
    by_cases hd : d = '.'
    · subst hd
      cases u with
      | nil => simp only [List.cons_append, List.nil_append, endsBefore, hident]; decide
      | cons e u => rfl
    · rw [List.cons_append, endsBefore_of_ne_dot hd, endsBefore_of_ne_dot hd]

/-- A name without a border in it ends before the border, if it begins before it. -/
theorem isPrefixOf_border {c : Char} (hc : c ∉ n) (u v : Text) : n.isPrefixOf (u ++ c :: v) = n.isPrefixOf u := by
  induction u generalizing n with
  | nil =>
    cases n with
    | nil => rfl
    | cons d n =>
      rw [List.mem_cons, not_or] at hc
      simp [List.isPrefixOf, Ne.symm hc.1]
  | cons d u ih =>
    cases n with
    | nil => rfl
    | cons e n =>
      rw [List.mem_cons, not_or] at hc
      simp only [List.cons_append, List.isPrefixOf, ih hc.2]

/-- A character that is in no file name is the end of all that the search looks at. -/
theorem occurrence_border {c : Char} (hc : isFileNameChar c = false) (hcn : c ∉ n) (before : Option Char) (u v : Text) :
    occurrence n before (u ++ c :: v) = occurrence n before u := by
  unfold occurrence
  rw [isPrefixOf_border hcn]
  split
  · next hp =>
    obtain ⟨r, rfl⟩ := List.isPrefixOf_iff_prefix.1 hp
    rw [List.append_assoc, List.drop_left, List.drop_left, endsBefore_border hc]
  · rfl

/-- A text is searched on both sides of a border by itself. -/
theorem search_border {c : Char} (hn : n ≠ []) (hc : isFileNameChar c = false) (hcn : c ∉ n) (u v : Text) (k : Nat)
    (before : Option Char) (hk : k ≤ u.length) :
    Piece.search (occurrence n) k before (u ++ c :: v) =
      Piece.search (occurrence n) k before u ++ .fixed [c] :: pieces n v := by
  induction u generalizing k before with
  | nil =>
    obtain rfl : k = 0 := by simpa using hk
    have hocc := occurrence_border hc hcn before [] v
    rw [List.nil_append] at hocc
    rw [List.nil_append, Piece.search, Piece.search, hocc, occurrence_nil hn, search_some_border hc]
    rfl
  | cons d u ih =>
    cases k with
    | succ k =>
      rw [List.cons_append, Piece.search, Piece.search]
      exact ih k (some d) (by simpa using hk)
    | zero =>
      have hocc := occurrence_border hc hcn before (d :: u) v
      rw [List.cons_append] at hocc
      rw [List.cons_append, Piece.search, Piece.search, hocc]
      split
      · rw [ih 0 (some d) (Nat.zero_le _), List.cons_append]
      · rw [ih 0 (some d) (Nat.zero_le _), List.append_assoc, List.cons_append]
      · next ps k hps =>
        have hk := (splits_occurrence n _ _ _ _ hps).2
        rw [ih k (some d) (by simpa using hk), List.append_assoc]

/-- Behind a character of a file name no name stands, as long as characters of a file name follow. -/
theorem names_search_inside (hn : n ≠ []) {c : Char} (hc : isFileNameChar c = true) {w : Text}
    (hw : ∀ d ∈ w, isFileNameChar d = true) (k : Nat) : Piece.names (Piece.search (occurrence n) k (some c) w) = [] := by
  have hfixed {d : Char} {t : Text} {ps : List Piece} {k : Nat} (h : occurrence n (some d) t = some (ps, k))
      (hd : isFileNameChar d = true) : Piece.names ps = [] := by
    unfold occurrence startsBehind at h
    simp only [Option.any_some, hd, Bool.not_true, Bool.false_and] at h
    split at h
    · cases h
      rfl
    · cases h
  induction w generalizing k c with
  | nil =>
    cases k with
    | zero => rw [Piece.search, occurrence_nil hn]; rfl
    | succ k => rfl
  | cons d w ih =>
    have hrest := ih (hw d List.mem_cons_self) (fun e he => hw e (List.mem_cons_of_mem _ he))
    cases k with
    | succ k => exact hrest k
    | zero =>
      rw [Piece.search]
      split
      · exact hrest 0
      · next ps hps => rw [Piece.names_append, hfixed hps hc]; exact hrest 0
      · next ps k hps => rw [Piece.names_append, hfixed hps hc]; exact hrest k

/-- A file name goes on to its end. -/
theorem IsFileName.endsBefore_eq {r : Text} (h : IsFileName (n ++ r)) : endsBefore r = r.isEmpty := by
  have hr : ∀ d ∈ r, isFileNameChar d = true := fun d hd => h.chars d (List.mem_append_right _ hd)
  cases r with
  | nil => rfl
  | cons d r =>
    by_cases hd : d = '.'
    · subst hd
      have hdot := h.dots n r rfl
      cases r with
      | nil => cases hdot
      | cons e r =>
        rw [List.head?_cons, Option.any_some] at hdot
        simp [endsBefore, hdot]
    · have hident := RunsAux.isIdentChar_of_ne_dot (hr d List.mem_cons_self) hd
      rw [endsBefore_of_ne_dot hd, hident]
      rfl

/-- In a file name no other name stands. -/
theorem stands_fileName_iff (hn : n ≠ []) {a : Text} (ha : IsFileName a) : Stands n a ↔ n = a := by
  have hstart : startsBehind none = true := rfl
  obtain ⟨c, w, rfl⟩ := List.exists_cons_of_ne_nil ha.nonempty
  have hbehind := names_search_inside hn (ha.chars c List.mem_cons_self) fun d hd => ha.chars d (List.mem_cons_of_mem _ hd)
  unfold Stands pieces Piece.cut
  rw [Piece.search]
  by_cases hp : n.isPrefixOf (c :: w) = true
  · obtain ⟨r, hr⟩ := List.isPrefixOf_iff_prefix.1 hp
    obtain ⟨e, m, rfl⟩ := List.exists_cons_of_ne_nil hn
    have hends := IsFileName.endsBefore_eq (n := e :: m) (hr ▸ ha)
    have hocc : occurrence (e :: m) none (c :: w) =
        some ([if r.isEmpty then .name (e :: m) else .fixed (e :: m)], m.length + 1) := by
      rw [occurrence, if_pos hp, ← hr, List.drop_left, hends, hstart, Bool.true_and]
      rfl
    rw [hocc]
    simp only [Piece.names_append, hbehind]
    cases r with
    | nil =>
      rw [List.append_nil] at hr
      simp [hr]
    | cons d r => simp [← hr]
  · have hocc : occurrence n none (c :: w) = none := if_neg hp
    rw [hocc]
    simp only [Piece.names_fixed, hbehind, List.not_mem_nil, false_iff]
    rintro rfl
    exact hp (List.isPrefixOf_iff_prefix.2 (List.prefix_refl _))

/-- A name stands in itself, and nothing else does in there. -/
theorem pieces_self (hn : n ≠ []) : pieces n n = [.name n] := by
  have hpassed (t : Text) (before : Option Char) : Piece.search (occurrence n) t.length before t = [] := by
    induction t generalizing before with
    | nil => rw [List.length_nil, Piece.search, occurrence_nil hn]; rfl
    | cons c t ih => exact ih (some c)
  have hends : endsBefore [] = true := rfl
  have hstart : startsBehind none = true := rfl
  have hocc : occurrence n none n = some ([.name n], n.length) := by
    rw [occurrence, if_pos (List.isPrefixOf_iff_prefix.2 (List.prefix_refl _)), List.drop_length, hends, hstart]
    rfl
  obtain ⟨c, m, rfl⟩ := List.exists_cons_of_ne_nil hn
  rw [pieces, Piece.cut, Piece.search, hocc]
  simp only [List.length_cons, hpassed, List.append_nil]

/-- The names in a cut at one name are that name. -/
theorem names_pieces (n t : Text) : ∀ m ∈ Piece.names (pieces n t), m = n := by
  refine Piece.names_cut (P := (· = n)) ?_ t
  intro before t ps k h
  unfold occurrence at h
  split at h
  · cases h
    split <;> simp
  · cases h

end Search

/-! ## One entry -/

/-- The text after one entry has had its turn. -/
def exchanged (e : Text × Text) (t : Text) : Text := (exchange? e t).getD t

section Entry

variable {n p : Text}

/-- An exchange with one entry is one of pieces. -/
theorem exchanged_eq (n p t : Text) : exchanged (n, p) t = Piece.exchange (fun _ => some p) (pieces n t) := by
  have := Piece.getD_exchange? (f := fun _ => some p) (pieces n t)
  rwa [join_pieces] at this

/-- On either side of a character that is in no file name, references are exchanged independently. -/
theorem exchanged_border (hn : n ≠ []) {c : Char} (hc : isFileNameChar c = false) (hcn : c ∉ n) (u v : Text) :
    exchanged (n, p) (u ++ c :: v) = exchanged (n, p) u ++ c :: exchanged (n, p) v := by
  have hpieces : pieces n (u ++ c :: v) = pieces n u ++ .fixed [c] :: pieces n v :=
    search_border hn hc hcn u v 0 none (Nat.zero_le _)
  rw [exchanged_eq, exchanged_eq, exchanged_eq, hpieces, Piece.exchange_append]
  rfl

/-- Where the name does not stand, nothing is exchanged. -/
theorem exchanged_of_not_stands {t : Text} (h : ¬Stands n t) : exchanged (n, p) t = t := by
  have hnames : Piece.names (pieces n t) = [] := by
    refine List.eq_nil_iff_forall_not_mem.2 fun m hm => ?_
    rw [names_pieces n t m hm] at hm
    exact h hm
  rw [exchanged_eq, Piece.exchange_of_names_eq_nil hnames, join_pieces]

/-- The name alone is a reference. -/
theorem exchanged_self (hn : n ≠ []) : exchanged (n, p) n = p := by
  rw [exchanged_eq, pieces_self hn]
  exact List.append_nil p

end Entry

/-! ## All entries -/

/-- The entries of a codebook in turn. -/
theorem renamed_eq_foldl (b : Codebook) (t : Text) : renamed b t = b.entries.foldl (fun t e => exchanged e t) t := by
  unfold renamed rename
  induction b.entries generalizing t with
  | nil => rfl
  | cons e es ih => exact (Substitution.getD_inTurn_cons exchange? e es t).trans (ih _)

/-- A codebook that an image pass can make: no name is empty or has a border in it that is written around references, each has a
token with its extension, and no token is a name. -/
structure IsLeafCodebook (b : Codebook) : Prop where
  distinct : b.names.Nodup
  nonempty : ∀ n ∈ b.names, n ≠ []
  noBorder : ∀ n ∈ b.names, '"' ∉ n ∧ '/' ∉ n
  token : ∀ e ∈ b.entries, IsFileToken (textExtension? e.1) e.2
  fresh : ∀ p ∈ b.pseudonyms, p ∉ b.names

/-- What stands on one side of a border is exchanged whatever stands on the other. -/
theorem renamed_border {b : Codebook} (hne : ∀ n ∈ b.names, n ≠ []) {c : Char} (hc : isFileNameChar c = false)
    (hcb : ∀ n ∈ b.names, c ∉ n) (u v : Text) : renamed b (u ++ c :: v) = renamed b u ++ c :: renamed b v := by
  simp only [renamed_eq_foldl]
  obtain ⟨es⟩ := b
  induction es generalizing u v with
  | nil => rfl
  | cons e es ih =>
    rw [List.foldl_cons, List.foldl_cons, List.foldl_cons,
      exchanged_border (hne e.1 List.mem_cons_self) hc (hcb e.1 List.mem_cons_self)]
    exact ih _ _ (fun n hn => hne n (List.mem_cons_of_mem _ hn)) fun n hn => hcb n (List.mem_cons_of_mem _ hn)

/-- Where no name stands, nothing is exchanged. -/
theorem renamed_of_not_stands {b : Codebook} {t : Text} (h : ∀ n ∈ b.names, ¬Stands n t) : renamed b t = t := by
  rw [renamed_eq_foldl]
  obtain ⟨es⟩ := b
  induction es with
  | nil => rfl
  | cons e es ih =>
    rw [List.foldl_cons, exchanged_of_not_stands (h e.1 List.mem_cons_self)]
    exact ih fun n hn => h n (List.mem_cons_of_mem _ hn)

/-- A name in which no other name stands is exchanged for its pseudonym, if no name stands in there. -/
theorem renamed_name {b : Codebook} {a p : Text} (hne : a ≠ []) (ha : b.get? a = some p)
    (hother : ∀ n ∈ b.names, n ≠ a → ¬Stands n a) (hp : ∀ n ∈ b.names, ¬Stands n p) : renamed b a = p := by
  obtain ⟨es⟩ := b
  induction es with
  | nil => cases ha
  | cons e es ih =>
    obtain ⟨n, q⟩ := e
    have hp' : ∀ m ∈ (Codebook.mk es).names, ¬Stands m p := fun m hm => hp m (List.mem_cons_of_mem _ hm)
    rw [renamed_eq_foldl, List.foldl_cons]
    by_cases hn : a = n
    · subst hn
      rw [Codebook.get?, List.lookup_cons_self] at ha
      cases ha
      rw [exchanged_self hne]
      have := renamed_of_not_stands hp'
      rwa [renamed_eq_foldl] at this
    · rw [Codebook.get?, List.lookup_cons, beq_eq_false_iff_ne.2 hn] at ha
      rw [exchanged_of_not_stands (hother n List.mem_cons_self (Ne.symm hn))]
      have := ih ha (fun m hm => hother m (List.mem_cons_of_mem _ hm)) hp'
      rwa [renamed_eq_foldl] at this

namespace IsLeafCodebook

variable {b : Codebook} (h : IsLeafCodebook b)

include h

/-- A file name is exchanged for its pseudonym, whatever the other names are. -/
theorem renamed_fileName {a p : Text} (hget : b.get? a = some p) (ha : IsFileName a) : renamed b a = p := by
  have hp : IsFileName p := ha.token (h.token _ (Codebook.mem_entries_of_get? hget))
  refine renamed_name ha.nonempty hget ?_ ?_
  · intro n hn hna hstands
    exact hna ((stands_fileName_iff (h.nonempty n hn) ha).1 hstands)
  · intro n hn hstands
    obtain rfl := (stands_fileName_iff (h.nonempty n hn) hp).1 hstands
    exact h.fresh n (Codebook.mem_pseudonyms_of_get? hget) hn

/-- A file name that no image bears stays. -/
theorem renamed_of_not_mem {t : Text} (ht : IsFileName t) (hnot : t ∉ b.names) : renamed b t = t := by
  refine renamed_of_not_stands fun n hn hstands => hnot ?_
  rwa [← (stands_fileName_iff (h.nonempty n hn) ht).1 hstands]

/-- The name of the image directory stays, unless an image bears it. -/
theorem renamed_directory : renamed b "img".toList = "img".toList ↔ "img".toList ∉ b.names := by
  have hdir : IsFileName "img".toList := by decide
  constructor
  · intro hsame hmem
    cases hget : b.get? "img".toList with
    | none => exact Codebook.get?_eq_none_iff.1 hget hmem
    | some p =>
      rw [h.renamed_fileName hget hdir] at hsame
      exact h.fresh p (Codebook.mem_pseudonyms_of_get? hget) (hsame ▸ hmem)
  · exact h.renamed_of_not_mem hdir

/-- Whatever becomes of the name of the image directory, there is no slash in it. -/
theorem not_mem_renamed_directory : '/' ∉ renamed b "img".toList := by
  have hdir : IsFileName "img".toList := by decide
  have hname : IsFileName (renamed b "img".toList) := by
    cases hget : b.get? "img".toList with
    | none => rwa [h.renamed_of_not_mem hdir (Codebook.get?_eq_none_iff.1 hget)]
    | some p =>
      rw [h.renamed_fileName hget hdir]
      exact hdir.token (h.token _ (Codebook.mem_entries_of_get? hget))
  intro hslash
  cases hname.chars _ hslash

/-- A reference in quotes is exchanged part by part. -/
theorem renamed_quoted (u a v : Text) : renamed b (u ++ quoted a ++ v) =
    renamed b u ++ '"' :: (renamed b "img".toList ++ '/' :: (renamed b a ++ '"' :: renamed b v)) := by
  have hquote := fun n hn => (h.noBorder n hn).1
  have hslash := fun n hn => (h.noBorder n hn).2
  rw [quoted_between, renamed_border h.nonempty (by decide) hquote, renamed_border h.nonempty (by decide) hslash,
    renamed_border h.nonempty (by decide) hquote]

end IsLeafCodebook

/-- What becomes of references in quotes. Each is exchanged part by part, whatever stands around it. The reference to an image
becomes one to its pseudonym exactly when no image has the name of the image directory and the name of the image, by itself,
becomes its pseudonym. A file name does so whatever the other names are; any name does so, if no other name stands in it and
none in its pseudonym. -/
theorem rename_quoted {b : Codebook} (h : IsLeafCodebook b) :
    (∀ u a v, renamed b (u ++ quoted a ++ v) =
      renamed b u ++ '"' :: (renamed b "img".toList ++ '/' :: (renamed b a ++ '"' :: renamed b v))) ∧
    ∀ a p, b.get? a = some p →
      ((∀ u v, renamed b (u ++ quoted a ++ v) = renamed b u ++ quoted p ++ renamed b v) ↔
        "img".toList ∉ b.names ∧ renamed b a = p) ∧
      (IsFileName a → renamed b a = p) ∧
      ((∀ n ∈ b.names, n ≠ a → ¬Stands n a) → (∀ n ∈ b.names, ¬Stands n p) → renamed b a = p) := by
  refine ⟨h.renamed_quoted, ?_⟩
  intro a p hget
  refine ⟨?_, h.renamed_fileName hget, ?_⟩
  · constructor
    · intro hall
      have hempty := hall [] []
      rw [h.renamed_quoted, quoted_between] at hempty
      obtain ⟨hdir, hrest⟩ := border_inj h.not_mem_renamed_directory (by decide) (List.cons.inj (List.append_cancel_left hempty)).2
      exact ⟨h.renamed_directory.1 hdir, List.append_cancel_right hrest⟩
    · rintro ⟨hdir, ha⟩ u v
      rw [h.renamed_quoted, quoted_between, h.renamed_directory.2 hdir, ha]
  · intro hother hp
    refine renamed_name (h.nonempty a ?_) hget hother hp
    exact List.mem_map_of_mem (Codebook.mem_entries_of_get? hget)

namespace QuotedWitness

/-- Two images of which one has a space in its name and the other one stands behind it, and two more whose names do the same harm to
nobody. -/
def book : Codebook :=
  ⟨[("logo.png".toList, "0123456789.png".toList), ("my logo.png".toList, "9876543210.png".toList),
    ("é a.svg".toList, "abcdefghij.svg".toList), ("x..y".toList, "jihgfedcba.y".toList)]⟩

/-- The names of the codebook are distinct and can stand in a path. -/
theorem isLeafCodebook : IsLeafCodebook book where
  distinct := by decide
  nonempty := by decide
  noBorder := by decide
  token := by
    have hmade {s : Text} (h : s ⊆ Token.alphanumerics) : ∀ c ∈ s, c ∈ Token.alphanumerics := fun c hc => h hc
    intro e he
    simp only [book, List.mem_cons, List.not_mem_nil, or_false] at he
    rcases he with rfl | rfl | rfl | rfl
    · exact ⟨"0123456789".toList, by decide, hmade (by decide), by decide⟩
    · exact ⟨"9876543210".toList, by decide, hmade (by decide), by decide⟩
    · exact ⟨"abcdefghij".toList, by decide, hmade (by decide), by decide⟩
    · exact ⟨"jihgfedcba".toList, by decide, hmade (by decide), by decide⟩
  fresh := by decide

end QuotedWitness

open QuotedWitness in
/-- Of two images whose names end alike, the first in the codebook is taken for both; the others are exchanged as they should be. -/
theorem rename_quoted_spaces : IsLeafCodebook book ∧
    renamed book (quoted "my logo.png".toList) = quoted "my 0123456789.png".toList ∧
    (∀ u v, renamed book (u ++ quoted "logo.png".toList ++ v) = renamed book u ++ quoted "0123456789.png".toList ++ renamed book v) ∧
    (∀ u v, renamed book (u ++ quoted "é a.svg".toList ++ v) = renamed book u ++ quoted "abcdefghij.svg".toList ++ renamed book v) := by
  obtain ⟨hparts, hall⟩ := rename_quoted isLeafCodebook
  obtain ⟨hlogo, hname, -⟩ := hall "logo.png".toList "0123456789.png".toList (by decide)
  obtain ⟨hsvg, -, hother⟩ := hall "é a.svg".toList "abcdefghij.svg".toList (by decide)
  refine ⟨isLeafCodebook, by decide, hlogo.2 ⟨by decide, hname (by decide)⟩, hsvg.2 ⟨by decide, hother (by decide) (by decide)⟩⟩

open QuotedWitness in
/-- Not every reference to an image becomes one to its pseudonym: in the name of one image another one may stand behind a space, and
it is exchanged there. -/
theorem rename_quoted_false : ¬∀ b : Codebook, IsLeafCodebook b → ∀ a p, b.get? a = some p →
    ∀ u v, renamed b (u ++ quoted a ++ v) = renamed b u ++ quoted p ++ renamed b v := by
  intro hall
  have hsame := hall book isLeafCodebook "my logo.png".toList "9876543210.png".toList (by decide) [] []
  exact absurd hsame (by decide)

end Reference

end Pseudonym
