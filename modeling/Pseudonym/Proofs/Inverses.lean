import Pseudonym.Language
import Pseudonym.Proofs.Attributes
import Pseudonym.Proofs.Stylesheets

/-!
# Renaming back

A codebook is undone by its inverse, which has its pseudonyms for names (`Language.rename_inverse`). In stylesheets and markup the
renamed text is cut where the text was, so the second renaming meets the first one's images and the names that have none
(`Piece.exchange?_swap`). In scripts both renamings are passes over the same strips, and the second pass, which comes to each
literal as the first one did, takes back what it has written (`Script.translate_inverse`).
-/

namespace Pseudonym

open Script (isQuote)

/-- Does a name stand in a text where class names are exchanged: behind the dot of a selector, as a word of a class attribute, as a
whole literal? -/
def Language.Holds (l : Language) (t n : Text) : Prop :=
  match l with
  | .stylesheet => n ∈ Piece.names (Stylesheet.pieces t)
  | .markup => n ∈ Piece.names (Markup.pieces t)
  | .script => ∃ q, isQuote q = true ∧ q :: n ++ [q] <:+: t

/-- Class names with distinct pseudonyms of letters and digits, none of which is a name. -/
structure IsRenaming (b : Codebook) : Prop where
  nodup : b.names.Nodup
  names : ∀ n ∈ b.names, n ≠ [] ∧ ∀ c ∈ n, isIdentChar c = true
  distinct : b.pseudonyms.Nodup
  pseudonyms : ∀ p ∈ b.pseudonyms, p ≠ [] ∧ ∀ c ∈ p, c.isAlphanum = true
  fresh : ∀ p ∈ b.pseudonyms, p ∉ b.names

/-- The pseudonyms of a codebook as names, in any order, with the names as their pseudonyms. -/
def Codebook.IsInverse (b' b : Codebook) : Prop := b'.entries.Perm (b.entries.map Prod.swap)

/-! ## Codebooks -/

namespace Codebook.IsInverse

variable {b b' : Codebook}

/-- The names of an inverse are the pseudonyms. -/
theorem names_perm (h : b'.IsInverse b) : b'.names.Perm b.pseudonyms := by
  have := h.map Prod.fst
  rwa [List.map_map] at this

/-- The pseudonyms of an inverse are the names. -/
theorem pseudonyms_perm (h : b'.IsInverse b) : b'.pseudonyms.Perm b.names := by
  have := h.map Prod.snd
  rwa [List.map_map] at this

/-- An inverse leads back from a pseudonym to its name, and nowhere else. -/
theorem get?_eq_some_iff (h : b'.IsInverse b) (hb : IsRenaming b) {n p : Text} : b'.get? p = some n ↔ b.get? n = some p := by
  rw [Codebook.get?_eq_some_iff (h.names_perm.nodup_iff.2 hb.distinct), Codebook.get?_eq_some_iff hb.nodup, h.mem_iff]
  simp

end Codebook.IsInverse

/-- Letters and digits stand in identifiers. -/
theorem isIdentChar_of_isAlphanum {c : Char} (h : c.isAlphanum = true) : isIdentChar c = true := by
  simp [isIdentChar, h]

/-- A quote stands in no identifier. -/
theorem isQuote_of_isIdentChar {c : Char} (h : isIdentChar c = true) : isQuote c = false := by
  by_contra hquote
  rcases Script.isQuote_iff.1 (Bool.not_eq_false _ ▸ hquote) with rfl | rfl
  · cases h
  · cases h

namespace IsRenaming

variable {b : Codebook}

/-- The pseudonyms of a renaming are identifiers. -/
theorem isIdentChar (h : IsRenaming b) {p : Text} (hp : p ∈ b.pseudonyms) : ∀ c ∈ p, isIdentChar c = true :=
  fun c hc => isIdentChar_of_isAlphanum ((h.pseudonyms p hp).2 c hc)

/-- A renaming is a codebook for stylesheets. -/
theorem isClassCodebook (h : IsRenaming b) : Stylesheet.IsClassCodebook b :=
  fun p hp => ⟨(h.pseudonyms p hp).1, h.isIdentChar hp⟩

/-- A renaming writes words in markup. -/
theorem writesWords (h : IsRenaming b) : Markup.WritesWords b.get? := by
  intro n p hp
  have hmem := Codebook.mem_pseudonyms_of_get? hp
  refine ⟨(h.pseudonyms p hmem).1, fun c hc => ?_⟩
  have hident := h.isIdentChar hmem c hc
  exact ⟨Stylesheet.isBlank_of_isFileNameChar (isFileNameChar_of_isIdentChar hident), isQuote_of_isIdentChar hident⟩

/-- A renaming is a codebook for scripts. -/
theorem isLiteralCodebook (h : IsRenaming b) : Script.IsLiteralCodebook b where
  nodup := h.nodup
  names n hn c hc := isQuote_of_isIdentChar ((h.names n hn).2 c hc)
  pseudonyms _ hp c hc := isQuote_of_isIdentChar (h.isIdentChar hp c hc)
  fresh := h.fresh

/-- And so is its inverse. -/
theorem isLiteralCodebook_inverse {b' : Codebook} (h : IsRenaming b) (hinv : b'.IsInverse b) : Script.IsLiteralCodebook b' where
  nodup := hinv.names_perm.nodup_iff.2 h.distinct
  names _ hp := h.isLiteralCodebook.pseudonyms _ (hinv.names_perm.mem_iff.1 hp)
  pseudonyms _ hn := h.isLiteralCodebook.names _ (hinv.pseudonyms_perm.mem_iff.1 hn)
  fresh n hn hp := h.fresh n (hinv.names_perm.mem_iff.1 hp) (hinv.pseudonyms_perm.mem_iff.1 hn)

end IsRenaming

/-! ## Stylesheets and markup -/

/-- An exchange of pieces is undone by one that takes each image back and leaves the names alone. -/
theorem Piece.exchange?_swap {f g : Text → Option Text} {ps : List Piece} {out : Text} (hback : ∀ n p, f n = some p → g p = some n)
    (hfree : ∀ n ∈ names ps, g n = none) (h : exchange? f ps = some out) : exchange? g (swap f ps) = some (join ps) := by
  obtain ⟨⟨n, hn, hsome⟩, -⟩ := exchange?_eq_some_iff.1 h
  obtain ⟨p, hp⟩ := Option.ne_none_iff_exists'.1 hsome
  refine exchange?_eq_some_iff.2 ⟨⟨p, ?_, by simp [hback n p hp]⟩, ?_⟩
  · rw [names_swap]
    exact List.mem_map.2 ⟨n, hn, by simp [imageOf, hp]⟩
  · rw [exchange_swap, ← exchange_none]
    refine exchange_congr fun n hn => ?_
    cases hp : f n with
    | none => simp [imageOf, hp, hfree n hn]
    | some p => simp [imageOf, hp, hback n p hp]

/-- A stylesheet with its class names exchanged is cut in the same places. -/
theorem Stylesheet.pieces_renamed {b : Codebook} (h : IsClassCodebook b) (css : Text) :
    pieces (renamed b css) = Piece.swap b.get? (pieces css) := by
  obtain ⟨gs, hcut, hcss, hout⟩ := exists_renamed h css
  rw [StretchAux.pieces_eq hcut hout, StretchAux.pieces_eq hcut hcss, StretchAux.swap_pieces h hcut]

/-! ## Scripts -/

namespace Script

variable {f g : Key → Option Text} {t : Text}

/-- A pass is undone by one that takes each image back and leaves the literals alone. -/
theorem translate_inverse (hback : ∀ k p, f k = some p → g (k.1, p) = some k.2) {ss : List Strip}
    (hfree : ∀ s ∈ ss, s.closed = true → g s.key = none) (last : Option Key) :
    translate g (last.bind fun k => (f k).map (k.1, ·)) (translate f last ss) = ss := by
  induction ss generalizing last with
  | nil => rfl
  | cons s ss ih =>
    rw [List.forall_mem_cons] at hfree
    rcases translate_cons f last s ss with ⟨p, hclosed, hne, hp, heq⟩ | ⟨-, heq⟩
    · -- two names in the same quotes have different images
      have hne' : (last.bind fun k => (f k).map (k.1, ·)) ≠ some (s.quote, p) := by
        intro h
        obtain ⟨k, rfl, hk⟩ := Option.bind_eq_some_iff.1 h
        obtain ⟨p', hp', hpair⟩ := Option.map_eq_some_iff.1 hk
        have hkey := hback k p' hp'
        rw [hpair, show s.quote = s.key.1 from rfl, hback _ p hp] at hkey
        exact hne (congrArg some (Prod.ext (Prod.mk.inj hpair).1 (Option.some.inj hkey).symm))
      have hp' : g (Strip.key { s with body := p }) = some s.body := hback _ p hp
      have ih := ih hfree.2 (some s.key)
      rw [Option.bind_some, hp] at ih
      rw [heq, translate_cons_of_some (s := { s with body := p }) hclosed hne' hp']
      exact congrArg (s :: ·) ih
    · rw [heq, translate_cons_of_none fun hclosed _ => hfree.1 hclosed]
      exact congrArg (s :: ·) (ih hfree.2 none)

/-- What the first of the literals is exchanged for is there to be taken back. -/
theorem hits_translate (hback : ∀ k p, f k = some p → g (k.1, p) = some k.2) {ss : List Strip} (h : hits f ss = true) :
    hits g (translate f none ss) = true := by
  induction ss with
  | nil => cases h
  | cons s ss ih =>
    rcases translate_cons f none s ss with ⟨p, hclosed, -, hp, heq⟩ | ⟨hkeep, heq⟩
    · rw [heq, hits, List.any_cons, Bool.or_eq_true, Bool.and_eq_true]
      exact .inl ⟨hclosed, congrArg Option.isSome (hback _ p hp)⟩
    · rw [heq, hits, List.any_cons, Bool.or_eq_true]
      rw [hits, List.any_cons, Bool.or_eq_true, Bool.and_eq_true] at h
      refine .inr (ih (h.resolve_left fun hs => ?_))
      rw [hkeep hs.1 (by simp)] at hs
      cases hs.2

/-- An exchange of literals is undone by one that leads back from each pseudonym, if none of these was there before. -/
theorem translated?_inverse (hf : ∀ k p, f k = some p → ∀ c ∈ p, isQuote c = false)
    (hback : ∀ k p, f k = some p → g (k.1, p) = some k.2) (hfree : ∀ s ∈ (cutAtQuotes t).2, s.closed = true → g s.key = none)
    {out : Text} (h : translated? f t = some out) : translated? g out = some t := by
  obtain ⟨hhits, hout⟩ := Option.ite_none_right_eq_some.1 h
  obtain rfl := Option.some.inj hout
  have hinverse := translate_inverse hback hfree none
  rw [Option.bind_none] at hinverse
  rw [translated?, cutAtQuotes_translated hf, hits_translate hback hhits, hinverse, join_cutAtQuotes, if_pos rfl]

end Script

/-! ## The three languages -/

/-- Class renaming loses no information: with the inverse of a codebook, in any order, the renamed text is renamed back to the text,
if no pseudonym stood in it where class names are exchanged. -/
theorem Language.rename_inverse {b b' : Codebook} (hb : IsRenaming b) (hinv : b'.IsInverse b) {l : Language} {t out : Text}
    (hfree : ∀ p ∈ b.pseudonyms, ¬l.Holds t p) (h : l.rename b t = some out) : l.rename b' out = some t := by
  have hback (n p : Text) (hp : b.get? n = some p) : b'.get? p = some n := (hinv.get?_eq_some_iff hb).2 hp
  have hnone {p : Text} (hp : l.Holds t p) : b'.get? p = none := by
    rw [Option.eq_none_iff_forall_ne_some]
    intro n hn
    exact hfree p (Codebook.mem_pseudonyms_of_get? ((hinv.get?_eq_some_iff hb).1 hn)) hp
  cases l with
  | stylesheet =>
    have hpieces := Stylesheet.pieces_renamed hb.isClassCodebook t
    have hout : Stylesheet.renamed b t = out := by
      rw [Stylesheet.renamed, show Stylesheet.rename b t = some out from h, Option.getD_some]
    rw [hout] at hpieces
    rw [rename, Stylesheet.rename, hpieces, Piece.exchange?_swap hback (fun n => hnone) h, Stylesheet.join_pieces]
  | markup =>
    obtain ⟨-, rfl⟩ := Piece.exchange?_eq_some_iff.1 h
    rw [rename, Markup.rename, Markup.pieces_exchange hb.writesWords, Piece.exchange?_swap hback (fun n => hnone) h,
      Markup.join_pieces]
  | script =>
    rw [rename, Script.rename_eq hb.isLiteralCodebook] at h
    rw [rename, Script.rename_eq (hb.isLiteralCodebook_inverse hinv)]
    refine Script.translated?_inverse (fun k p hp => ?_) (fun k => hback k.2) (fun s hs hclosed => ?_) h
    · exact hb.isLiteralCodebook.pseudonyms p (Codebook.mem_pseudonyms_of_get? hp)
    · exact hnone ⟨s.quote, Script.isQuote_of_mem_strips hs, Script.infix_of_closed hs hclosed⟩

namespace RenamingWitness

/-- Two names, one the beginning of the other. -/
def book : Codebook := ⟨[("a".toList, "x1".toList), ("ab".toList, "y".toList)]⟩

/-- Its inverse in another order. -/
def back : Codebook := ⟨[("y".toList, "ab".toList), ("x1".toList, "a".toList)]⟩

/-- The two names have distinct pseudonyms, and none of these is a name. -/
theorem isRenaming : IsRenaming book where
  nodup := by decide
  names := by
    have hall : (book.names.all fun n => !n.isEmpty && n.all isIdentChar) = true := by decide
    simpa using hall
  distinct := by decide
  pseudonyms := by
    have hall : (book.pseudonyms.all fun p => !p.isEmpty && p.all Char.isAlphanum) = true := by decide
    simpa using hall
  fresh := by decide

def css : Text := ".ab .y-/*.a*/.a,.x\x7b.a\x7d".toList

def html : Text := "class = \"a\tab\" y><p class='a' id='x1'>".toList

/-- Literals that share quotes, and two of the same name among them. -/
def js : Text := "'a'a'ab'\"ab\"'a' x1".toList

end RenamingWitness

open RenamingWitness in
/-- A name that another one begins with, and literals that share quotes: each text comes back in each language. -/
theorem Language.rename_inverse_shared : IsRenaming book ∧ back.IsInverse book ∧
    Language.rename book .stylesheet css = some ".y .y-/*.a*/.x1,.x\x7b.a\x7d".toList ∧
    Language.rename back .stylesheet ".y .y-/*.a*/.x1,.x\x7b.a\x7d".toList = some css ∧
    Language.rename book .markup html = some "class = \"x1\ty\" y><p class='x1' id='x1'>".toList ∧
    Language.rename back .markup "class = \"x1\ty\" y><p class='x1' id='x1'>".toList = some html ∧
    Language.rename book .script js = some "'x1'a'y'\"y\"'x1' x1".toList ∧
    Language.rename back .script "'x1'a'y'\"y\"'x1' x1".toList = some js := by
  have hinv : back.IsInverse book := List.isPerm_iff.1 (by decide +kernel)
  have hcss : Language.rename book .stylesheet css = some ".y .y-/*.a*/.x1,.x\x7b.a\x7d".toList := by decide +kernel
  have hhtml : Language.rename book .markup html = some "class = \"x1\ty\" y><p class='x1' id='x1'>".toList := by decide +kernel
  have hjs : Language.rename book .script js = some "'x1'a'y'\"y\"'x1' x1".toList := by decide +kernel
  have hfree : ∀ p ∈ book.pseudonyms, ¬Language.script.Holds js p := by
    rintro p hp ⟨q, hq, hinfix⟩
    have hnone : ∀ p ∈ book.pseudonyms, ¬ '\'' :: p ++ ['\''] <:+: js ∧ ¬ '"' :: p ++ ['"'] <:+: js := by decide +kernel
    rcases Script.isQuote_iff.1 hq with rfl | rfl
    · exact (hnone p hp).1 hinfix
    · exact (hnone p hp).2 hinfix
  exact ⟨isRenaming, hinv, hcss, Language.rename_inverse isRenaming hinv (by unfold Language.Holds; decide +kernel) hcss, hhtml,
    Language.rename_inverse isRenaming hinv (by unfold Language.Holds; decide +kernel) hhtml, hjs,
    Language.rename_inverse isRenaming hinv hfree hjs⟩

end Pseudonym
