import Pseudonym.Proofs.Charsets
import Pseudonym.Proofs.Edits
import Pseudonym.Proofs.Namings
import Pseudonym.Proofs.Stylesheets

/-!
# The classes of a project

The selectors of a stylesheet hold more class names (`Stylesheet.selectorNames`) than the stylesheet styles: in `.outer .inner` only
the last one ends the selector. The class pass reserves the names that are styled and gives each of them a token; then it
exchanges whatever class name of a selector has one. So a name that is not styled keeps itself, and nothing keeps a token from
being that name. Two classes are one class after the pass exactly when one of them is the token of the other
(`ClassPass.run_merges`), which happens (`ClassPass.run_separates_false`).
-/

namespace Pseudonym

open Piece (imageOf)

variable {σ : Type}

/-! ## The class names that selectors hold -/

namespace Stylesheet

/-- The class names that stand in the selectors of a stylesheet, in order and with repeats. -/
def selectorNames (css : Text) : List Text := Piece.names (pieces css)

/-- The exchange puts for each class name of a selector its image, and nothing for anything else. -/
theorem selectorNames_renamed {b : Codebook} (h : IsClassCodebook b) (css : Text) :
    selectorNames (renamed b css) = (selectorNames css).map (imageOf b.get?) := by
  obtain ⟨gs, hcut, hcss, hout⟩ := exists_renamed h css
  rw [selectorNames, selectorNames, StretchAux.pieces_eq hcut hout, StretchAux.pieces_eq hcut hcss,
    ← StretchAux.swap_pieces h hcut, Piece.names_swap]

/-- A class that is harvested is a word among the symbols. -/
theorem mem_of_mem_harvest {l : List Symbol} {w : Word} (h : w ∈ harvest l) : Symbol.word w ∈ l := by
  fun_induction harvest l with
  | case1 v l next hends ih =>
    rcases List.mem_cons.1 h with rfl | h
    · exact List.mem_cons_of_mem _ List.mem_cons_self
    · exact List.mem_cons_of_mem _ (List.mem_cons_of_mem _ (ih h))
  | case2 v l next hends ih => exact List.mem_cons_of_mem _ (List.mem_cons_of_mem _ (ih h))
  | case3 x l hx ih => exact List.mem_cons_of_mem _ (ih h)
  | case4 => cases h

/-- What is styled stands in a selector. -/
theorem classNames_subset (css : Text) : classNames css ⊆ selectorNames css := by
  intro n hn
  obtain ⟨gs, hcut, hcss, hseg⟩ := segments_flatten css
  have hsegments : segments css = gs.map (Stretch.flat id) := by
    rw [← hseg, hcss]
  rw [StretchAux.classNames_eq hcut hsegments] at hn
  obtain ⟨g, hg, hn⟩ := List.mem_flatMap.1 hn
  obtain ⟨w, hw, rfl⟩ := List.mem_map.1 hn
  cases g with
  | other l => cases hw
  | prelude l =>
    have hpiece : Piece.name w.text ∈ Stretch.pieces id (.prelude l) :=
      List.mem_map_of_mem (f := Symbol.piece id) (mem_of_mem_harvest hw)
    rw [selectorNames, StretchAux.pieces_eq hcut hsegments]
    exact List.mem_filterMap.2 ⟨_, List.mem_flatMap.2 ⟨_, hg, hpiece⟩, rfl⟩

end Stylesheet

/-- The class names that stand in the selectors of a stylesheet on a disk. -/
def heldBy (d : Disk) (path : Path) : List Text :=
  match d.read path with
  | .ok bytes => Stylesheet.selectorNames (Charset.decode bytes).1
  | .error _ => []

/-- The class names that stand in the selectors of the stylesheets below a directory, file by file. -/
def heldBelow (d : Disk) (root : Path) : List Text :=
  ((d.filesBelow root).filter fun path => Language.ofPath? path == some .stylesheet).flatMap (heldBy d)

/-- Classes that are styled are held. -/
theorem styledBelow_subset (d : Disk) (root : Path) : styledBelow d root ⊆ heldBelow d root := by
  intro n hn
  obtain ⟨path, hpath, hn⟩ := List.mem_flatMap.1 hn
  refine List.mem_flatMap.2 ⟨path, hpath, ?_⟩
  unfold styledBy at hn
  unfold heldBy
  cases hread : d.read path with
  | error e =>
    rw [hread] at hn
    cases hn
  | ok bytes =>
    rw [hread] at hn
    exact Stylesheet.classNames_subset _ hn

/-! ## The codebook of the classes -/

/-- A codebook that a run can make for the classes of a project: each name that is styled has a token there, and no token is such a
name. -/
structure IsClassNaming (d : Disk) (root : Path) (length : Nat) (b : Codebook) : Prop where
  names : b.names = (styledBelow d root).eraseDups
  token : ∀ p ∈ b.pseudonyms, IsClassToken length p
  distinct : b.pseudonyms.Nodup
  fresh : ∀ p ∈ b.pseudonyms, p ∉ styledBelow d root

/-- Names that have been entered one by one are a naming, if the names on the disk were taken before. -/
theorem Entered.isClassNaming {d : Disk} {root : Path} {length : Nat} {b : Codebook} {taken taken' : List Text}
    (htaken : ∀ n ∈ styledBelow d root, n ∈ taken)
    (h : Entered (fun _ p => IsClassToken length p) (styledBelow d root) .empty taken b taken') :
    IsClassNaming d root length b := by
  obtain ⟨ps, hps, -, hnodup, hfresh⟩ := h.fresh
  have hps : b.pseudonyms = ps := hps
  refine ⟨h.names_eq, ?_, hps ▸ hnodup, ?_⟩
  · intro p hp
    obtain ⟨e, he, rfl⟩ := List.mem_map.1 hp
    exact (h.made e he).resolve_left List.not_mem_nil
  · intro p hp hstyled
    rw [hps] at hp
    exact hfresh p hp (htaken p hstyled)

/-- The namings of a run are a naming of its classes. -/
theorem Namings.isClassNaming {d : Disk} {root : Path} {length : Nat} {c i : Codebook} (h : Namings d root length c i) :
    IsClassNaming d root length c where
  names := h.classes
  token := h.classToken
  distinct := (List.nodup_append.1 h.distinct).1
  fresh := fun p hp => h.notClass p (List.mem_append_left _ hp)

/-- Letters and digits are identifier characters. -/
theorem IsClassToken.word {length : Nat} {p : Text} (h : IsClassToken length p) : p ≠ [] ∧ ∀ c ∈ p, isIdentChar c = true := by
  obtain ⟨-, x, s, rfl, hx, hs⟩ := h
  refine ⟨List.cons_ne_nil _ _, ?_⟩
  intro c hc
  rcases List.mem_cons.1 hc with rfl | hc
  · exact Token.isIdentChar_of_mem_alphanumerics c (List.mem_append_right _ hx)
  · exact Token.isIdentChar_of_mem_alphanumerics c (hs c hc)

/-- No name is left twice. -/
theorem nodup_eraseDups (names : List Text) : names.eraseDups.Nodup := by
  generalize hn : names.length = n
  induction n using Nat.strongRecOn generalizing names with
  | ind n ih =>
    cases names with
    | nil => exact List.nodup_nil
    | cons name names =>
      have hlt : (names.filter fun m => !m == name).length < n := by
        have := List.length_filter_le (fun m => !m == name) names
        rw [List.length_cons] at hn
        omega
      rw [List.eraseDups_cons, List.nodup_cons, List.mem_eraseDups]
      exact ⟨by simp, ih _ hlt _ rfl⟩

namespace IsClassNaming

variable {d : Disk} {root : Path} {length : Nat} {b : Codebook}

/-- The tokens of a naming are words, as class names are. -/
theorem isClassCodebook (h : IsClassNaming d root length b) : Stylesheet.IsClassCodebook b :=
  fun p hp => (h.token p hp).word

/-- The class names of stylesheets are words. -/
theorem word_of_mem_names (h : IsClassNaming d root length b) {n : Text} (hn : n ∈ b.names) :
    n ≠ [] ∧ ∀ c ∈ n, isIdentChar c = true := by
  rw [h.names, List.mem_eraseDups, styledBelow, List.mem_flatMap] at hn
  obtain ⟨path, -, hstyled⟩ := hn
  unfold styledBy at hstyled
  split at hstyled
  · obtain ⟨w, hw⟩ := Stylesheet.exists_word_of_mem_classNames hstyled
    rw [← hw]
    exact ⟨w.nonempty, w.chars⟩
  · cases hstyled

/-- The class names of stylesheets are ASCII words, and so are the tokens for them. -/
theorem isAsciiCodebook (h : IsClassNaming d root length b) : IsAsciiCodebook b := by
  have hascii {t : Text} (ht : t ≠ [] ∧ ∀ x ∈ t, isIdentChar x = true) : IsAsciiWord t := by
    refine ⟨ht.1, fun x hx => ?_⟩
    have := Stylesheet.toNat_of_isIdentChar (ht.2 x hx)
    omega
  intro e he
  exact ⟨hascii (h.word_of_mem_names (List.mem_map_of_mem he)), hascii (h.token e.2 (List.mem_map_of_mem he)).word⟩

/-- Every name that is styled has a token. -/
theorem exists_get? (h : IsClassNaming d root length b) {n : Text} (hn : n ∈ styledBelow d root) : ∃ p, b.get? n = some p := by
  refine Codebook.exists_get?_of_mem_names ?_
  rw [h.names]
  exact List.mem_eraseDups.2 hn

/-- A token has no token. -/
theorem get?_pseudonym (h : IsClassNaming d root length b) {p : Text} (hp : p ∈ b.pseudonyms) : b.get? p = none := by
  rw [Codebook.get?_eq_none_iff, h.names, List.mem_eraseDups]
  exact h.fresh p hp

/-- Two names have one image only if they are one name, or one of them is the token of the other. -/
theorem imageOf_eq_iff (h : IsClassNaming d root length b) (m n : Text) :
    imageOf b.get? m = imageOf b.get? n ↔ m = n ∨ b.get? m = some n ∨ b.get? n = some m := by
  unfold imageOf
  constructor
  · cases hm : b.get? m with
    | none =>
      cases hn : b.get? n with
      | none => exact fun heq => .inl heq
      | some q => exact fun heq => .inr (.inr (congrArg some heq.symm))
    | some p =>
      cases hn : b.get? n with
      | none => exact fun heq => .inr (.inl (congrArg some heq))
      | some q =>
        rintro rfl
        have hentry : (m, p) = (n, p) :=
          List.inj_on_of_nodup_map h.distinct (Codebook.mem_entries_of_get? hm) (Codebook.mem_entries_of_get? hn) rfl
        exact .inl (Prod.mk.inj hentry).1
  · rintro (rfl | hm | hn)
    · rfl
    · rw [hm, h.get?_pseudonym (Codebook.mem_pseudonyms_of_get? hm)]
      rfl
    · rw [hn, h.get?_pseudonym (Codebook.mem_pseudonyms_of_get? hn)]
      rfl

/-- Names among which are all those that are styled keep apart exactly when none of them is a token. -/
theorem separates_iff (h : IsClassNaming d root length b) {names : List Text} (hstyled : styledBelow d root ⊆ names) :
    (∀ m ∈ names, ∀ n ∈ names, imageOf b.get? m = imageOf b.get? n → m = n) ↔ ∀ p ∈ b.pseudonyms, p ∉ names := by
  constructor
  · intro hsep p hp hmem
    obtain ⟨⟨n, q⟩, he, rfl⟩ := List.mem_map.1 hp
    have hn : n ∈ styledBelow d root := by
      rw [← List.mem_eraseDups, ← h.names]
      exact List.mem_map_of_mem he
    have hget : b.get? n = some q := (Codebook.get?_eq_some_iff (h.names ▸ nodup_eraseDups _)).2 he
    have heq := hsep n (hstyled hn) q hmem ((h.imageOf_eq_iff n q).2 (.inr (.inl hget)))
    exact h.fresh q hp (heq ▸ hn)
  · intro hfree m hm n hn heq
    rcases (h.imageOf_eq_iff m n).1 heq with rfl | hget | hget
    · rfl
    · exact absurd hn (hfree n (Codebook.mem_pseudonyms_of_get? hget))
    · exact absurd hm (hfree m (Codebook.mem_pseudonyms_of_get? hget))

end IsClassNaming

/-! ## The class pass -/

/-- The empty codebook exchanges nothing. -/
theorem Language.rename_empty (l : Language) (t : Text) : l.rename .empty t = none := by
  cases l with
  | stylesheet => exact Piece.exchange?_eq_none_iff.2 fun _ _ => rfl
  | markup => exact Piece.exchange?_eq_none_iff.2 fun _ _ => rfl
  | script => rfl

namespace ClassPass

section

variable {o : Options} {root : Path} {base : Location} {d d' : Disk} {c : Codebook}

/-- Whether there is a class or none, the text files below the directory are edited in their places. -/
theorem eq_edit (hdry : o.dryRun = false) (ht : d.IsTree) (hroot : d.locate .follow root = .ok base)
    (hdir : d.isDirectoryAt base = true) (hlists : d.Lists root)
    (h : (c.isEmpty = true ∧ d' = d) ∨ Rewritten o ((textsBelow d root).map fun f => (f.1, rewriter c f.2)) d d') :
    d' = d.edit (editTexts base (rewriter c)) := by
  rcases h with ⟨hempty, rfl⟩ | h
  · rw [Codebook.eq_empty_of_isEmpty hempty]
    exact (Disk.edit_editTexts_of_rename Language.rename_empty).symm
  · exact h.eq_editTexts hdry ht hroot hdir hlists

/-- A stylesheet with its class names exchanged is read as it was written. -/
theorem decode_apply (hc : IsAsciiCodebook c) (bytes : Bytes) :
    (Charset.decode ((rewriter c .stylesheet).apply bytes)).1 = Stylesheet.renamed c (Charset.decode bytes).1 := by
  rw [Rewriter.apply_eq]
  exact congrArg Prod.fst (Language.decode_encode_rename hc .stylesheet bytes)

/-- After the class pass, the selectors of a stylesheet hold the images of the class names that they held. -/
theorem heldBy_edit (ht : d.IsTree) (hroot : d.locate .follow root = .ok base) (hdir : d.isDirectoryAt base = true)
    (hlists : d.Lists root) {length : Nat} (hc : IsClassNaming d root length c) {path : Path} {bytes : Bytes}
    (hpath : path ∈ d.filesBelow root) (hsheet : Language.ofPath? path = some .stylesheet) (hread : d.read path = .ok bytes) :
    heldBy (d.edit (editTexts base (rewriter c))) path = (heldBy d path).map (imageOf c.get?) := by
  unfold heldBy
  rw [ht.read_editTexts hroot hdir hlists hpath hsheet hread, hread]
  simp only [decode_apply hc.isAsciiCodebook]
  exact Stylesheet.selectorNames_renamed hc.isClassCodebook _

/-- What the class pass makes of the class names in the selectors of a project, whatever the length of the tokens and the source of
random words. Each stylesheet holds the images of the names that it held. Two of these names are one afterwards exactly when one
of them is the token of the other; so all of them are kept apart exactly when no token is one of them. -/
theorem run_merges [WordSource σ] {w w' : Workspace σ} {tally : Tally} (ht : w.disk.IsTree)
    (hroot : w.disk.isDirectory root = true) (hempty : w.codebook = .empty) (hdry : o.dryRun = false)
    (h : (run root o).Yields w tally w') :
    w'.disk.filesBelow root = w.disk.filesBelow root ∧
    (∀ path ∈ w.disk.filesBelow root, Language.ofPath? path = some .stylesheet →
      heldBy w'.disk path = (heldBy w.disk path).map (imageOf w'.codebook.get?)) ∧
    (∀ m ∈ heldBelow w.disk root, ∀ n ∈ heldBelow w.disk root, imageOf w'.codebook.get? m = imageOf w'.codebook.get? n ↔
      m = n ∨ w'.codebook.get? m = some n ∨ w'.codebook.get? n = some m) ∧
    ((∀ m ∈ heldBelow w.disk root, ∀ n ∈ heldBelow w.disk root,
        imageOf w'.codebook.get? m = imageOf w'.codebook.get? n → m = n) ↔
      ∀ p ∈ w'.codebook.pseudonyms, p ∉ heldBelow w.disk root) := by
  obtain ⟨-, hlists, hreads, hentered, hwritten⟩ := Pass.yields_classPass h
  rw [hempty] at hentered
  have hc : IsClassNaming w.disk root o.classLength w'.codebook :=
    hentered.isClassNaming fun n hn => Mint.mem_taken_reserveAll.2 (.inl hn)
  obtain ⟨base, hbase, hdir⟩ := Disk.isDirectory_iff.1 hroot
  have hdisk := eq_edit hdry ht hbase hdir hlists hwritten
  refine ⟨?_, ?_, fun m _ n _ => hc.imageOf_eq_iff m n, hc.separates_iff (styledBelow_subset _ _)⟩
  · rw [hdisk, Disk.filesBelow, Disk.filesBelow, Disk.files_of_bare (Disk.bare_edit _)]
  · intro path hpath hsheet
    obtain ⟨bytes, hbytes⟩ := hreads path hpath hsheet
    rw [hdisk]
    exact heldBy_edit ht hbase hdir hlists hc hpath hsheet hbytes

end

namespace OuterWitness

open SiteWitness (bytes root)

/-- A site whose only stylesheet holds two class names in one selector, of which it styles the second, and a source of words. -/
def site (words : List UInt64) : Workspace WordCycle where
  disk := { entries := [
    ([bytes "site"], .directory),
    ([bytes "site", bytes "a.css"], .file (bytes ".a .b\x7b\x7d"))] }
  mint := { source := { words } }

/-- Tokens of one letter are asked for. -/
def options : Options := { classLength := 1 }

def sheet : Path := .ofText "/site/a.css".toList

def tally : Tally := { filesProcessed := 1, contentChanges := 1 }

/-- The site after the class pass. -/
def after (words : List UInt64) : Workspace WordCycle := ((run root options).outcome (site words)).2

end OuterWitness

open OuterWitness in
open SiteWitness (root) in
/-- A token for the second class that is not the first one keeps the two apart. -/
theorem run_merges_outer : (site [0x0A00000000000000]).disk.IsTree ∧
    (site [0x0A00000000000000]).disk.isDirectory root = true ∧
    (run root options).Yields (site [0x0A00000000000000]) tally (after [0x0A00000000000000]) ∧
    heldBy (site [0x0A00000000000000]).disk sheet = ["a".toList, "b".toList] ∧
    heldBy (after [0x0A00000000000000]).disk sheet = ["a".toList, "c".toList] ∧
    ∀ p ∈ (after [0x0A00000000000000]).codebook.pseudonyms, p ∉ heldBelow (site [0x0A00000000000000]).disk root := by
  have ht : (site [0x0A00000000000000]).disk.IsTree := by decide
  have hroot : (site [0x0A00000000000000]).disk.isDirectory root = true := by decide +kernel
  have hrun : (run root options).Yields (site [0x0A00000000000000]) tally (after [0x0A00000000000000]) :=
    Pass.yields_of_toOption (by decide +kernel)
  obtain ⟨-, hheld, -, hseparates⟩ := run_merges ht hroot rfl rfl hrun
  have hbefore : heldBy (site [0x0A00000000000000]).disk sheet = ["a".toList, "b".toList] := by decide +kernel
  have himages : ["a".toList, "b".toList].map (imageOf (after [0x0A00000000000000]).codebook.get?) = ["a".toList, "c".toList] := by
    decide +kernel
  have hafter := hheld sheet (by decide +kernel) (by decide +kernel)
  rw [hbefore, himages] at hafter
  exact ⟨ht, hroot, hrun, hbefore, hafter, hseparates.1 (by decide +kernel)⟩

open OuterWitness in
open SiteWitness (root) in
/-- Names that differ are not always kept apart: a token that is drawn for the second class of a selector may be the first one, which
nobody styles and nobody has reserved. -/
theorem run_separates_false : ¬∀ (w w' : Workspace WordCycle) (o : Options) (root : Path) (tally : Tally),
    w.disk.IsTree → w.disk.isDirectory root = true → w.codebook = .empty → o.dryRun = false → 1 ≤ o.classLength →
    (run root o).Yields w tally w' →
    ∀ p ∈ w.disk.filesBelow root, Language.ofPath? p = some .stylesheet →
    ∀ q ∈ w.disk.filesBelow root, Language.ofPath? q = some .stylesheet → ∀ (i j : Nat) (m n m' n' : Text),
      (heldBy w.disk p)[i]? = some m → (heldBy w.disk q)[j]? = some n →
      (heldBy w'.disk p)[i]? = some m' → (heldBy w'.disk q)[j]? = some n' → m ≠ n → m' ≠ n' := by
  intro hall
  have hrun : (run root options).Yields (site [0]) tally (after [0]) := Pass.yields_of_toOption (by decide +kernel)
  have hbefore : heldBy (site [0]).disk sheet = ["a".toList, "b".toList] := by decide +kernel
  have hafter : heldBy (after [0]).disk sheet = ["a".toList, "a".toList] := by decide +kernel
  have hmem : sheet ∈ (site [0]).disk.filesBelow root := by decide +kernel
  have hsheet : Language.ofPath? sheet = some .stylesheet := by decide +kernel
  refine hall (site [0]) (after [0]) options root tally (by decide) (by decide +kernel) rfl rfl (by decide) hrun sheet hmem hsheet
    sheet hmem hsheet 0 1 "a".toList "b".toList "a".toList "a".toList ?_ ?_ ?_ ?_ (by decide) rfl
  · rw [hbefore]; rfl
  · rw [hbefore]; rfl
  · rw [hafter]; rfl
  · rw [hafter]; rfl

end ClassPass

end Pseudonym
