import Pseudonym.Proofs.Agreement
import Pseudonym.Proofs.Respellings
import Pseudonym.Proofs.Sheets

/-!
# What a dry run foretells of the references

A dry run looks for references in the text files as they are, a run in those that the class pass has written. So the counts of files
in which references are exchanged are two: that of the files whose text refers to an image, and that of the files whose text does
so with its class names exchanged (`Project.run_dry_references`). They are one when the run does not lose the root, no class name or
token is exposed in the name of an image, and no image has a name that can stand in itself. Each of these is needed. A class may be
named behind a dot in the image's name (`Project.run_dry_references_false`) or between its ends (`Project.run_dry_references_word`);
a name may stand in itself (`Project.run_dry_references_overlap`); the root may be lost (`Project.run_dry_references_lost`).
-/

namespace Pseudonym

variable {σ : Type}

/-- The text of a file, as it can be read on a disk. -/
def textAt (d : Disk) (path : Path) : Text :=
  match d.read path with
  | .ok bytes => (Charset.decode bytes).1
  | .error _ => []

/-! ## Text files of a kind -/

section Kinds

variable {d : Disk} {root : Path} {base : Location}

theorem isTextWith_eq {kind : Language → Text → Bool} (loc : Location) (e : Entry) :
    isTextWith base kind (loc, e) = (isTextWith [] kind (loc, e) && isTextBelow base (loc, e)) := by
  cases e with
  | file c =>
    rw [isTextBelow_file]
    unfold isTextWith
    dsimp only
    cases languageAt loc with
    | none => simp
    | some l => simp [Bool.and_comm]
  | directory => rfl
  | link target => rfl

/-- There are as many text files of a kind in the listing as on the disk, if each can be read. -/
theorem countP_textsBelow (ht : d.IsTree) (hroot : d.locate .follow root = .ok base) (hdir : d.isDirectoryAt base = true)
    (hlists : d.Lists root) (hread : d.ReadsTexts root)
    (kind : Language → Text → Bool) :
    (textsBelow d root).countP (fun f => kind f.2 (textAt d f.1)) = d.entries.countP (isTextWith base kind) := by
  have hlanguage {f : Path × Language} (hf : f ∈ textsBelow d root) : Language.ofPath? f.1 = some f.2 := by
    obtain ⟨p, -, hp⟩ := List.mem_filterMap.1 hf
    rw [tagged?_all] at hp
    obtain ⟨l, hl, rfl⟩ := Option.map_eq_some_iff.1 hp
    exact hl
  have hfile {names : List Name} {r : Rewriter} (hf : (names, r) ∈ textFiles d base fun _ => ImagePass.rewriter .empty) :
      ((Language.ofPath? (root.below names)).any fun l => kind l (textAt d (root.below names))) =
        (d.entry? (base ++ names)).any fun e => isTextWith [] kind (base ++ names, e) := by
    obtain ⟨hnames, l, hl, -⟩ := mem_textFiles.1 hf
    obtain ⟨hne, c, hc⟩ := ht.mem_filesFrom_depth.1 hnames
    have hmem := (mem_textsBelow ht hroot hdir hlists).2 ⟨names, hne, ⟨c, hc⟩, hl, rfl⟩
    obtain ⟨bytes, hbytes⟩ := hread _ hmem
    obtain ⟨loc, hloc, hentry, -⟩ := Disk.read_eq_ok hbytes
    obtain rfl := ht.locate_below hroot hne hc (fun target => by simp) hloc
    rw [hlanguage hmem, textAt, hbytes, hentry]
    simp [isTextWith, hl]
  calc (textsBelow d root).countP (fun f => kind f.2 (textAt d f.1))
      = ((textsBelow d root).map (·.1)).countP fun p => (Language.ofPath? p).any fun l => kind l (textAt d p) := by
        rw [List.countP_map]
        refine List.countP_congr fun f hf => ?_
        rw [Function.comp_apply, hlanguage hf, Option.any_some]
    _ = ((textFiles d base fun _ => ImagePass.rewriter .empty).map fun f => base ++ f.1).countP
          fun loc => (d.entry? loc).any fun e => isTextWith [] kind (loc, e) := by
        rw [map_fst_textsBelow ht hroot hdir hlists, List.countP_map, List.countP_map]
        refine List.countP_congr fun f hf => ?_
        rw [Function.comp_apply, Function.comp_apply, hfile hf]
    _ = ((d.entries.filter (isTextBelow base)).map (·.1)).countP
          fun loc => (d.entry? loc).any fun e => isTextWith [] kind (loc, e) := (perm_textFiles ht hdir _).countP_eq _
    _ = d.entries.countP (isTextWith base kind) := by
        rw [List.countP_map, List.countP_filter]
        refine List.countP_congr ?_
        rintro ⟨loc, e⟩ hx
        rw [Function.comp_apply, (ht.distinct.entry?_eq_some_iff (ht.proper _ hx).1).2 hx, Option.any_some]
        exact Bool.eq_iff_iff.1 (isTextWith_eq loc e).symm

/-- A text file whose class names are exchanged is of the kind that its new text is of. -/
theorem countP_edit {c : Codebook} (hc : IsAsciiCodebook c) (kind : Language → Text → Bool) :
    (d.edit (editTexts base (ClassPass.rewriter c))).entries.countP (isTextWith base kind) =
      d.entries.countP (isTextWith base fun l t => kind l ((l.rename c t).getD t)) := by
  rw [Disk.edit, List.countP_map]
  refine List.countP_congr ?_
  rintro ⟨loc, e⟩ -
  cases e with
  | file bytes =>
    simp only [Function.comp_apply, isTextWith, Entry.edit, editTexts]
    cases hbelow : base.isPrefixOf loc with
    | false => simp
    | true =>
      cases languageAt loc with
      | none => simp
      | some l =>
        have hdecode := congrArg Prod.fst (Language.decode_encode_rename hc l bytes)
        simp only [Option.any_some, if_true, Bool.true_and]
        rw [Rewriter.apply_eq]
        simp only [ClassPass.rewriter]
        rw [hdecode]
  | directory => rfl
  | link target => rfl

/-- An empty codebook knows no references. -/
theorem countP_isTextWith_empty (f : Language → Text → Text) :
    d.entries.countP (isTextWith base fun l t => (Reference.rename .empty (f l t)).isSome) = 0 := by
  refine List.countP_eq_zero.2 ?_
  rintro ⟨loc, e⟩ -
  cases e with
  | file c =>
    have hnone (t : Text) : Reference.rename .empty t = none := rfl
    simp [isTextWith, hnone]
  | directory => simp [isTextWith]
  | link target => simp [isTextWith]

end Kinds

/-! ## Counting changes -/

namespace Pass

variable {o : Options} {w w' : Workspace σ}

/-- A file is counted if its rewriter changes its text. -/
theorem changed_rewriteFile {path : Path} {r : Rewriter} {changed : Bool} (h : (rewriteFile o path r).Yields w changed w') :
    changed = (r.rename (textAt w.disk path)).isSome ∧ ∃ bytes, w.disk.read path = .ok bytes := by
  simp only [rewriteFile, yields_bind, yields_note, yields_load, yields_noteAll] at h
  obtain ⟨-, _, rfl, q, _, ⟨bytes, hbytes, rfl, rfl⟩, -, _, rfl, h⟩ := h
  refine ⟨?_, bytes, hbytes⟩
  rw [textAt, hbytes]
  split at h
  · next hnone =>
    rw [hnone]
    exact (yields_pure.1 h).1
  · next new hnew =>
    rw [hnew]
    simp only [yields_bind, yields_note] at h
    obtain ⟨-, _, rfl, -, _, rfl, h⟩ := h
    split at h
    · obtain ⟨_, _, -, hpure⟩ := yields_bind.1 h
      exact (yields_pure.1 hpure).1
    · exact (yields_pure.1 h).1

/-- A dry run counts the files whose text, as it is, would be changed. -/
theorem count_rewriteFiles_dry {files : List (Path × Rewriter)} {n : Nat} (h : (rewriteFiles o.dry files).Yields w n w') :
    n = files.countP (fun f => (f.2.rename (textAt w.disk f.1)).isSome) ∧ ∀ f ∈ files, ∃ bytes, w.disk.read f.1 = .ok bytes := by
  induction files generalizing w n with
  | nil => exact ⟨(yields_pure.1 h).1, by simp⟩
  | cons f files ih =>
    obtain ⟨path, r⟩ := f
    simp only [rewriteFiles, yields_bind, yields_pure] at h
    obtain ⟨changed, v, hfile, m, _, hfiles, rfl, rfl⟩ := h
    obtain ⟨hchanged, hread⟩ := changed_rewriteFile hfile
    obtain ⟨hcount, hreads⟩ := ih hfiles
    rw [(keepsDisk_rewriteFile path r).eq hfile] at hcount hreads
    refine ⟨?_, List.forall_mem_cons.2 ⟨hread, hreads⟩⟩
    rw [List.countP_cons, ← hcount, ← hchanged]
    cases changed <;> rfl

/-- The files in which a dry run finds references. -/
theorem contentChanges_references_dry {root : Path} {b : Codebook} {renamed : Nat} {tally : Tally}
    (h : (rewriteTexts root o.dry b (fun _ => ImagePass.rewriter b) .imagePassDone renamed).Yields w tally w') :
    tally.contentChanges = (textsBelow w.disk root).countP (fun f => (Reference.rename b (textAt w.disk f.1)).isSome) ∧
    (b.isEmpty = false → w.disk.Lists root ∧ w.disk.ReadsTexts root) := by
  unfold rewriteTexts at h
  cases hempty : b.isEmpty with
  | true =>
    rw [hempty, if_pos rfl] at h
    obtain ⟨rfl, -⟩ := yields_pure.1 h
    rw [Codebook.eq_empty_of_isEmpty hempty]
    exact ⟨(List.countP_eq_zero.2 fun _ _ => Bool.false_ne_true).symm, fun hne => by cases hne⟩
  | false =>
    rw [hempty, if_neg Bool.false_ne_true] at h
    simp only [yields_bind, yields_note, yields_pure] at h
    obtain ⟨files, _, hfiles, n, _, hrewrite, -, _, rfl, rfl, -⟩ := h
    obtain ⟨all, hall, rfl, _, rfl⟩ := yields_listTexts hfiles
    obtain ⟨hcount, hread⟩ := count_rewriteFiles_dry hrewrite
    rw [Disk.ReadsTexts, textsBelow, Disk.filesBelow_of_files hall]
    refine ⟨hcount.trans (List.countP_map ..), fun _ => ⟨Disk.lists_of_files hall, fun f hf => ?_⟩⟩
    exact hread _ (List.mem_map_of_mem (f := fun f : Path × Language => (f.1, ImagePass.rewriter b)) hf)

/-- The files in which a run finds references: it finds as many as a dry run would on the same disk. -/
theorem contentChanges_references (ho : o.dryRun = false) {root : Path} {b : Codebook} {renamed : Nat} {tally : Tally}
    {base : Location} (ht : w.disk.IsTree) (hroot : w.disk.locate .follow root = .ok base) (hdir : w.disk.isDirectoryAt base = true)
    (h : (rewriteTexts root o b (fun _ => ImagePass.rewriter b) .imagePassDone renamed).Yields w tally w') :
    tally.contentChanges = w.disk.entries.countP (isTextWith base fun _ t => (Reference.rename b t).isSome) := by
  obtain ⟨_, v', hdry, rfl, -⟩ := yields_rewriteTexts_dry ho ht (Disk.isDirectory_iff.2 ⟨base, hroot, hdir⟩) h
  obtain ⟨hcount, hready⟩ := contentChanges_references_dry hdry
  cases hempty : b.isEmpty with
  | true =>
    rw [hcount, Codebook.eq_empty_of_isEmpty hempty, countP_isTextWith_empty fun _ t => t]
    exact List.countP_eq_zero.2 fun _ _ => Bool.false_ne_true
  | false =>
    obtain ⟨hlists, hread⟩ := hready hempty
    rw [hcount, ← countP_textsBelow ht hroot hdir hlists hread]

variable [WordSource σ]

/-- In the image pass of a dry run, the references are counted on the disk as it is. -/
theorem contentChanges_imagePass_dry {root : Path} {tally : Tally} (hempty : w.codebook = .empty)
    (h : (ImagePass.run root o.dry).Yields w tally w') :
    tally.contentChanges = (textsBelow w.disk root).countP (fun f => (Reference.rename w'.codebook (textAt w.disk f.1)).isSome) ∧
    (w'.codebook.isEmpty = false → w.disk.Lists root ∧ w.disk.ReadsTexts root) := by
  rw [imagePass_eq_throughImages] at h
  obtain ⟨renamed, v, hnames, h⟩ := yields_bind.1 h
  have hdisk := (keepsDisk_throughImages root).eq hnames
  cases renamed with
  | none =>
    obtain ⟨rfl, rfl⟩ := yields_pure.1 h
    rw [(yields_throughImages hnames).1 rfl, hempty]
    exact ⟨(List.countP_eq_zero.2 fun _ _ => Bool.false_ne_true).symm, fun hne => by cases hne⟩
  | some n =>
    obtain ⟨_, _, hget, htexts⟩ := yields_bind.1 h
    obtain ⟨rfl, rfl⟩ := yields_get.1 hget
    rw [(yields_rewriteTexts htexts).2.2.1, ← hdisk]
    exact contentChanges_references_dry htexts

/-- In the image pass of a run, the references are counted on a disk whose images have been moved, which makes no difference. -/
theorem contentChanges_imagePass (ho : o.dryRun = false) {root : Path} {base : Location} {tally : Tally}
    (hempty : w.codebook = .empty) (ht : w.disk.IsTree) (hroot : w.disk.locate .follow root = .ok base)
    (hdir' : w'.disk.isDirectory root = true) (h : (ImagePass.run root o).Yields w tally w') :
    tally.contentChanges = w.disk.entries.countP (isTextWith base fun _ t => (Reference.rename w'.codebook t).isSome) := by
  obtain ⟨-, himagesListed, hentered, -⟩ := yields_imagePass hempty h
  rw [hempty] at hentered
  have hnaming : IsImageNaming w.disk root w'.codebook := .of_entered hentered
  rw [imagePass_eq_throughImages] at h
  obtain ⟨renamed, v, hnames, h⟩ := yields_bind.1 h
  cases renamed with
  | none =>
    obtain ⟨rfl, rfl⟩ := yields_pure.1 h
    rw [(yields_throughImages hnames).1 rfl, hempty]
    exact (countP_isTextWith_empty fun _ t => t).symm
  | some n =>
    obtain ⟨_, _, hget, htexts⟩ := yields_bind.1 h
    obtain ⟨rfl, rfl⟩ := yields_get.1 hget
    have hmoved := (yields_throughImages hnames).2 (by simp)
    obtain ⟨-, -, hbook, hrun⟩ := yields_rewriteTexts htexts
    rw [← hbook] at hmoved htexts
    obtain ⟨-, htree, -⟩ := hnaming.eq_carry ht himagesListed ho hmoved
    have hbare : w'.disk.bare = v.disk.bare := by
      rcases hrun with ⟨-, -, heq⟩ | ⟨-, -, -, hrewritten⟩
      · rw [heq]
      · exact hrewritten.bare htree.distinct
    rw [Disk.isDirectory_of_bare hbare] at hdir'
    obtain ⟨base', hlocated, hat⟩ := Disk.isDirectory_iff.1 hdir'
    have hmoving : IsMoving o w'.codebook root base' w.disk v.disk := ⟨ho, ht, himagesListed, hnaming, hmoved, hlocated, hat⟩
    obtain rfl : base' = base := Except.ok.inj (hmoving.located_before.symm.trans hroot)
    rw [contentChanges_references ho htree hlocated hat htexts, hmoving.countP_isTextWith]

end Pass

namespace Project

variable {o : Options} [WordSource σ]

/-- What a run has come to at the end of the class pass: the classes have tokens, and the text files are edited in their places. -/
theorem edit_throughClasses (ho : o.dryRun = false) {root : Path} {base : Location} {w w' : Workspace σ} {c : Tally × Codebook}
    (ht : w.disk.IsTree) (hroot : w.disk.locate .follow root = .ok base) (hdir : w.disk.isDirectoryAt base = true)
    (h : (throughClasses root o).Yields w c w') :
    IsClassNaming w.disk root o.classLength c.2 ∧ w'.disk = w.disk.edit (editTexts base (ClassPass.rewriter c.2)) := by
  obtain ⟨-, images, w₁, hreserve, hclasses, hbook⟩ := yields_throughClasses_iff.1 h
  obtain ⟨-, hlists, -, hentered, hwritten⟩ := Pass.yields_classPass hclasses
  have hdisk := (Pass.keeps_reserveNames Pass.isWork_disk _).eq hreserve
  simp only at hdisk hlists hentered hwritten
  rw [hdisk] at hlists hentered hwritten
  rw [hbook]
  exact ⟨hentered.isClassNaming fun n hn => Mint.mem_taken_reserveAll.2 (.inl hn),
    ClassPass.eq_edit ho ht hroot hdir hlists hwritten⟩

/-- A dry run looks for the references in the texts as they are at the beginning, and for the same names as the run. -/
theorem contentChanges_run_dry {root : Path} {w w' v' : Workspace σ} {report report' : Report} (ht : w.disk.IsTree)
    (ho : o.dryRun = false) (h : (run root o).Yields w report w') (hdry : (run root o.dry).Yields w report' v') :
    report'.images.contentChanges =
      (textsBelow w.disk root).countP (fun f => (Reference.rename report.imageNames (textAt w.disk f.1)).isSome) ∧
    (report.imageNames.isEmpty = false → w.disk.Lists root ∧ w.disk.ReadsTexts root) := by
  obtain ⟨v₁, v₂, hclasses', himages', hbook', -⟩ := exists_yields_imagePass hdry
  rw [(agrees_of_yields ho ht h hdry).imageNames] at hbook'
  have hcount := Pass.contentChanges_imagePass_dry rfl himages'
  simp only at hcount
  rwa [(keepsDisk_throughClasses root).eq hclasses', ← hbook'] at hcount

/-- A run looks for the references in the texts whose class names it has exchanged. -/
theorem contentChanges_run {root : Path} {base : Location} {w w' : Workspace σ} {report : Report} (ht : w.disk.IsTree)
    (ho : o.dryRun = false) (hroot : w.disk.locate .follow root = .ok base) (hdir : w.disk.isDirectoryAt base = true)
    (h : (run root o).Yields w report w') (hdir' : w'.disk.isDirectory root = true) :
    report.images.contentChanges = w.disk.entries.countP (isTextWith base fun l t =>
      (Reference.rename report.imageNames ((l.rename report.classNames t).getD t)).isSome) := by
  obtain ⟨w₁, w₂, hclasses, himages, hbook, hdisk', -⟩ := exists_yields_imagePass h
  obtain ⟨hnaming, hedit⟩ := edit_throughClasses ho ht hroot hdir hclasses
  have hbare : w₁.disk.bare = w.disk.bare := by
    rw [hedit, Disk.bare_edit]
  rw [hdisk'] at hdir'
  have hcount := Pass.contentChanges_imagePass (w := { w₁ with codebook := .empty }) ho rfl (ht.of_bare hbare)
    ((Disk.locate_of_bare hbare _ _).trans hroot) hdir' himages
  simp only at hcount
  rw [hcount, hedit, countP_edit hnaming.isAsciiCodebook, hbook]

/-- What a run has named: classes by its tokens, and images whose names are not empty. -/
theorem names_of_yields {root : Path} {w w' : Workspace σ} {report : Report} (ht : w.disk.IsTree) (ho : o.dryRun = false)
    (h : (run root o).Yields w report w') :
    IsClassNaming w.disk root o.classLength report.classNames ∧ ∀ n ∈ report.imageNames.names, n ≠ [] := by
  obtain ⟨w₁, w₂, hclasses, himages, hbook, -⟩ := exists_yields_imagePass h
  obtain ⟨base, hroot, hat⟩ := Disk.isDirectory_iff.1 (yields_throughClasses_iff.1 hclasses).1
  obtain ⟨hnaming, hedit⟩ := edit_throughClasses ho ht hroot hat hclasses
  have ht₁ : w₁.disk.IsTree := ht.of_bare (by rw [hedit, Disk.bare_edit])
  obtain ⟨-, hlisted, hentered, -⟩ := Pass.yields_imagePass rfl himages
  rw [hbook]
  exact ⟨hnaming, (IsImageNaming.of_entered hentered).ne_nil ht₁ hlisted⟩

/-- When a run and a dry run from the same workspace both end well, each counts the files in which references are exchanged. The dry
run counts the text files that refer to an image by their text as it is at the beginning. The run counts those that do so by this text
with its class names exchanged, as long as the path of the project still leads to a directory after it. These are as many, if no
class name or pseudonym is exposed in the name of an image, and no name of an image can stand in itself. -/
theorem run_dry_references {root : Path} {w w' v' : Workspace σ} {report report' : Report} (ht : w.disk.IsTree)
    (ho : o.dryRun = false) (h : (run root o).Yields w report w') (hdry : (run root o.dry).Yields w report' v') :
    report'.images.contentChanges =
      (textsBelow w.disk root).countP (fun f => (Reference.rename report.imageNames (textAt w.disk f.1)).isSome) ∧
    (w'.disk.isDirectory root = true →
      report.images.contentChanges = (textsBelow w.disk root).countP (fun f =>
        (Reference.rename report.imageNames ((f.2.rename report.classNames (textAt w.disk f.1)).getD (textAt w.disk f.1))).isSome) ∧
      ((∀ n ∈ report.imageNames.names, Reference.Untouched report.classNames n) →
        report'.images.contentChanges = report.images.contentChanges)) := by
  obtain ⟨hforetold, hready⟩ := contentChanges_run_dry ht ho h hdry
  obtain ⟨w₁, w₂, hclasses, -⟩ := exists_yields_imagePass h
  obtain ⟨base, hroot, hat⟩ := Disk.isDirectory_iff.1 (yields_throughClasses_iff.1 hclasses).1
  refine ⟨hforetold, fun hdir' => ?_⟩
  have hcounted : report.images.contentChanges = (textsBelow w.disk root).countP (fun f => (Reference.rename report.imageNames
      ((f.2.rename report.classNames (textAt w.disk f.1)).getD (textAt w.disk f.1))).isSome) := by
    rw [contentChanges_run ht ho hroot hat h hdir']
    cases hempty : report.imageNames.isEmpty with
    | true =>
      rw [Codebook.eq_empty_of_isEmpty hempty, countP_isTextWith_empty]
      exact (List.countP_eq_zero.2 fun _ _ => Bool.false_ne_true).symm
    | false =>
      obtain ⟨hlists, hread⟩ := hready hempty
      exact (countP_textsBelow ht hroot hat hlists hread _).symm
  refine ⟨hcounted, fun huntouched => ?_⟩
  obtain ⟨hnaming, hne⟩ := names_of_yields ht ho h
  have hword : ∀ r ∈ report.classNames.names ++ report.classNames.pseudonyms, r ≠ [] ∧ ∀ c ∈ r, isIdentChar c = true := by
    intro r hr
    rcases List.mem_append.1 hr with hr | hr
    · exact hnaming.word_of_mem_names hr
    · exact hnaming.isClassCodebook r hr
  rw [hforetold, hcounted]
  refine List.countP_congr fun f _ => ?_
  rw [Reference.isSome_rename_renamed hword hne huntouched]

namespace PageWitness

open SiteWitness (bytes root)

/-- The site with one class and one image, and a page beside its stylesheet. -/
def site (css page image : String) : Workspace WordCycle :=
  { DottedWitness.site css image with
    disk := { entries := (DottedWitness.site css image).disk.entries ++ [([bytes "site", bytes "b.html"], .file (bytes page))] } }

/-- The report on a class and an image, with the number of files in which references have been exchanged. -/
def report (className image pseudonym : String) (changes : Nat) : Report where
  classNames := ⟨[(className.toList, "a".toList)]⟩
  imageNames := ⟨[(image.toList, pseudonym.toList)]⟩
  classes := { filesProcessed := 2, contentChanges := 2 }
  images := { filesProcessed := 2, pathsRenamed := 1, contentChanges := changes }

/-- The site with the class `logo` and an image of the logo. -/
def logoSite : Workspace WordCycle :=
  site ".logo\x7bk:url(img/logo.png)\x7d" "<img class=\"logo\" src=\"img/logo.png\">" "logo.png"

end PageWitness

open PageWitness in
open DottedWitness (options) in
open SiteWitness (root) in
/-- The class is named like the image but for the ending, and both runs count the sheet and the page. -/
theorem run_dry_references_logo : logoSite.disk.IsTree ∧
    (run root options).Yields logoSite (report "logo" "logo.png" "0000000000.png" 2) ((run root options).outcome logoSite).2 ∧
    ((run root options).outcome logoSite).2.disk.isDirectory root = true ∧
    Reference.Untouched (report "logo" "logo.png" "0000000000.png" 2).classNames "logo.png".toList ∧
    ∃ report' v', (run root options.dry).Yields logoSite report' v' ∧ report'.images.contentChanges = 2 := by
  have ht : logoSite.disk.IsTree := by decide
  have hrun : (run root options).Yields logoSite (report "logo" "logo.png" "0000000000.png" 2) ((run root options).outcome logoSite).2 :=
    Pass.yields_of_toOption (by decide +kernel)
  have hdry : (run root options.dry).Yields logoSite (report "logo" "logo.png" "0000000000.png" 2)
      ((run root options.dry).outcome logoSite).2 := Pass.yields_of_toOption (by decide +kernel)
  have hdir : ((run root options).outcome logoSite).2.disk.isDirectory root = true := by decide +kernel
  have huntouched : Reference.Untouched (report "logo" "logo.png" "0000000000.png" 2).classNames "logo.png".toList :=
    ⟨fun _ => Reference.selfApart_of_chars (List.all_eq_true.1 (by decide)), by decide⟩
  obtain ⟨-, hcounts⟩ := run_dry_references ht rfl hrun hdry
  obtain ⟨-, hsame⟩ := hcounts hdir
  refine ⟨ht, hrun, hdir, huntouched, _, _, hdry, hsame fun n hn => ?_⟩
  obtain rfl := List.mem_singleton.1 hn
  exact huntouched

open DottedWitness in
open SiteWitness (root) in
/-- The counts may differ: an image may be named by a dot and a class, and a selector that is made of both refers to it until the class
has its token. -/
theorem run_dry_references_false : ¬∀ (root : Path) (o : Options) (w w' v' : Workspace WordCycle) (report report' : Report),
    w.disk.IsTree → o.dryRun = false → (run root o).Yields w report w' → (run root o.dry).Yields w report' v' →
    report'.images.contentChanges = report.images.contentChanges := by
  intro hall
  have hrun : (run root options).Yields (site "p .b\x7b\x7d" ".b") (report ".b" "0000000000" 0) (after "p .b\x7b\x7d" ".b") :=
    Pass.yields_of_toOption (by decide +kernel)
  have hdry : (run root options.dry).Yields (site "p .b\x7b\x7d" ".b") (report ".b" "0000000000" 1)
      ((run root options.dry).outcome (site "p .b\x7b\x7d" ".b")).2 := Pass.yields_of_toOption (by decide +kernel)
  exact absurd (hall root options _ _ _ _ _ (by decide) rfl hrun hdry) (by decide)

open PageWitness in
open DottedWitness (options) in
open SiteWitness (root) in
/-- They may differ where no class is named behind a dot of the image's name: an image may bear the name of a class, and the attribute
that names the class refers to it until the class has its token. -/
theorem run_dry_references_word : ¬∀ (root : Path) (o : Options) (w w' v' : Workspace WordCycle) (report report' : Report),
    w.disk.IsTree → o.dryRun = false → (run root o).Yields w report w' → w'.disk.isDirectory root = true →
    (run root o.dry).Yields w report' v' →
    (∀ n ∈ report.imageNames.names, (∀ c ∈ n, isFileNameChar c = true) ∧
      ∀ r ∈ report.classNames.names ++ report.classNames.pseudonyms, ¬('.' :: r) <:+: n) →
    report'.images.contentChanges = report.images.contentChanges := by
  intro hall
  have hrun : (run root options).Yields (site ".b\x7b\x7d" "<p class=\"b\">" "b") (report "b" "b" "0000000000" 0)
      ((run root options).outcome (site ".b\x7b\x7d" "<p class=\"b\">" "b")).2 := Pass.yields_of_toOption (by decide +kernel)
  have hdry : (run root options.dry).Yields (site ".b\x7b\x7d" "<p class=\"b\">" "b") (report "b" "b" "0000000000" 1)
      ((run root options.dry).outcome (site ".b\x7b\x7d" "<p class=\"b\">" "b")).2 := Pass.yields_of_toOption (by decide +kernel)
  have hnames : ∀ n ∈ (report "b" "b" "0000000000" 0).imageNames.names, n.all isFileNameChar = true ∧
      ∀ r ∈ (report "b" "b" "0000000000" 0).classNames.names ++ (report "b" "b" "0000000000" 0).classNames.pseudonyms,
        ¬('.' :: r) <:+: n := by decide
  refine absurd (hall root options _ _ _ _ _ (by decide) rfl hrun (by decide +kernel) hdry fun n hn => ?_) (by decide)
  exact ⟨List.all_eq_true.1 (hnames n hn).1, (hnames n hn).2⟩

open DottedWitness in
open SiteWitness (root) in
/-- A name that can stand in itself may be seen only when a class before it has its token, though no class is named in it: the search
passes over the end of `xc` and the first `c` behind it as one occurrence of `c c`. -/
theorem run_dry_references_overlap : ¬∀ (root : Path) (o : Options) (w w' v' : Workspace WordCycle) (report report' : Report),
    w.disk.IsTree → o.dryRun = false → (run root o).Yields w report w' → w'.disk.isDirectory root = true →
    (run root o.dry).Yields w report' v' →
    (∀ n ∈ report.imageNames.names, ∀ r ∈ report.classNames.names ++ report.classNames.pseudonyms, ¬Reference.Exposed r n) →
    report'.images.contentChanges = report.images.contentChanges := by
  intro hall
  have hrun : (run root options).Yields (site ".xc\x7b\x7d.xc c c\x7b\x7d" "c c")
      { report "c c" "0000000000" 1 with classNames := ⟨[("xc".toList, "a".toList)]⟩ } (after ".xc\x7b\x7d.xc c c\x7b\x7d" "c c") :=
    Pass.yields_of_toOption (by decide +kernel)
  have hdry : (run root options.dry).Yields (site ".xc\x7b\x7d.xc c c\x7b\x7d" "c c")
      { report "c c" "0000000000" 0 with classNames := ⟨[("xc".toList, "a".toList)]⟩ }
      ((run root options.dry).outcome (site ".xc\x7b\x7d.xc c c\x7b\x7d" "c c")).2 := Pass.yields_of_toOption (by decide +kernel)
  exact absurd (hall root options _ _ _ _ _ (by decide) rfl hrun (by decide +kernel) hdry (by decide)) (by decide)

/-- The site that is led to by a link, with a reference to the image `u` in each of its files. -/
def LinkedRootWitness.referring : Workspace WordCycle :=
  { site with disk := site.disk.edit fun _ _ => SiteWitness.bytes "\"u\"" }

open LinkedRootWitness in
/-- The counts differ when the root is lost: the run then finds no text file in which to exchange the references to `u`. -/
theorem run_dry_references_lost : ¬∀ (root : Path) (o : Options) (w w' v' : Workspace WordCycle) (report report' : Report),
    w.disk.IsTree → o.dryRun = false → (run root o).Yields w report w' → (run root o.dry).Yields w report' v' →
    (∀ n ∈ report.imageNames.names, Reference.Untouched report.classNames n) →
    report'.images.contentChanges = report.images.contentChanges := by
  intro hall
  have hrun : (run root {}).Yields referring (report 0) ((run root {}).outcome referring).2 :=
    Pass.yields_of_toOption (by decide +kernel)
  have hdry : (run root (Options.dry {})).Yields referring
      { report 1 with images := { (report 1).images with contentChanges := 1 } }
      ((run root (Options.dry {})).outcome referring).2 := Pass.yields_of_toOption (by decide +kernel)
  have hchars : ∀ n ∈ (report 0).imageNames.names, n.all isFileNameChar = true := by decide
  have huntouched : ∀ n ∈ (report 0).imageNames.names, Reference.Untouched (report 0).classNames n := fun n hn =>
    ⟨fun _ => Reference.selfApart_of_chars (List.all_eq_true.1 (hchars n hn)), fun _ hr => absurd hr List.not_mem_nil⟩
  exact absurd (hall root {} _ _ _ _ _ (by decide +kernel) rfl hrun hdry huntouched) (by decide)

end Project

end Pseudonym
