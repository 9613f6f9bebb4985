import Pseudonym.Proofs.Classes
import Pseudonym.Proofs.Images

/-!
# What a run makes of a project

A run lists the project several times and goes over it twice, and a file may be rewritten, moved and rewritten again. In the end
the disk is what one function makes of each of its entries by itself (`Report.newEntry`): the location and the content of a file
depend on its location and its content at the beginning and on the two codebooks of the report, and on nothing else
(`run_disk`).
-/

namespace Pseudonym

open ImagePass (directoryName)

variable {σ : Type}

namespace Report

/-- Where a file stands after a run: a file below the image directory has the name that the codebook has for its own. -/
def newLocation (r : Report) (base loc : Location) : Location :=
  if (base ++ [directoryName]).isPrefixOf loc then r.imageNames.newLocation loc else loc

/-- A text of a language after a run: its class names are exchanged, and then its references to images. -/
def newText (r : Report) (l : Language) (t : Text) : Text :=
  let styled := (l.rename r.classNames t).getD t
  (Reference.rename r.imageNames styled).getD styled

/-- What a file holds after a run: if it is a text file of the project, its new text in the charset that it was read with. -/
def newContent (r : Report) (base loc : Location) (c : Bytes) : Bytes :=
  if base.isPrefixOf loc then
    match languageAt loc with
    | some l => (Charset.decode c).2.encode (r.newText l (Charset.decode c).1)
    | none => c
  else c

/-- What stands on the disk after a run for what stood there before: directories and links stay as they are. -/
def newEntry (r : Report) (base : Location) (x : Location × Entry) : Location × Entry :=
  match x.2 with
  | .file c => (r.newLocation base x.1, .file (r.newContent base x.1 c))
  | e => (x.1, e)

end Report

/-! ## The two rewriters, one after the other -/

/-- The second rewriter reads what the first one has written. -/
theorem Report.apply_apply (r : Report) (hascii : IsAsciiCodebook r.classNames) (l : Language) (c : Bytes) :
    (ImagePass.rewriter r.imageNames).apply ((ClassPass.rewriter r.classNames l).apply c) =
      (Charset.decode c).2.encode (r.newText l (Charset.decode c).1) := by
  rw [Rewriter.apply_eq (ImagePass.rewriter r.imageNames), Rewriter.apply_eq (ClassPass.rewriter r.classNames l)]
  simp only [ClassPass.rewriter]
  rw [Language.decode_encode_rename hascii]
  rfl

/-! ## The disk after a run -/

namespace RunAux

variable {d : Disk} {root : Path} {base : Location} {r : Report}

/-- Text files of one language below the root are edited alike. -/
theorem editTexts_congr {rewriter : Language → Rewriter} {loc loc' : Location}
    (hbelow : base.isPrefixOf loc = base.isPrefixOf loc') (hlanguage : languageAt loc = languageAt loc') (c : Bytes) :
    editTexts base rewriter loc c = editTexts base rewriter loc' c := by
  unfold editTexts
  rw [hbelow, hlanguage]

/-- A file of a project stays below the location of the project. -/
theorem isPrefixOf_newLocation {loc : Location} (hloc : base ++ [directoryName] ≠ loc) :
    base.isPrefixOf (r.newLocation base loc) = base.isPrefixOf loc := by
  unfold Report.newLocation
  split
  · next hprefix =>
    obtain ⟨rest, rfl⟩ := List.isPrefixOf_iff_prefix.1 hprefix
    have hne : rest ≠ [] := by
      rintro rfl
      exact hloc (List.append_nil _).symm
    obtain ⟨init, n, rfl⟩ : ∃ init n, rest = init ++ [n] := ⟨_, _, (List.dropLast_concat_getLast hne).symm⟩
    rw [← List.append_assoc]
    refine Codebook.isPrefixOf_newLocation (fun h => by simpa using congrArg List.length h) fun h => ?_
    rw [Codebook.newLocation_concat] at h
    simpa using congrArg List.length h
  · rfl

/-- A file keeps its language at its new location. -/
theorem languageAt_newLocation (h : IsImageNaming d root r.imageNames) (loc : Location) :
    languageAt (r.newLocation base loc) = languageAt loc := by
  unfold Report.newLocation
  split
  · exact h.languageAt_newLocation loc
  · rfl

/-- What the two passes write one after the other is the new content. -/
theorem newContent_eq (hascii : IsAsciiCodebook r.classNames) (loc : Location) (c : Bytes) :
    editTexts base (fun _ => ImagePass.rewriter r.imageNames) loc
        (editTexts base (ClassPass.rewriter r.classNames) loc c) = r.newContent base loc c := by
  unfold editTexts Report.newContent
  split
  · cases languageAt loc with
    | none => rfl
    | some l => exact r.apply_apply hascii l c
  · rfl

/-- Rewriting, moving and rewriting again is one function on the entries of a project. -/
theorem edit_carry_edit (hproject : IsProject d root base) (hascii : IsAsciiCodebook r.classNames)
    (hnaming : IsImageNaming d root r.imageNames) {d₁ : Disk}
    (hd₁ : d₁ = d.edit (editTexts base (ClassPass.rewriter r.classNames))) :
    (d₁.carry (moveAll r.imageNames base (imageFiles d₁ base))).edit
        (editTexts base fun _ => ImagePass.rewriter r.imageNames) =
      { d with entries := d.entries.map (r.newEntry base) } := by
  have hbare : d₁.bare = d.bare := by
    rw [hd₁, Disk.bare_edit]
  have hproject₁ := hproject.of_bare hbare
  have hmap : (d.entries.map fun x => (moveAll r.imageNames base (imageFiles d₁ base) x.1,
      (x.2.edit (editTexts base (ClassPass.rewriter r.classNames) x.1)).edit
        (editTexts base (fun _ => ImagePass.rewriter r.imageNames)
          (moveAll r.imageNames base (imageFiles d₁ base) x.1)))) = d.entries.map (r.newEntry base) := by
    refine List.map_congr_left ?_
    rintro ⟨loc, e⟩ hx
    have hx₁ : (loc, e.edit (editTexts base (ClassPass.rewriter r.classNames) loc)) ∈ d₁.entries := by
      rw [hd₁]
      exact List.mem_map_of_mem hx
    cases e with
    | file c =>
      have hloc : base ++ [directoryName] ≠ loc := by
        rintro rfl
        cases hproject.imageDirectory _ ((hproject.tree.distinct.entry?_eq_some_iff (by simp)).2 hx)
      have hmove : moveAll r.imageNames base (imageFiles d₁ base) loc = r.newLocation base loc :=
        hproject₁.moveAll_file r.imageNames hx₁
      simp only [Entry.edit]
      rw [hmove, editTexts_congr (isPrefixOf_newLocation hloc) (languageAt_newLocation hnaming loc), newContent_eq hascii]
      rfl
    | directory =>
      exact congrArg (·, Entry.directory) (hproject₁.moveAll_other r.imageNames hx₁ fun c => by simp [Entry.edit])
    | link target =>
      exact congrArg (·, Entry.link target) (hproject₁.moveAll_other r.imageNames hx₁ fun c => by simp [Entry.edit])
  rw [← hmap]
  generalize moveAll r.imageNames base (imageFiles d₁ base) = move
  rw [hd₁]
  unfold Disk.edit Disk.carry
  rw [List.map_map, List.map_map]
  rfl

end RunAux

open RunAux

/-- A run that ends well and is no dry run makes one thing of each entry of the disk, whatever its source of random words: the
disk afterwards holds the new entries of the old ones, no two of them at one location, and every image whose name is a text has a
new name. The project has a real image directory or none, and no link in there bears a name that the run has made. -/
theorem run_disk [WordSource σ] {root : Path} {o : Options} {w w' : Workspace σ} {report : Report} {base : Location}
    (htree : w.disk.IsTree) (hroot : w.disk.locate .follow root = .ok base)
    (himg : ∀ e, w.disk.entry? (base ++ [directoryName]) = some e → e = .directory) (hdry : o.dryRun = false)
    (h : (Project.run root o).Yields w report w')
    (hlink : ∀ names, ∀ p ∈ report.imageNames.pseudonyms, ∀ target,
      w.disk.entry? (base ++ directoryName :: (names ++ [Utf8.encode p])) ≠ some (.link target)) :
    w'.disk = { w.disk with entries := w.disk.entries.map (report.newEntry base) } ∧
    w'.disk.IsTree ∧
    (w.disk.entries.map fun x => (report.newEntry base x).1).Nodup ∧
    ∀ names n c t, w.disk.entry? (base ++ directoryName :: (names ++ [n])) = some (.file c) → Utf8.decode? n = some t →
      ∃ p, report.imageNames.get? t = some p := by
  obtain ⟨_, _, _, d₁, d₂, hisdir, -, hlists, hreads, hclasses, hwritten, rfl, hlists', himages, hmoved, hwritten'⟩ :=
    Pass.yields_run h
  have hbare : d₁.bare = w.disk.bare := by
    rcases hwritten with ⟨-, rfl⟩ | hwritten
    · rfl
    · exact hwritten.bare htree.distinct
  have hnamings : Namings w.disk root o.classLength report.classNames report.imageNames :=
    .of_entered hbare ⟨hlists, hreads⟩ hclasses hlists' himages
  have hnaming := hnamings.isImageNaming rfl
  have hdir : w.disk.isDirectoryAt base = true := by
    obtain ⟨loc, hloc, hdir⟩ := Disk.isDirectory_iff.1 hisdir
    rw [hroot] at hloc
    exact Except.ok.inj hloc ▸ hdir
  have hproject : IsProject w.disk root base := ⟨htree, hroot, hdir, hlists, himg, hnamings.imagesListed⟩
  -- the class pass edits the files in their places
  have hd₁ : d₁ = w.disk.edit (editTexts base (ClassPass.rewriter report.classNames)) :=
    ClassPass.eq_edit hdry htree hroot hdir hlists hwritten
  have hproject₁ := hproject.of_bare hbare
  have hnaming₁ := hnamings.isImageNaming hbare
  have hlink₁ : ∀ names, ∀ p ∈ report.imageNames.pseudonyms, ∀ target,
      d₁.entry? (base ++ directoryName :: (names ++ [Utf8.encode p])) ≠ some (.link target) := by
    intro names p hp target hentry
    exact hlink names p hp target (((Disk.SameFrame.of_bare hbare).entry _ _ fun c => by simp).1 hentry)
  -- the image pass moves the images
  obtain ⟨rfl, ht₂, hframe⟩ := hproject₁.eq_carry hnaming₁ hdry hlink₁ hmoved
  -- and edits all files where they stand then
  have hfinal : w'.disk = (d₁.carry (moveAll report.imageNames base (imageFiles d₁ base))).edit
      (editTexts base fun _ => ImagePass.rewriter report.imageNames) := by
    rcases hwritten' with ⟨hempty, heq⟩ | ⟨hlists₂, hwritten'⟩
    · rw [heq, Codebook.eq_empty_of_isEmpty hempty]
      exact (Disk.edit_editTexts_of_rename fun _ _ => rfl).symm
    · refine hwritten'.eq_editTexts hdry ht₂ (hframe.locate hproject₁.located hproject₁.directory) ?_ hlists₂
      rw [hframe.isDirectoryAt]
      exact hproject₁.directory
  have hdisk := hfinal.trans (edit_carry_edit hproject hnamings.isClassNaming.isAsciiCodebook hnaming hd₁)
  have htree' : w'.disk.IsTree := by
    rw [hfinal]
    exact ht₂.of_bare (Disk.bare_edit _)
  refine ⟨hdisk, htree', ?_, ?_⟩
  · have hnodup := htree'.distinct
    rw [hdisk, Disk.Distinct, List.map_map] at hnodup
    exact hnodup
  · intro names n c t hfile hdecode
    refine hnaming.exists_get? (hproject.mem_leavesBelow.2 ⟨directoryName :: (names ++ [n]), ?_, ?_⟩)
    · exact (mem_imageFiles htree).2 ⟨names ++ [n], by simp, rfl, c, hfile⟩
    · rw [← List.cons_append, List.getLast?_concat]
      exact hdecode

namespace GalleryWitness

open SiteWitness (bytes root)

/-- A site with a stylesheet that is not UTF-8, and in its image directory an image, a script, a file whose name is no text and a
link to the image. -/
def gallery : Workspace WordCycle where
  disk := { entries := [
    ([bytes "site"], .directory),
    ([bytes "site", bytes "a.css"], .file (bytes ".menu \x7b\x7d" ++ [0xE9])),
    ([bytes "site", bytes "img"], .directory),
    ([bytes "site", bytes "img", bytes "logo.png"], .file [0x89, 0x50]),
    ([bytes "site", bytes "img", bytes "menu.js"], .file (bytes "f('menu','logo.png')")),
    ([bytes "site", bytes "img", [0xFF]], .file []),
    ([bytes "site", bytes "img", bytes "old.png"], .link (.ofText "logo.png".toList))] }
  mint := { source := { words := [0x0123456789ABCDEF, 0xFEDCBA9876543210, 0x0F1E2D3C4B5A6978] } }

def report : Report where
  classNames := ⟨[("menu".toList, "aZ30Z30Z".toList)]⟩
  imageNames := ⟨[("logo.png".toList, "30Z30Z30Z3.png".toList), ("menu.js".toList, "0Z30Z30Z30.js".toList)]⟩
  classes := { filesProcessed := 2, contentChanges := 2 }
  images := { filesProcessed := 2, pathsRenamed := 2, contentChanges := 1 }

theorem yields_report : (Project.run root {}).Yields gallery report ((Project.run root {}).outcome gallery).2 :=
  Pass.yields_of_toOption (by decide +kernel)

/-- No entry of the gallery bears a new name. -/
theorem getLast?_ne : ∀ e ∈ gallery.disk.entries, ∀ p ∈ report.imageNames.pseudonyms, e.1.getLast? ≠ some (Utf8.encode p) := by
  decide

end GalleryWitness

open GalleryWitness in
open SiteWitness (bytes root) in
/-- A gallery with a link and a name that is no text: every entry is where the theorem says, with the content that it says. -/
theorem run_disk_gallery : gallery.disk.IsTree ∧ gallery.disk.locate .follow root = .ok [bytes "site"] ∧
    (Project.run root {}).Yields gallery report ((Project.run root {}).outcome gallery).2 ∧
    ((Project.run root {}).outcome gallery).2.disk =
      { gallery.disk with entries := gallery.disk.entries.map (report.newEntry [bytes "site"]) } ∧
    gallery.disk.entries.map (report.newEntry [bytes "site"]) = [
      ([bytes "site"], .directory),
      ([bytes "site", bytes "a.css"], .file (bytes ".aZ30Z30Z \x7b\x7d" ++ [0xE9])),
      ([bytes "site", bytes "img"], .directory),
      ([bytes "site", bytes "img", bytes "30Z30Z30Z3.png"], .file [0x89, 0x50]),
      ([bytes "site", bytes "img", bytes "0Z30Z30Z30.js"], .file (bytes "f('aZ30Z30Z','30Z30Z30Z3.png')")),
      ([bytes "site", bytes "img", [0xFF]], .file []),
      ([bytes "site", bytes "img", bytes "old.png"], .link (.ofText "logo.png".toList))] := by
  have htree : gallery.disk.IsTree := by decide
  have hroot : gallery.disk.locate .follow root = .ok [bytes "site"] := by decide +kernel
  have himg : ∀ e, gallery.disk.entry? ([bytes "site"] ++ [directoryName]) = some e → e = .directory := by
    intro e he
    exact Option.some.inj (he.symm.trans (by decide))
  have hlink : ∀ names, ∀ p ∈ report.imageNames.pseudonyms, ∀ target,
      gallery.disk.entry? ([bytes "site"] ++ directoryName :: (names ++ [Utf8.encode p])) ≠ some (.link target) := by
    intro names p hp target hentry
    refine getLast?_ne _ (Disk.mem_entries_of_entry_eq_some (by simp) hentry) p hp ?_
    rw [← List.cons_append, ← List.append_assoc, List.getLast?_concat]
  exact ⟨htree, hroot, yields_report, (run_disk htree hroot himg rfl yields_report hlink).1, by decide +kernel⟩

end Pseudonym
