import Pseudonym.Proofs.Bare
import Pseudonym.Proofs.Stages

/-!
# The codebooks of a run

One mint serves both passes of a run, and it remembers all it has handed out. Before the first class token is made, the
names of the images and all class names are reserved; before the first image token, the names of the images once more. So
the tokens of a run are distinct, whichever pass they are of, and none of them is the name of a class or of an image
(`run_namings`). The class pass writes to files that stand already, so the images that are listed after it are those from
before (`Rewritten.bare`).
-/

namespace Pseudonym

variable {σ : Type}

/-- A file that is rewritten can be read, so that no entry is made and none is lost. -/
theorem Rewriter.Writes.bare {o : Options} {path : Path} {r : Rewriter} {d d' : Disk} (hd : d.Distinct)
    (h : r.Writes o path d d') : d'.bare = d.bare := by
  obtain ⟨bytes, hread, ⟨-, rfl⟩ | ⟨new, -, hwrite⟩⟩ := h
  · rfl
  · split at hwrite
    · rw [hwrite]
    · exact Disk.bare_write hd hread hwrite

/-- To rewrite files changes contents and nothing else. -/
theorem Rewritten.bare {o : Options} {files : List (Path × Rewriter)} {d d' : Disk} (hd : d.Distinct)
    (h : Rewritten o files d d') : d'.bare = d.bare := by
  induction h with
  | nil d => rfl
  | cons hwrites _ ih =>
    have hfirst := hwrites.bare hd
    exact (ih (hd.of_bare hfirst)).trans hfirst

/-- Files that are rewritten could all be read at the beginning. -/
theorem Rewritten.exists_read {o : Options} {files : List (Path × Rewriter)} {d d' : Disk} (hd : d.Distinct)
    (h : Rewritten o files d d') {f : Path × Rewriter} (hf : f ∈ files) : ∃ bytes, d.read f.1 = .ok bytes := by
  induction h with
  | nil d => cases hf
  | cons hwrites _ ih =>
    rcases List.mem_cons.1 hf with rfl | hf
    · obtain ⟨bytes, hread, -⟩ := hwrites
      exact ⟨bytes, hread⟩
    · have hbare := hwrites.bare hd
      exact Disk.exists_read_of_bare hbare.symm (ih (hd.of_bare hbare) hf)

/-- Disks that differ in contents only have the same images. -/
theorem imagesBelow_of_bare {d d' : Disk} (h : d'.bare = d.bare) (root : Path) :
    imagesBelow d' root = imagesBelow d root := by
  rw [imagesBelow, imagesBelow, Disk.isDirectory_of_bare h, Disk.filesBelow, Disk.filesBelow, Disk.files_of_bare h]

/-- Disks that differ in contents only have the same names of images. -/
theorem leavesBelow_of_bare {d d' : Disk} (h : d'.bare = d.bare) (root : Path) :
    leavesBelow d' root = leavesBelow d root := by
  rw [leavesBelow, leavesBelow, imagesBelow_of_bare h]

/-- Disks that differ in contents only have the same text files. -/
theorem textsBelow_of_bare {d d' : Disk} (h : d'.bare = d.bare) (root : Path) : textsBelow d' root = textsBelow d root := by
  rw [textsBelow, textsBelow, Disk.filesBelow, Disk.filesBelow, Disk.files_of_bare h]

/-- Disks that differ in contents only can be listed alike. -/
theorem lists_of_bare {d d' : Disk} (h : d'.bare = d.bare) {root : Path} (hlists : d.Lists root) : d'.Lists root := by
  rw [Disk.Lists, Disk.filesBelow, Disk.files_of_bare h]
  exact hlists

/-- The text files that are rewritten below a directory could all be read at the beginning. -/
theorem Rewritten.readsTexts {o : Options} {root : Path} {d d' : Disk} (hd : d.Distinct) (rewriter : Language → Rewriter)
    (h : Rewritten o ((textsBelow d root).map fun f => (f.1, rewriter f.2)) d d') : d.ReadsTexts root :=
  fun _ hf => h.exists_read hd (List.mem_map_of_mem (f := fun f : Path × Language => (f.1, rewriter f.2)) hf)

/-- Disks that differ in contents only can be read alike. -/
theorem readsTexts_of_bare {d d' : Disk} (h : d'.bare = d.bare) {root : Path} (hreads : d.ReadsTexts root) :
    d'.ReadsTexts root := by
  intro f hf
  rw [textsBelow_of_bare h] at hf
  exact Disk.exists_read_of_bare h (hreads f hf)

/-- The codebooks that a run over a project on a disk makes: the names that it finds, each with a token that nobody else
has. -/
structure Namings (d : Disk) (root : Path) (classLength : Nat) (classNames imageNames : Codebook) : Prop where
  /-- The stylesheets that are scanned are all those below the root, and each of them can be read. -/
  scanned : d.Lists root ∧
    ∀ path ∈ d.filesBelow root, Language.ofPath? path = some .stylesheet → ∃ bytes, d.read path = .ok bytes
  /-- The images are all the files below the image directory. -/
  imagesListed : d.isDirectory (ImagePass.directory root) = true → d.Lists (ImagePass.directory root)
  classes : classNames.names = (styledBelow d root).eraseDups
  classToken : ∀ p ∈ classNames.pseudonyms, IsClassToken classLength p
  images : imageNames.names = (leavesBelow d root).eraseDups
  imageToken : ∀ e ∈ imageNames.entries, IsFileToken (textExtension? e.1) e.2
  distinct : (classNames.pseudonyms ++ imageNames.pseudonyms).Nodup
  notClass : ∀ p ∈ classNames.pseudonyms ++ imageNames.pseudonyms, p ∉ styledBelow d root
  notImage : ∀ p ∈ classNames.pseudonyms ++ imageNames.pseudonyms, p ∉ leavesBelow d root

/-- Names that are entered in turn, those of the classes and then those of the images, with all of them taken before the first
token is made. -/
theorem Namings.of_entered {root : Path} {length : Nat} {d d₁ : Disk} {c i : Codebook} {m m₁ m₂ : Mint σ}
    (hbare : d₁.bare = d.bare)
    (hscanned : d.Lists root ∧
      ∀ path ∈ d.filesBelow root, Language.ofPath? path = some .stylesheet → ∃ bytes, d.read path = .ok bytes)
    (hclasses : Entered (fun _ p => IsClassToken length p) (styledBelow d root) .empty
      ((m.reserveAll (leavesBelow d root)).reserveAll (styledBelow d root)).taken c m₁.taken)
    (hlists : d₁.isDirectory (ImagePass.directory root) = true → d₁.Lists (ImagePass.directory root))
    (himages : Entered (fun name p => IsFileToken (textExtension? name) p) (leavesBelow d₁ root) .empty
      (m₁.reserveAll (leavesBelow d₁ root)).taken i m₂.taken) :
    Namings d root length c i := by
  -- the image pass lists what was there at the beginning
  rw [leavesBelow_of_bare hbare] at himages
  obtain ⟨ps, hps, ht, hnodup, hfresh⟩ := hclasses.fresh
  obtain ⟨qs, hqs, -, hnodup', hfresh'⟩ := himages.fresh
  have hps : c.pseudonyms = ps := hps
  have hqs : i.pseudonyms = qs := hqs
  -- what was taken when the class tokens, and when the image tokens were made
  simp only [Mint.mem_taken_reserveAll, not_or] at hfresh
  simp only [Mint.mem_taken_reserveAll, ht, List.mem_append, List.mem_reverse, not_or] at hfresh'
  refine ⟨hscanned, ?_, hclasses.names_eq, ?_, himages.names_eq, ?_, ?_, ?_, ?_⟩
  · intro hdir
    have := hlists (by rwa [Disk.isDirectory_of_bare hbare])
    rwa [Disk.Lists, Disk.filesBelow, Disk.files_of_bare hbare] at this
  · intro p hp
    obtain ⟨e, he, rfl⟩ := List.mem_map.1 hp
    exact (hclasses.made e he).resolve_left List.not_mem_nil
  · exact fun e he => (himages.made e he).resolve_left List.not_mem_nil
  · rw [hps, hqs, List.nodup_append]
    refine ⟨hnodup, hnodup', ?_⟩
    rintro p hp q hq rfl
    exact (hfresh' p hq).2.1 hp
  · rw [hps, hqs]
    intro p hp
    rcases List.mem_append.1 hp with hp | hp
    · exact (hfresh p hp).1
    · exact (hfresh' p hp).2.2.1
  · rw [hps, hqs]
    intro p hp
    rcases List.mem_append.1 hp with hp | hp
    · exact (hfresh p hp).2.1
    · exact (hfresh' p hp).1

/-- Every run that ends well makes codebooks of this kind, whatever its source of random words, whatever names were taken
before, and whether it is a dry run or not. -/
theorem run_namings [WordSource σ] {root : Path} {o : Options} {w w' : Workspace σ} {report : Report}
    (hd : w.disk.Distinct) (h : (Project.run root o).Yields w report w') :
    Namings w.disk root o.classLength report.classNames report.imageNames := by
  obtain ⟨m₁, m₂, m₃, d₁, d₂, -, -, hlists, hreads, hclasses, hwritten, rfl, hlists', himages, -, -⟩ := Pass.yields_run h
  have hbare : d₁.bare = w.disk.bare := by
    rcases hwritten with ⟨-, rfl⟩ | hwritten
    · rfl
    · exact hwritten.bare hd
  exact .of_entered hbare ⟨hlists, hreads⟩ hclasses hlists' himages

namespace SiteWitness

/-- The bytes of a text, as a name or as the content of a file. -/
def bytes (t : String) : Bytes := Utf8.encode t.toList

/-- A site with a stylesheet and an image, and a source that hands out three words in turn. -/
def site : Workspace WordCycle where
  disk := { entries := [
    ([bytes "site"], .directory),
    ([bytes "site", bytes "a.css"], .file (bytes ".menu, .item \x7b\x7d .menu .x\x7b\x7d")),
    ([bytes "site", bytes "img"], .directory),
    ([bytes "site", bytes "img", bytes "logo.png"], .file [0x89, 0x50])] }
  mint := { source := { words := [0x0123456789ABCDEF, 0xFEDCBA9876543210, 0x0F1E2D3C4B5A6978] } }

def root : Path := .ofText "/site".toList

def report : Report where
  classNames := ⟨[("menu".toList, "aZ30Z30Z".toList), ("item".toList, "d0Z30Z30".toList), ("x".toList, "Z30Z30Z3".toList)]⟩
  imageNames := ⟨[("logo.png".toList, "0Z30Z30Z30.png".toList)]⟩
  classes := { filesProcessed := 1, contentChanges := 1 }
  images := { filesProcessed := 1, pathsRenamed := 1 }

theorem yields_report : (Project.run root {}).Yields site report ((Project.run root {}).outcome site).2 :=
  Pass.yields_of_toOption (by decide +kernel)

end SiteWitness

open SiteWitness in
/-- A stylesheet and an image: three class tokens and the name of a file are minted in turn. -/
theorem run_namings_site : site.disk.Distinct ∧
    (Project.run root {}).Yields site report ((Project.run root {}).outcome site).2 ∧
    Namings site.disk root 8 report.classNames report.imageNames :=
  ⟨by decide, yields_report, run_namings (by decide) yields_report⟩

end Pseudonym
