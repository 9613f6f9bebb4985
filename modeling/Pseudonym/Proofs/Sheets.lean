import Pseudonym.Proofs.Classes
import Pseudonym.Proofs.Harvests
import Pseudonym.Proofs.Images

/-!
# The stylesheets of a project after a run

The names of the images are reserved before the first class token is made, so that no token is the name of an image. But the image
pass looks at whole runs of file-name characters, and a class stands in a selector with a dot before it: a token behind a dot can
be the name of an image (`Project.run_styles_false`). As long as it is not, the image pass takes nothing from what the class pass
has written, wherever the images stand and however many links lead there: after a run, each stylesheet styles the images of the
classes that it styled before (`Project.run_styles`).
-/

namespace Pseudonym

open Piece (imageOf)

variable {σ : Type}

/-! ## The bytes of a stylesheet -/

/-- File-name characters are ASCII characters. -/
theorem toNat_of_isFileNameChar {c : Char} (h : isFileNameChar c = true) : c.toNat < 0x80 := by
  rcases Bool.or_eq_true _ _ ▸ h with hident | hdot
  · have := Stylesheet.toNat_of_isIdentChar hident
    omega
  · rw [beq_iff_eq.1 hdot]
    decide

/-- A text that is read byte by byte is so still with references exchanged that are ASCII words. -/
theorem IsBytewise.renameReferences {b : Codebook} (hb : IsAsciiCodebook b) {t u : Text} (ht : IsBytewise t)
    (h : Reference.rename b t = some u) : IsBytewise u := by
  refine Substitution.inTurn_induction (fun e he s v hs hv => ?_) ht h
  refine keptByWords_isBytewise.exchange? ?_ hs (Reference.join_pieces e.1 s) hv
  intro n hn p hp
  rw [Reference.names_pieces _ _ n hn, ← Option.some.inj hp]
  exact hb e he

/-- A file with its references exchanged is read as the text that was written. -/
theorem ImagePass.decode_apply {b : Codebook} (hb : IsAsciiCodebook b) (bytes : Bytes) :
    Charset.decode ((rewriter b).apply bytes) = (Reference.renamed b (Charset.decode bytes).1, (Charset.decode bytes).2) := by
  rw [Rewriter.apply_eq]
  refine Charset.decode_encode fun hcharset => ?_
  have ht := Charset.isBytewise_decode hcharset
  cases hu : (rewriter b).rename (Charset.decode bytes).1 with
  | none => exact ht
  | some u => exact ht.renameReferences hb hu

/-! ## The files of a disk -/

/-- What no rewriter takes from a content, a file keeps where it stands. -/
theorem Rewritten.keeps {o : Options} (hdry : o.dryRun = false) {files : List (Path × Rewriter)} {d d' : Disk} (hd : d.Distinct)
    (h : Rewritten o files d d') {P : Bytes → Prop} (hP : ∀ f ∈ files, ∀ c, P c → P (f.2.apply c)) {loc : Location} {c : Bytes}
    (hfile : d.entry? loc = some (.file c)) (hc : P c) : ∃ c', d'.entry? loc = some (.file c') ∧ P c' := by
  induction h generalizing c with
  | nil d => exact ⟨c, hfile, hc⟩
  | @cons path r files d d₁ d₂ hwrites _ ih =>
    obtain ⟨x, -, rfl⟩ := hwrites.eq_edit hdry hd
    have hfirst : Disk.entry? (d.edit fun l c => if l = x then r.apply c else c) loc =
        some (.file (if loc = x then r.apply c else c)) := by
      rw [Disk.entry?_edit, hfile]
      rfl
    refine ih (hd.of_bare (Disk.bare_edit _)) (fun f hf => hP f (List.mem_cons_of_mem _ hf)) hfirst ?_
    split
    · exact hP _ List.mem_cons_self c hc
    · exact hc

theorem Disk.filesFrom_bare (d : Disk) (n : Nat) (loc : Location) : d.bare.filesFrom n loc = d.filesFrom n loc := by
  induction n generalizing loc with
  | zero => rfl
  | succ n ih =>
    rw [filesFrom, filesFrom, children_bare, sortByName_map, List.flatMap_map]
    refine List.flatMap_congr ?_
    rintro ⟨name, _ | _ | _⟩ -
    · rfl
    · exact congrArg (List.map (name :: ·)) (ih _)
    · rfl

theorem imageLocations_bare (d : Disk) (root : Path) : imageLocations d.bare root = imageLocations d root := by
  unfold imageLocations
  rw [Disk.locate_bare, Disk.depth_bare]
  simp only [Disk.isDirectoryAt_bare, Disk.filesFrom_bare]

/-- Disks that differ in contents only have their images at the same places. -/
theorem imagePlace_of_bare {d d' : Disk} (h : d'.bare = d.bare) (b : Codebook) (root : Path) :
    imagePlace b d' root = imagePlace b d root := by
  rw [imagePlace, imagePlace, ← imageLocations_bare, h, imageLocations_bare]

/-! ## The codebook of the images -/

namespace IsImageNaming

variable {d : Disk} {root : Path} {b : Codebook}

/-- The names of a naming are those of the images. -/
theorem mem_names (h : IsImageNaming d root b) {n : Text} : n ∈ b.names ↔ n ∈ leavesBelow d root := by
  rw [h.names, List.mem_eraseDups]

/-- Names of file-name characters are ASCII words, and so are the tokens for them. -/
theorem isAsciiCodebook (h : IsImageNaming d root b)
    (hname : ∀ n ∈ b.names, n ≠ [] ∧ ∀ c ∈ n, isFileNameChar c = true) : IsAsciiCodebook b := by
  intro e he
  obtain ⟨hne, hchars⟩ := hname e.1 (List.mem_map_of_mem he)
  obtain ⟨hne', hchars'⟩ := (h.token e he).chars hchars
  exact ⟨⟨hne, fun c hc => toNat_of_isFileNameChar (hchars c hc)⟩, ⟨hne', fun c hc => toNat_of_isFileNameChar (hchars' c hc)⟩⟩

/-- No image has an empty name. -/
theorem ne_nil (h : IsImageNaming d root b) (ht : d.IsTree)
    (hlists : d.isDirectory (ImagePass.directory root) = true → d.Lists (ImagePass.directory root)) :
    ∀ n ∈ b.names, n ≠ [] := by
  intro n hn
  obtain ⟨loc, hloc, hdecode⟩ := (mem_leavesBelow ht hlists).1 (h.mem_names.1 hn)
  obtain ⟨m, hm, hdecode⟩ := Option.bind_eq_some_iff.1 hdecode
  obtain ⟨c, hc⟩ := exists_of_mem_imageLocations ht hloc
  rintro rfl
  exact (ht.properNames hc m (List.mem_of_getLast? hm)).nonempty (Utf8.encode_of_decode? hdecode).symm

end IsImageNaming

/-! ## A run -/

namespace Project

/-- After a run that ends well and is no dry run, each stylesheet of the project, wherever the run has moved it, styles the images of
the classes that it styled at the beginning, in the same order and with the same repeats: the image pass changes no class token,
unless an image is named by a dot and that token. -/
theorem run_styles [WordSource σ] {root : Path} {o : Options} {w w' : Workspace σ} {report : Report} (ht : w.disk.IsTree)
    (hdry : o.dryRun = false) (h : (run root o).Yields w report w')
    (hleaves : ∀ n ∈ leavesBelow w.disk root, ∀ c ∈ n, isFileNameChar c = true)
    (hdotted : ∀ p ∈ report.classNames.pseudonyms, '.' :: p ∉ leavesBelow w.disk root) :
    ∀ path ∈ w.disk.filesBelow root, Language.ofPath? path = some .stylesheet → ∃ loc c,
      w.disk.locate .follow path = .ok loc ∧
      w'.disk.entry? (imagePlace report.imageNames w.disk root loc) = some (.file c) ∧
      Stylesheet.classNames (Charset.decode c).1 = (styledBy w.disk path).map (imageOf report.classNames.get?) := by
  obtain ⟨_, _, _, d₁, d₂, hisdir, -, hlists, hreads, hclasses, hwritten, rfl, hlists', himages, hmoved, hwritten'⟩ :=
    Pass.yields_run h
  obtain ⟨base, hroot, hdir⟩ := Disk.isDirectory_iff.1 hisdir
  have hd₁ := ClassPass.eq_edit hdry ht hroot hdir hlists hwritten
  have hbare : d₁.bare = w.disk.bare := by
    rw [hd₁]
    exact Disk.bare_edit _
  have hnamings : Namings w.disk root o.classLength report.classNames report.imageNames :=
    .of_entered hbare ⟨hlists, hreads⟩ hclasses hlists' himages
  have hc := hnamings.isClassNaming
  have hi := hnamings.isImageNaming hbare
  have ht₁ := ht.of_bare hbare
  obtain ⟨hd₂, ht₂, -⟩ := hi.eq_carry ht₁ hlists' hdry hmoved
  have hname : ∀ n ∈ report.imageNames.names, n ≠ [] ∧ ∀ c ∈ n, isFileNameChar c = true := by
    intro n hn
    refine ⟨hi.ne_nil ht₁ hlists' n hn, hleaves n ?_⟩
    rw [← leavesBelow_of_bare hbare]
    exact hi.mem_names.1 hn
  intro path hpath hsheet
  obtain ⟨bytes, hread⟩ := hreads path hpath hsheet
  obtain ⟨loc, hloc, -⟩ := Disk.read_eq_ok hread
  -- what the class pass writes
  have hread₁ : d₁.read path = .ok ((ClassPass.rewriter report.classNames .stylesheet).apply bytes) := by
    rw [hd₁]
    exact ht.read_editTexts hroot hdir hlists hpath hsheet hread
  obtain ⟨loc₁, hloc₁, hfile₁, -⟩ := Disk.read_eq_ok hread₁
  rw [Disk.locate_of_bare hbare, hloc] at hloc₁
  obtain rfl := Except.ok.inj hloc₁
  have hstyled : styledBy w.disk path = Stylesheet.classNames (Charset.decode bytes).1 := by
    rw [styledBy, hread]
  have hstyled₁ : Stylesheet.classNames (Charset.decode ((ClassPass.rewriter report.classNames .stylesheet).apply bytes)).1 =
      (styledBy w.disk path).map (imageOf report.classNames.get?) := by
    rw [ClassPass.decode_apply hc.isAsciiCodebook, hc.isClassCodebook.classNames_renamed, hstyled]
  -- these are class tokens, and no image is named by a dot and one of them
  have hsafe : ∀ m ∈ (styledBy w.disk path).map (imageOf report.classNames.get?), '.' :: m ∉ report.imageNames.names := by
    intro m hm hmem
    obtain ⟨n, hn, rfl⟩ := List.mem_map.1 hm
    have hbelow : n ∈ styledBelow w.disk root :=
      List.mem_flatMap.2 ⟨path, List.mem_filter.2 ⟨hpath, by rw [hsheet]; rfl⟩, hn⟩
    obtain ⟨p, hp⟩ := hc.exists_get? hbelow
    rw [imageOf, hp, Option.getD_some, hi.mem_names, leavesBelow_of_bare hbare] at hmem
    exact hdotted p (Codebook.mem_pseudonyms_of_get? hp) hmem
  -- the image pass moves the file and takes no class name from it
  rw [imagePlace_of_bare hbare] at hd₂
  have hfile₂ : d₂.entry? (imagePlace report.imageNames w.disk root loc) =
      some (.file ((ClassPass.rewriter report.classNames .stylesheet).apply bytes)) := by
    rw [hd₂] at ht₂ ⊢
    exact ht₂.entry?_carry_unlink hfile₁
  have hkeeps : ∀ c, Stylesheet.classNames (Charset.decode c).1 = (styledBy w.disk path).map (imageOf report.classNames.get?) →
      Stylesheet.classNames (Charset.decode ((ImagePass.rewriter report.imageNames).apply c)).1 =
        (styledBy w.disk path).map (imageOf report.classNames.get?) := by
    intro c hc
    rw [ImagePass.decode_apply (hi.isAsciiCodebook hname), Stylesheet.classNames_renamed hname hi.token, hc]
    rw [hc]
    exact hsafe
  rcases hwritten' with ⟨-, heq⟩ | ⟨-, hwritten'⟩
  · rw [heq]
    exact ⟨loc, _, hloc, hfile₂, hstyled₁⟩
  · have hrewriter : ∀ f ∈ (textsBelow d₂ root).map fun f => (f.1, ImagePass.rewriter report.imageNames),
        f.2 = ImagePass.rewriter report.imageNames := by
      intro f hf
      obtain ⟨g, -, rfl⟩ := List.mem_map.1 hf
      rfl
    obtain ⟨c, hfile, hc⟩ := hwritten'.keeps hdry ht₂.distinct (fun f hf => hrewriter f hf ▸ hkeeps) hfile₂ hstyled₁
    exact ⟨loc, c, hloc, hfile, hc⟩

namespace DottedWitness

open SiteWitness (bytes root)

/-- A site with one class and one image, whose name is given, and a source of words of which the first one stands for the letter a. -/
def site (css image : String) : Workspace WordCycle where
  disk := { entries := [
    ([bytes "site"], .directory),
    ([bytes "site", bytes "a.css"], .file (bytes css)),
    ([bytes "site", bytes "img"], .directory),
    ([bytes "site", bytes "img", bytes image], .file [])] }
  mint := { source := { words := [0] } }

/-- Tokens of one letter are asked for. -/
def options : Options := { classLength := 1 }

def sheet : Path := .ofText "/site/a.css".toList

def report (image pseudonym : String) (changes : Nat) : Report where
  classNames := ⟨[("b".toList, "a".toList)]⟩
  imageNames := ⟨[(image.toList, pseudonym.toList)]⟩
  classes := { filesProcessed := 1, contentChanges := 1 }
  images := { filesProcessed := 1, pathsRenamed := 1, contentChanges := changes }

/-- The site after a run. -/
def after (css image : String) : Workspace WordCycle := ((run root options).outcome (site css image)).2

theorem isFileNameChar_of_leaves {image : String} {d : Disk} (hleaves : leavesBelow d root = [image.toList])
    (himage : image.toList.all isFileNameChar = true) : ∀ n ∈ leavesBelow d root, ∀ c ∈ n, isFileNameChar c = true := by
  rw [hleaves]
  intro n hn
  rw [List.mem_singleton.1 hn]
  exact List.all_eq_true.1 himage

end DottedWitness

open DottedWitness in
open SiteWitness (bytes root) in
/-- An image whose name ends like the selector of the token: its name is exchanged there, and the token stays. -/
theorem run_styles_element : (site "p.b\x7b\x7d" "p.a").disk.IsTree ∧
    (run root options).Yields (site "p.b\x7b\x7d" "p.a") (report "p.a" "0000000000.a" 1) (after "p.b\x7b\x7d" "p.a") ∧
    styledBy (site "p.b\x7b\x7d" "p.a").disk sheet = ["b".toList] ∧
    (after "p.b\x7b\x7d" "p.a").disk.read sheet = .ok (bytes "0000000000.a\x7b\x7d") ∧
    ∃ loc c, (site "p.b\x7b\x7d" "p.a").disk.locate .follow sheet = .ok loc ∧
      Disk.entry? (after "p.b\x7b\x7d" "p.a").disk (imagePlace (report "p.a" "0000000000.a" 1).imageNames
        (site "p.b\x7b\x7d" "p.a").disk root loc) = some (.file c) ∧
      Stylesheet.classNames (Charset.decode c).1 = ["a".toList] := by
  have ht : (site "p.b\x7b\x7d" "p.a").disk.IsTree := by decide
  have hrun : (run root options).Yields (site "p.b\x7b\x7d" "p.a") (report "p.a" "0000000000.a" 1) (after "p.b\x7b\x7d" "p.a") :=
    Pass.yields_of_toOption (by decide +kernel)
  have hleaves : leavesBelow (site "p.b\x7b\x7d" "p.a").disk root = ["p.a".toList] := by decide +kernel
  have hstyled : styledBy (site "p.b\x7b\x7d" "p.a").disk sheet = ["b".toList] := by decide +kernel
  have himages : ["b".toList].map (imageOf (report "p.a" "0000000000.a" 1).classNames.get?) = ["a".toList] := by decide
  obtain ⟨loc, c, hloc, hfile, hnames⟩ := run_styles ht rfl hrun (isFileNameChar_of_leaves hleaves (by decide))
    (by rw [hleaves]; decide) sheet
    (by decide +kernel) (by decide +kernel)
  rw [hstyled, himages] at hnames
  exact ⟨ht, hrun, hstyled, by decide +kernel, loc, c, hloc, hfile, hnames⟩

open DottedWitness in
open SiteWitness (bytes root) in
/-- The image pass may change a class token: an image may be named by a dot and that token, and a selector that is made of both is
taken for the name of the image. -/
theorem run_styles_false : ¬∀ (root : Path) (o : Options) (w w' : Workspace WordCycle) (report : Report), w.disk.IsTree →
    o.dryRun = false → (run root o).Yields w report w' →
    (∀ n ∈ leavesBelow w.disk root, ∀ c ∈ n, isFileNameChar c = true) →
    ∀ path ∈ w.disk.filesBelow root, Language.ofPath? path = some .stylesheet → ∃ loc c,
      w.disk.locate .follow path = .ok loc ∧
      w'.disk.entry? (imagePlace report.imageNames w.disk root loc) = some (.file c) ∧
      Stylesheet.classNames (Charset.decode c).1 = (styledBy w.disk path).map (imageOf report.classNames.get?) := by
  intro hall
  have hrun : (run root options).Yields (site ".b\x7b\x7d" ".a") (report ".a" "0000000000" 1) (after ".b\x7b\x7d" ".a") :=
    Pass.yields_of_toOption (by decide +kernel)
  have hleaves : leavesBelow (site ".b\x7b\x7d" ".a").disk root = [".a".toList] := by decide +kernel
  obtain ⟨loc, c, hloc, hfile, hnames⟩ := hall root options (site ".b\x7b\x7d" ".a") (after ".b\x7b\x7d" ".a") _ (by decide) rfl
    hrun (isFileNameChar_of_leaves hleaves (by decide)) sheet (by decide +kernel) (by decide +kernel)
  -- the token is gone from the stylesheet
  have hplace : (site ".b\x7b\x7d" ".a").disk.locate .follow sheet = .ok [bytes "site", bytes "a.css"] := by decide +kernel
  have hcontent : Disk.entry? (after ".b\x7b\x7d" ".a").disk (imagePlace (report ".a" "0000000000" 1).imageNames
      (site ".b\x7b\x7d" ".a").disk root [bytes "site", bytes "a.css"]) = some (.file (bytes "0000000000\x7b\x7d")) := by
    decide +kernel
  rw [hplace] at hloc
  obtain rfl := Except.ok.inj hloc
  rw [hcontent] at hfile
  obtain rfl := Entry.file.inj (Option.some.inj hfile)
  exact absurd hnames (by decide +kernel)

end Project

end Pseudonym
