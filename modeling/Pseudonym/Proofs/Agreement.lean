import Pseudonym.Proofs.DryRuns
import Pseudonym.Proofs.Runs
import Pseudonym.Proofs.Visits

/-!
# A run and its dry run

A dry run leaves the disk as it is. When a run from the same workspace ends well, the dry run has announced the same changes up to the
end of the class pass and the same renames, whatever comes of it; if it ends well too, it has given the same names and counted the same
(`Project.run_dry`). Only the references part the two: a run looks for them in files that it has moved.

The dry run ends well unless a text file cannot be read where it stands, which the class pass would have found out. A run opens an
image under its new path only, and that may be short enough where the old one is not (`Project.run_dry_fails`).

For the count of text files it has to be seen that the last listing of a run, on a disk whose images have been moved, has as many of
them as that of the dry run, on a disk where nothing has been moved: each file keeps its language and stays below the root, and no two
files come to one location (`IsMoving.length_textsBelow`). The root must still be a directory after the run. A file that is moved takes
the place of a link that has its new name; that may be a link in the root's own path, and then the last listing of the run finds
nothing (`Project.run_dry_false`).
-/

namespace Pseudonym

variable {σ : Type}

/-! ## The text files of a tree -/

/-- Is an entry a text file below a location? -/
def isTextBelow (base : Location) (x : Location × Entry) : Bool :=
  x.2 matches .file _ && base.isPrefixOf x.1 && (languageAt x.1).isSome

/-- Is an entry a text file below a location, with a language and a text of some kind? -/
def isTextWith (base : Location) (kind : Language → Text → Bool) (x : Location × Entry) : Bool :=
  match x.2 with
  | .file c => base.isPrefixOf x.1 && (languageAt x.1).any fun l => kind l (Charset.decode c).1
  | _ => false

section TextsBelow

variable {d d' : Disk} {root : Path} {base : Location}

theorem isTextBelow_file {loc : Location} {c : Bytes} :
    isTextBelow base (loc, .file c) = (base.isPrefixOf loc && (languageAt loc).isSome) := rfl

/-- A text file is one whose text is of any kind. -/
theorem isTextBelow_eq (base : Location) : isTextBelow base = isTextWith base fun _ _ => true := by
  funext x
  obtain ⟨loc, e⟩ := x
  cases e with
  | file c => rw [isTextBelow_file, isTextWith, Option.any_true]
  | directory => simp [isTextBelow, isTextWith]
  | link target => simp [isTextBelow, isTextWith]

/-- What a text file below a location is: a file with names behind that location, the last of which tells its language. -/
theorem isTextBelow_iff {loc : Location} {e : Entry} : isTextBelow base (loc, e) = true ↔
    ∃ c names l, e = .file c ∧ base ++ names = loc ∧ languageAt loc = some l := by
  cases e with
  | file c =>
    rw [isTextBelow_file, Bool.and_eq_true, List.isPrefixOf_iff_prefix, Option.isSome_iff_exists]
    constructor
    · rintro ⟨⟨names, hnames⟩, l, hl⟩
      exact ⟨c, names, l, rfl, hnames, hl⟩
    · rintro ⟨-, names, l, -, hnames, hl⟩
      exact ⟨⟨names, hnames⟩, l, hl⟩
  | directory => simp [isTextBelow]
  | link target => simp [isTextBelow]

/-- The listing holds the text files of the disk, each under the path that leads to it from the root. -/
theorem mem_textsBelow (ht : d.IsTree) (hroot : d.locate .follow root = .ok base) (hdir : d.isDirectoryAt base = true)
    (hlists : d.Lists root) {p : Path} {l : Language} : (p, l) ∈ textsBelow d root ↔
      ∃ names, names ≠ [] ∧ (∃ c, d.entry? (base ++ names) = some (.file c)) ∧ languageAt (base ++ names) = some l ∧
        root.below names = p := by
  have hlanguage : ∀ names ∈ d.filesFrom d.depth base, Language.ofPath? (root.below names) = languageAt (base ++ names) := by
    intro names hnames
    obtain ⟨hne, c, hc⟩ := ht.mem_filesFrom_depth.1 hnames
    exact Path.ofPath?_below (Disk.bytes_ne_nil_of_checkPath (Disk.locate_eq_ok hroot).1) hne
      fun n hn => ht.properNames hc n (List.mem_append_right _ hn)
  rw [textsBelow, hlists.filesBelow_eq hroot hdir, List.filterMap_map, List.mem_filterMap]
  constructor
  · rintro ⟨names, hnames, h⟩
    rw [Function.comp_apply, tagged?_all, hlanguage names hnames] at h
    obtain ⟨l', hl, he⟩ := Option.map_eq_some_iff.1 h
    obtain ⟨rfl, rfl⟩ := Prod.mk.inj he
    obtain ⟨hne, hc⟩ := ht.mem_filesFrom_depth.1 hnames
    exact ⟨names, hne, hc, hl, rfl⟩
  · rintro ⟨names, hne, hc, hl, rfl⟩
    have hnames := ht.mem_filesFrom_depth.2 ⟨hne, hc⟩
    refine ⟨names, hnames, ?_⟩
    rw [Function.comp_apply, tagged?_all, hlanguage names hnames, hl]
    rfl

/-- The text files that are found from a location are those of the disk below it. -/
theorem perm_textFiles (ht : d.IsTree) (hdir : d.isDirectoryAt base = true) (rewriter : Language → Rewriter) :
    ((textFiles d base rewriter).map fun f => base ++ f.1).Perm ((d.entries.filter (isTextBelow base)).map (·.1)) := by
  refine (List.perm_ext_iff_of_nodup ?_ ((List.filter_sublist.map _).nodup ht.distinct)).2 fun loc => ?_
  · have hnodup := (nodup_textFiles ht base rewriter).map (List.append_right_injective base)
    rwa [List.map_map] at hnodup
  · constructor
    · intro hloc
      obtain ⟨⟨names, r⟩, hf, rfl⟩ := List.mem_map.1 hloc
      obtain ⟨hnames, l, hl, -⟩ := mem_textFiles.1 hf
      obtain ⟨hne, c, hc⟩ := ht.mem_filesFrom_depth.1 hnames
      refine List.mem_map.2 ⟨(base ++ names, .file c), List.mem_filter.2 ⟨?_, ?_⟩, rfl⟩
      · exact Disk.mem_entries_of_entry_eq_some (by simp [hne]) hc
      · rw [isTextBelow_file, hl, List.isPrefixOf_iff_prefix.2 (List.prefix_append _ _)]
        rfl
    · intro hloc
      obtain ⟨⟨loc, e⟩, hx, rfl⟩ := List.mem_map.1 hloc
      obtain ⟨hmem, htext⟩ := List.mem_filter.1 hx
      obtain ⟨c, names, l, rfl, rfl, hl⟩ := isTextBelow_iff.1 htext
      have hc := (ht.distinct.entry?_eq_some_iff (ht.proper _ hmem).1).2 hmem
      have hne : names ≠ [] := by
        rintro rfl
        rw [List.append_nil, Disk.isDirectoryAt_iff.1 hdir] at hc
        cases hc
      exact List.mem_map.2 ⟨(names, _), mem_textFiles.2 ⟨ht.mem_filesFrom_depth.2 ⟨hne, c, hc⟩, l, hl, rfl⟩, rfl⟩

/-- The text files are listed as they are found from the location of the root. -/
theorem map_fst_textsBelow (ht : d.IsTree) (hroot : d.locate .follow root = .ok base) (hdir : d.isDirectoryAt base = true)
    (hlists : d.Lists root) (rewriter : Language → Rewriter) :
    (textsBelow d root).map (·.1) = (textFiles d base rewriter).map fun f => root.below f.1 := by
  have htexts : (textsBelow d root).map (fun f => (f.1, rewriter f.2)) = _ := map_textsBelow ht hroot hdir hlists
  have hfst := congrArg (List.map Prod.fst) htexts
  rwa [List.map_map, List.map_map] at hfst

/-- There are as many text files in the listing as on the disk. -/
theorem length_textsBelow (ht : d.IsTree) (hroot : d.locate .follow root = .ok base) (hdir : d.isDirectoryAt base = true)
    (hlists : d.Lists root) : (textsBelow d root).length = d.entries.countP (isTextBelow base) := by
  have hlength := congrArg List.length (map_fst_textsBelow ht hroot hdir hlists fun _ => ImagePass.rewriter .empty)
  have hperm := (perm_textFiles ht hdir fun _ => ImagePass.rewriter .empty).length_eq
  rw [List.length_map, List.length_map] at hlength hperm
  rw [hlength, hperm, List.countP_eq_length_filter]

end TextsBelow

/-! ## Moving the images -/

/-- The images of a project on a tree are moved to the names that a codebook has for them, and the path of the project leads to the
same directory before and after. -/
structure IsMoving (o : Options) (b : Codebook) (root : Path) (base : Location) (d d' : Disk) : Prop where
  real : o.dryRun = false
  tree : d.IsTree
  imagesListed : d.isDirectory (ImagePass.directory root) = true → d.Lists (ImagePass.directory root)
  naming : IsImageNaming d root b
  moved : Moved o b (imagesBelow d root) d d'
  located : d'.locate .follow root = .ok base
  directory : d'.isDirectoryAt base = true

namespace IsMoving

variable {o : Options} {b : Codebook} {root : Path} {base loc : Location} {d d' : Disk} {c : Bytes}

/-- Moving the images carries each file to its place, and unlinks what stood there. -/
theorem eq_carry (h : IsMoving o b root base d d') :
    d' = (d.unlink ((imageLocations d root).map b.newLocation)).carry (imagePlace b d root) ∧ d'.IsTree ∧ d.LosesLinks d' :=
  h.naming.eq_carry h.tree h.imagesListed h.real h.moved

/-- The path of the project led there before. -/
theorem located_before (h : IsMoving o b root base d d') : d.locate .follow root = .ok base :=
  h.eq_carry.2.2.locate h.located h.directory

/-- It was a directory before. -/
theorem directory_before (h : IsMoving o b root base d d') : d.isDirectoryAt base = true :=
  (h.eq_carry.2.2.isDirectoryAt base).symm.trans h.directory

/-- A file is found at its place after the move. -/
theorem entry?_imagePlace (h : IsMoving o b root base d d') (hc : d.entry? loc = some (.file c)) :
    d'.entry? (imagePlace b d root loc) = some (.file c) := by
  obtain ⟨heq, ht', -⟩ := h.eq_carry
  rw [heq] at ht' ⊢
  exact ht'.entry?_carry_unlink hc

/-- A file keeps its language when it is moved. -/
theorem languageAt_imagePlace (h : IsMoving o b root base d d') (loc : Location) :
    languageAt (imagePlace b d root loc) = languageAt loc := by
  unfold imagePlace Codebook.place
  split
  · exact h.naming.languageAt_newLocation loc
  · rfl

/-- A file stays below the directory of the project. -/
theorem isPrefixOf_imagePlace (h : IsMoving o b root base d d') (hc : d.entry? loc = some (.file c)) :
    base.isPrefixOf (imagePlace b d root loc) = base.isPrefixOf loc := by
  have hne : loc ≠ base := by
    rintro rfl
    rw [Disk.isDirectoryAt_iff.1 h.directory_before] at hc
    cases hc
  have hne' : imagePlace b d root loc ≠ base := by
    intro heq
    have hc' := h.entry?_imagePlace hc
    rw [heq, Disk.isDirectoryAt_iff.1 h.directory] at hc'
    cases hc'
  unfold imagePlace Codebook.place at hne' ⊢
  split
  · next hm =>
    rw [if_pos hm] at hne'
    exact Codebook.isPrefixOf_newLocation hne hne'
  · rfl

/-- Moving the images leaves as many text files of a kind as there were. -/
theorem countP_isTextWith (h : IsMoving o b root base d d') (kind : Language → Text → Bool) :
    d'.entries.countP (isTextWith base kind) = d.entries.countP (isTextWith base kind) := by
  rw [h.eq_carry.1, Disk.carry, List.countP_map, Disk.unlink, List.countP_filter]
  refine List.countP_congr ?_
  rintro ⟨loc, e⟩ hx
  cases e with
  | file c =>
    have hc := (h.tree.distinct.entry?_eq_some_iff (h.tree.proper _ hx).1).2 hx
    simp [isTextWith, h.isPrefixOf_imagePlace hc, h.languageAt_imagePlace]
  | directory => simp [isTextWith]
  | link target => simp [isTextWith]

/-- Moving the images leaves as many text files as there were. -/
theorem length_textsBelow (h : IsMoving o b root base d d') (hlists : d.Lists root) (hlists' : d'.Lists root) :
    (textsBelow d root).length = (textsBelow d' root).length := by
  rw [Pseudonym.length_textsBelow h.tree h.located_before h.directory_before hlists,
    Pseudonym.length_textsBelow h.eq_carry.2.1 h.located h.directory hlists', isTextBelow_eq, h.countP_isTextWith]

/-- An image that is moved has a name that the operating system takes. -/
theorem fits_of_newName (h : IsMoving o b root base d d') {init : Location} {n m : Name}
    (hloc : init ++ [n] ∈ imageLocations d root) (hm : b.newName? n = some m) : n.Fits := by
  rcases exists_isGallery h.tree h.imagesListed with hnone | ⟨top, hgallery⟩
  · rw [imageLocations_eq_nil hnone] at hloc
    cases hloc
  rw [hgallery.imageLocations_eq] at hloc
  obtain ⟨names, hnames, heq⟩ := List.mem_map.1 hloc
  obtain ⟨hne, c, hc⟩ := h.tree.mem_filesFrom_depth.1 hnames
  obtain ⟨dirs, k, rfl⟩ : ∃ dirs k, names = dirs ++ [k] := ⟨_, _, (List.dropLast_concat_getLast hne).symm⟩
  rw [← List.append_assoc] at heq
  obtain ⟨-, hk⟩ := List.append_inj' heq rfl
  obtain rfl : k = n := (List.cons.inj hk).1
  have hproper : ∀ m ∈ dirs ++ [k], m.Proper := fun m hm => h.tree.properNames hc m (List.mem_append_right _ hm)
  have hbytes := ImagePass.bytes_directory_ne_nil root
  -- the file has been moved from its path
  obtain ⟨p, hp, rfl⟩ := Option.map_eq_some_iff.1 hm
  obtain ⟨t, ht, hget⟩ := Option.bind_eq_some_iff.1 hp
  have hleaf : ImagePass.leaf? ((ImagePass.directory root).below (dirs ++ [k])) = some t := by
    rw [ImagePass.leaf?_below hbytes hne hproper, List.getLast?_concat]
    exact ht
  have himage : (ImagePass.directory root).below (dirs ++ [k]) ∈ imagesBelow d root := by
    rw [hgallery.imagesBelow_eq]
    exact List.mem_map_of_mem hnames
  obtain ⟨d₀, d₁, hmove⟩ := h.moved.exists_move h.real himage hleaf hget
  obtain ⟨oldDir, oldName, newDir, newName, hcheck, hold, -, hlen, -⟩ := Disk.move_eq_ok hmove
  have hcomponents : ((ImagePass.directory root).below (dirs ++ [k])).components =
      ((ImagePass.directory root).components ++ dirs) ++ [k] := by
    rw [Path.components_below hbytes hproper, List.append_assoc]
  obtain ⟨rfl, -⟩ := Disk.splitLast_eq_ok hcomponents hold
  have hnull := (Disk.checkPath_eq_ok.1 hcheck).1
  rw [Path.zero_mem_bytes_below hproper, not_or] at hnull
  exact ⟨fun h0 => hnull.2 ⟨oldName, by simp, h0⟩, hlen⟩

/-- A file stays where it is, or it is an image that gets a new name. -/
theorem imagePlace_cases {names names' : List Name} (hne : names ≠ [])
    (hplace : imagePlace b d root (base ++ names) = base ++ names') : names' = names ∨
      ∃ init n m, names = init ++ [n] ∧ names' = init ++ [m] ∧ (base ++ init) ++ [n] ∈ imageLocations d root ∧
        b.newName? n = some m := by
  unfold imagePlace Codebook.place at hplace
  split at hplace
  · next hm =>
    obtain ⟨init, n, rfl⟩ : ∃ init n, names = init ++ [n] := ⟨_, _, (List.dropLast_concat_getLast hne).symm⟩
    rw [← List.append_assoc] at hm hplace
    rw [Codebook.newLocation_concat, List.append_assoc] at hplace
    obtain rfl := List.append_cancel_left hplace
    cases hnew : b.newName? n with
    | none => exact .inl rfl
    | some m => exact .inr ⟨init, n, m, rfl, rfl, hm, hnew⟩
  · exact .inl (List.append_cancel_left hplace).symm

/-- When the text files can be read after the move, they could be read before, unless an image has too long a path or reading is
refused. -/
theorem readsTexts (h : IsMoving o b root base d d') (hlists : d.Lists root) (hlists' : d'.Lists root)
    (hreads : d'.ReadsTexts root) (hallow : ∀ loc, d.allow (.read loc) = .ok ())
    (hshort : ∀ f ∈ textsBelow d root, ∀ n ∈ b.names, ImagePass.leaf? f.1 = some n → f.1.bytes.length < Disk.maxPath) :
    d.ReadsTexts root := by
  rintro ⟨p, l⟩ hf
  obtain ⟨-, ht', -⟩ := h.eq_carry
  obtain ⟨names, hne, ⟨c, hc⟩, hl, rfl⟩ := (mem_textsBelow h.tree h.located_before h.directory_before hlists).1 hf
  -- where the file has been moved to, the run has found it
  have hprefix := h.isPrefixOf_imagePlace hc
  rw [List.isPrefixOf_iff_prefix.2 (List.prefix_append _ _)] at hprefix
  obtain ⟨names', hplace⟩ := List.isPrefixOf_iff_prefix.1 hprefix
  have hc' := h.entry?_imagePlace hc
  have hl' := h.languageAt_imagePlace (base ++ names)
  rw [← hplace] at hc' hl'
  have hne' : names' ≠ [] := by
    rintro rfl
    rw [List.append_nil, Disk.isDirectoryAt_iff.1 h.directory] at hc'
    cases hc'
  have hf' := (mem_textsBelow ht' h.located h.directory hlists').2 ⟨names', hne', ⟨c, hc'⟩, hl'.trans hl, rfl⟩
  obtain ⟨bytes, hbytes⟩ := hreads _ hf'
  obtain ⟨x, hx, -⟩ := Disk.read_eq_ok hbytes
  obtain ⟨hshort', hfits', -⟩ := (ht'.locate_below_iff h.located hne' hc' fun target => by simp).1 hx
  -- so its old path is no obstacle
  have hlocate : d.locate .follow (root.below names) = .ok (base ++ names) := by
    refine (h.tree.locate_below_iff h.located_before hne hc fun target => by simp).2 ?_
    rcases imagePlace_cases hne hplace.symm with rfl | ⟨init, n, m, rfl, rfl, hm, hnew⟩
    · exact ⟨hshort', hfits', rfl⟩
    · obtain ⟨q, hq, -⟩ := Option.map_eq_some_iff.1 hnew
      obtain ⟨t, ht, hget⟩ := Option.bind_eq_some_iff.1 hq
      have hleaf : ImagePass.leaf? (root.below (init ++ [n])) = some t := by
        rw [ImagePass.leaf?_below (Disk.bytes_ne_nil_of_checkPath (Disk.locate_eq_ok h.located).1) hne
          fun m hm => h.tree.properNames hc m (List.mem_append_right _ hm), List.getLast?_concat]
        exact ht
      refine ⟨hshort _ hf t (List.mem_map_of_mem (Codebook.mem_entries_of_get? hget)) hleaf, ?_, rfl⟩
      intro k hk
      rcases List.mem_append.1 hk with hk | hk
      · exact hfits' k (List.mem_append_left _ hk)
      · exact List.mem_singleton.1 hk ▸ h.fits_of_newName hm hnew
  exact ⟨c, Disk.read_of_locate hlocate hc (hallow _)⟩

end IsMoving

/-! ## A run and its dry run -/

/-- Before the first image token is made, the names of the images are taken. -/
theorem IsImageNaming.of_entered {d : Disk} {root : Path} {b : Codebook} {m m' : Mint σ}
    (h : Entered (fun name p => IsFileToken (textExtension? name) p) (leavesBelow d root) .empty
      (m.reserveAll (leavesBelow d root)).taken b m'.taken) : IsImageNaming d root b := by
  have hnames : NamesImages d root b :=
    .of_entered (fun _ hn => hn) (fun n hn => Mint.mem_taken_reserveAll.2 (.inl hn)) h
  exact ⟨h.names_eq, hnames.token, hnames.distinct, hnames.fresh⟩

namespace Project

/-- What a run and a dry run that both end well have in common. -/
structure Agrees (report report' : Report) : Prop where
  classNames : report'.classNames = report.classNames
  imageNames : report'.imageNames = report.imageNames
  classes : report'.classes = report.classes
  pathsRenamed : report'.images.pathsRenamed = report.images.pathsRenamed

section Foretold

variable [WordSource σ] {root : Path} {o : Options} {w w' : Workspace σ} {report : Report}

/-- A dry run announces the renames of the run, whatever comes of it. -/
theorem renames_run_dry (ho : o.dryRun = false) (ht : w.disk.IsTree) (h : (run root o).Yields w report w') :
    ((run root o.dry).outcome w).2.renames = w'.renames := by
  obtain ⟨w₁, w₂, hclasses, himages, -, -, hrenames⟩ := exists_yields_imagePass h
  obtain ⟨v₁, hclasses', habreast⟩ := yields_throughClasses_dry ho ht hclasses
  have hbare : Pass.SameBare w₁.disk v₁.disk := by
    rw [Pass.SameBare, (keepsDisk_throughClasses root).eq hclasses', ((yields_throughClasses hclasses).2 ht.distinct).1]
  rw [outcome_run_of_yields hclasses', Pass.keeps_behind (g := Workspace.renames) _ fun images => ?_, hrenames]
  · exact Pass.renames_imagePass_dry (w := { w₁ with codebook := .empty }) (v := { v₁ with codebook := .empty }) ho
      ⟨habreast.mint, rfl, habreast.events⟩ hbare himages
  · exact Pass.keeps_bind Pass.keeps_get fun _ => Pass.keeps_bind (Pass.keeps_note Pass.isWork_renames rfl) fun _ =>
      Pass.keeps_pure _

/-- A dry run ends well exactly if each text file can be read where it stands, or if none need be looked at. When classes have been
renamed, the class pass has read them all. -/
theorem exists_yields_run_dry (ho : o.dryRun = false) (ht : w.disk.IsTree) (h : (run root o).Yields w report w') :
    (∃ report' v', (run root o.dry).Yields w report' v') ↔
      (report.classNames.isEmpty = true → report.imageNames.isEmpty = false → w.disk.ReadsTexts root) := by
  obtain ⟨w₁, w₂, hclasses, himages, hbook, -, -⟩ := exists_yields_imagePass h
  obtain ⟨v₁, hclasses', habreast⟩ := yields_throughClasses_dry ho ht hclasses
  have hdisk := (keepsDisk_throughClasses root).eq hclasses'
  obtain ⟨hlists, hfound⟩ := yields_throughClasses hclasses
  obtain ⟨hbare, hreads⟩ := hfound ht.distinct
  have hpass : (∃ tally' v', (ImagePass.run root o.dry).Yields { v₁ with codebook := .empty } tally' v') ↔
      (report.imageNames.isEmpty = false → w.disk.Lists root ∧ w.disk.ReadsTexts root) := by
    rw [hbook, ← hdisk]
    exact Pass.exists_yields_imagePass_dry (w := { w₁ with codebook := .empty }) (v := { v₁ with codebook := .empty }) ho
      ⟨habreast.mint, rfl, habreast.events⟩ (by rw [Pass.SameBare, hdisk, hbare]) himages rfl (by rw [hdisk]; exact ht.distinct)
  have hrun : (∃ report' v', (run root o.dry).Yields w report' v') ↔
      ∃ tally' v', (ImagePass.run root o.dry).Yields { v₁ with codebook := .empty } tally' v' := by
    constructor
    · rintro ⟨report', v', hdry⟩
      obtain ⟨v₂, himages', -⟩ := (yields_run_iff hclasses').1 hdry
      exact ⟨_, v₂, himages'⟩
    · rintro ⟨tally', v₂, himages'⟩
      exact ⟨⟨report.classNames, v₂.codebook, report.classes, tally'⟩, _, (yields_run_iff hclasses').2 ⟨v₂, himages', rfl, rfl⟩⟩
  rw [hrun, hpass]
  constructor
  · exact fun hready _ hnames => (hready hnames).2
  · intro hready hnames
    refine ⟨hlists, ?_⟩
    cases hempty : report.classNames.isEmpty with
    | true => exact hready hempty hnames
    | false => exact hreads hempty

/-- When a run and a dry run both end well, they give the same names and count as many renames. -/
theorem agrees_of_yields (ho : o.dryRun = false) (ht : w.disk.IsTree) (h : (run root o).Yields w report w') {report' : Report}
    {v' : Workspace σ} (hdry : (run root o.dry).Yields w report' v') : Agrees report report' := by
  obtain ⟨w₁, w₂, hclasses, himages, hbook, -, -⟩ := exists_yields_imagePass h
  obtain ⟨v₁, hclasses', habreast⟩ := yields_throughClasses_dry ho ht hclasses
  have hbare : Pass.SameBare w₁.disk v₁.disk := by
    rw [Pass.SameBare, (keepsDisk_throughClasses root).eq hclasses', ((yields_throughClasses hclasses).2 ht.distinct).1]
  obtain ⟨v₂, himages', hreport, -⟩ := (yields_run_iff hclasses').1 hdry
  obtain ⟨hrenamed, hbook'⟩ := Pass.yields_imagePass_dry (w := { w₁ with codebook := .empty })
    (v := { v₁ with codebook := .empty }) ho ⟨habreast.mint, rfl, habreast.events⟩ hbare himages himages'
  rw [hreport]
  exact ⟨rfl, hbook'.trans hbook.symm, rfl, hrenamed⟩

/-- When a run and a dry run both end well and the path of the project still leads to a directory, they count as many text
files. -/
theorem filesProcessed_run_dry (ho : o.dryRun = false) (ht : w.disk.IsTree) (h : (run root o).Yields w report w')
    {report' : Report} {v' : Workspace σ} (hdry : (run root o.dry).Yields w report' v') (hdir' : w'.disk.isDirectory root = true) :
    report'.images.filesProcessed = report.images.filesProcessed := by
  obtain ⟨w₁, w₂, hclasses, himages, -, hdisk', -⟩ := exists_yields_imagePass h
  obtain ⟨v₁, hclasses', habreast⟩ := yields_throughClasses_dry ho ht hclasses
  have hdisk := (keepsDisk_throughClasses root).eq hclasses'
  obtain ⟨hlists, hfound⟩ := yields_throughClasses hclasses
  obtain ⟨hbare, -⟩ := hfound ht.distinct
  obtain ⟨v₂, himages', -⟩ := (yields_run_iff hclasses').1 hdry
  obtain ⟨-, himagesListed, hentered, -⟩ := Pass.yields_imagePass rfl himages
  have hnaming : IsImageNaming w₁.disk root w₂.codebook := .of_entered hentered
  have ht₁ := ht.of_bare hbare
  refine Pass.filesProcessed_imagePass_dry (w := { w₁ with codebook := .empty }) (v := { v₁ with codebook := .empty }) ho
    ⟨habreast.mint, rfl, habreast.events⟩ (by rw [Pass.SameBare, hdisk, hbare]) himages himages' fun d hmoved hlists' hrewritten => ?_
  -- the dry run finds as many text files as there are when the images have been moved
  obtain ⟨-, ht', -⟩ := hnaming.eq_carry ht₁ himagesListed ho hmoved
  rw [hdisk', Disk.isDirectory_of_bare (hrewritten.bare ht'.distinct)] at hdir'
  obtain ⟨base, hlocated, hat⟩ := Disk.isDirectory_iff.1 hdir'
  have hmoving : IsMoving o w₂.codebook root base w₁.disk d := ⟨ho, ht₁, himagesListed, hnaming, hmoved, hlocated, hat⟩
  rw [hdisk, ← textsBelow_of_bare hbare]
  exact hmoving.length_textsBelow (lists_of_bare hbare hlists) hlists'

/-- What a run that ends well has read, a dry run can read as well: the path of the project still leads to a directory after the
run, no reading is refused, and no text file with the name of an image has a path that is too long. -/
theorem readsTexts_of_yields (ho : o.dryRun = false) (ht : w.disk.IsTree) (h : (run root o).Yields w report w')
    (hdir' : w'.disk.isDirectory root = true) (hnames : report.imageNames.isEmpty = false)
    (hallow : ∀ loc, w.disk.allow (.read loc) = .ok ())
    (hshort : ∀ f ∈ textsBelow w.disk root, ∀ n ∈ report.imageNames.names, ImagePass.leaf? f.1 = some n →
      f.1.bytes.length < Disk.maxPath) : w.disk.ReadsTexts root := by
  obtain ⟨w₁, w₂, hclasses, himages, hbook, hdisk', -⟩ := exists_yields_imagePass h
  obtain ⟨hlists, hfound⟩ := yields_throughClasses hclasses
  obtain ⟨hbare, -⟩ := hfound ht.distinct
  have ht₁ := ht.of_bare hbare
  obtain ⟨d, himagesListed, hentered, hmoved, ⟨hempty, -⟩ | ⟨hlists', hrewritten⟩⟩ := Pass.yields_imagePass rfl himages
  · rw [hbook, hempty] at hnames
    cases hnames
  · have hnaming : IsImageNaming w₁.disk root w₂.codebook := .of_entered hentered
    obtain ⟨-, ht', -⟩ := hnaming.eq_carry ht₁ himagesListed ho hmoved
    rw [hdisk', Disk.isDirectory_of_bare (hrewritten.bare ht'.distinct)] at hdir'
    obtain ⟨base, hlocated, hat⟩ := Disk.isDirectory_iff.1 hdir'
    have hmoving : IsMoving o w₂.codebook root base w₁.disk d := ⟨ho, ht₁, himagesListed, hnaming, hmoved, hlocated, hat⟩
    rw [← textsBelow_of_bare hbare, hbook] at hshort
    have hread := hrewritten.readsTexts ht'.distinct fun _ => ImagePass.rewriter w₂.codebook
    exact readsTexts_of_bare hbare.symm (hmoving.readsTexts (lists_of_bare hbare hlists) hlists' hread
      (fun loc => (Disk.allow_of_bare hbare _).trans (hallow loc)) hshort)

end Foretold

/-- A dry run leaves the whole disk as it is, whether it succeeds or fails. When a run from the same workspace ends well, the dry run
comes through the class pass with the same class names, the same counts and the same changes announced, and it announces the same
renames in the same order, whatever comes of it. It ends well too, exactly if each text file can be read where it stands, as it can
when the class pass has rewritten any, or if there are no images. If the path of the project still leads to a directory after the run
and no reading is refused, it is enough that the text files with the name of an image have paths that can be opened. When both end
well, they give the same names and the same counts, that of the text files if the path of the project still leads to a directory after
the run. -/
theorem run_dry [WordSource σ] (root : Path) (o : Options) (w : Workspace σ) :
    ((run root o.dry).outcome w).2.disk = w.disk ∧
    ∀ report w', o.dryRun = false → (run root o).Yields w report w' → w.disk.IsTree →
      (∃ v, (throughClasses root o.dry).Yields w (report.classes, report.classNames) v ∧
        v.events = ((throughClasses root o).outcome w).2.events) ∧
      ((run root o.dry).outcome w).2.renames = w'.renames ∧
      ((∃ report' v', (run root o.dry).Yields w report' v') ↔
        (report.classNames.isEmpty = true → report.imageNames.isEmpty = false → w.disk.ReadsTexts root)) ∧
      (w'.disk.isDirectory root = true → (∀ loc, w.disk.allow (.read loc) = .ok ()) →
        (∀ f ∈ textsBelow w.disk root, ∀ n ∈ report.imageNames.names, ImagePass.leaf? f.1 = some n →
          f.1.bytes.length < Disk.maxPath) → ∃ report' v', (run root o.dry).Yields w report' v') ∧
      ∀ report' v', (run root o.dry).Yields w report' v' → Agrees report report' ∧
        (w'.disk.isDirectory root = true → report'.images.filesProcessed = report.images.filesProcessed) := by
  refine ⟨keepsDisk_run root w, ?_⟩
  intro report w' ho h ht
  obtain ⟨w₁, -, hclasses, -⟩ := exists_yields_imagePass h
  obtain ⟨v₁, hclasses', habreast⟩ := yields_throughClasses_dry ho ht hclasses
  have hevents : v₁.events = ((throughClasses root o).outcome w).2.events := by
    rw [hclasses]
    exact habreast.events
  have hready := exists_yields_run_dry ho ht h
  refine ⟨⟨v₁, hclasses', hevents⟩, renames_run_dry ho ht h, hready, fun hdir' hallow hshort => ?_, fun report' v' hdry => ?_⟩
  · exact hready.2 fun _ hnames => readsTexts_of_yields ho ht h hdir' hnames hallow hshort
  · exact ⟨agrees_of_yields ho ht h hdry, filesProcessed_run_dry ho ht h hdry⟩

open GalleryWitness in
open SiteWitness (bytes root) in
/-- Both runs of a gallery end well, and the dry run foretells what the run does. -/
theorem run_dry_gallery : (run root {}).Yields gallery report ((run root {}).outcome gallery).2 ∧ gallery.disk.IsTree ∧
    ((run root {}).outcome gallery).2.disk.isDirectory root = true ∧
    ((run root (Options.dry {})).outcome gallery).2.disk = gallery.disk ∧
    ∃ report' v', (run root (Options.dry {})).Yields gallery report' v' ∧ Agrees report report' ∧
      report'.images.filesProcessed = 2 := by
  have ht : gallery.disk.IsTree := by decide
  have hdir : ((run root {}).outcome gallery).2.disk.isDirectory root = true := by decide +kernel
  obtain ⟨hdisk, hrun⟩ := run_dry root {} gallery
  obtain ⟨-, -, hready, -, hsame⟩ := hrun _ _ rfl yields_report ht
  obtain ⟨report', v', hdry⟩ := hready.2 fun hempty => absurd hempty (by decide)
  obtain ⟨hagrees, hcount⟩ := hsame report' v' hdry
  exact ⟨yields_report, ht, hdir, hdisk, report', v', hdry, hagrees, hcount hdir⟩

namespace LinkedRootWitness

open SiteWitness (bytes)

/-- A site that is led to by a link, with a link in it that leads up to where that link stands, and a source whose second token is the
name of the link. -/
def site : Workspace WordCycle where
  disk := { entries := [
    ([bytes "1201201201"], .link (.ofText "site".toList)),
    ([bytes "site"], .directory),
    ([bytes "site", bytes "a.html"], .file []),
    ([bytes "site", bytes "img"], .link (.ofText "..".toList)),
    ([bytes "u"], .file [])] }
  mint := { source := { words := [1, 297528130221121801, 595056260442243601] } }

def root : Path := .ofText "1201201201".toList

def report (files : Nat) : Report where
  classNames := .empty
  imageNames := ⟨[("a.html".toList, "0120120120.html".toList), ("u".toList, "1201201201".toList)]⟩
  classes := {}
  images := { filesProcessed := files, pathsRenamed := 2 }

end LinkedRootWitness

open LinkedRootWitness in
/-- A run may lose the root: the image `u` takes the place of the link that the root is led to by, so that the last listing of the run
finds no text file, and that of the dry run finds one. -/
theorem run_dry_false : ¬∀ (root : Path) (o : Options) (w w' v' : Workspace WordCycle) (report report' : Report),
    o.dryRun = false → (run root o).Yields w report w' → w.disk.IsTree → (run root o.dry).Yields w report' v' →
    report'.images.filesProcessed = report.images.filesProcessed := by
  intro hall
  have hrun : (run root {}).Yields site (report 0) ((run root {}).outcome site).2 :=
    Pass.yields_of_toOption (by decide +kernel)
  have hdry : (run root (Options.dry {})).Yields site (report 1) ((run root (Options.dry {})).outcome site).2 :=
    Pass.yields_of_toOption (by decide +kernel)
  exact absurd (hall root {} site _ _ (report 0) (report 1) rfl hrun (by decide) hdry) (by decide)

/-! ## A run at the limit of what a path may have of bytes -/

namespace LongPathWitness

open SiteWitness (bytes)
open Disk (maxPath)
open Pass

/-- A site whose image directory is a link to a directory with a longer name, and a file there. -/
def disk (file : Name) : Disk where
  entries := [
    ([bytes "site"], .directory),
    ([bytes "site", bytes "pictures"], .directory),
    ([bytes "site", bytes "pictures", file], .file []),
    ([bytes "site", bytes "img"], .link (.ofText "pictures".toList))]

/-- The name of an image that is a text file. -/
def image : Text := "page-of-images.html".toList

/-- The extension of the image. -/
def extension : Text := "html".toList

/-- The token for the image. -/
def token : Text := "0000000000.html".toList

/-- The site with the image, and a source of zeros. -/
def site : Workspace WordCycle where
  disk := disk (Utf8.encode image)
  mint := { source := { words := [0] } }

/-- What a run over the site tells. -/
def report : Report where
  classNames := .empty
  imageNames := ⟨[(image, token)]⟩
  classes := {}
  images := { filesProcessed := 1, pathsRenamed := 1 }

/-- The path of the site, with one slash behind it and some more. -/
def root (n : Nat) : Path := ⟨bytes "site" ++ List.replicate (n + 1) Path.slash⟩

variable {n : Nat}

/-- The path of the site is not empty. -/
theorem bytes_root_ne_nil : (root n).bytes ≠ [] := List.cons_ne_nil _ _

/-- However many slashes there are, the path of the site is one name. -/
theorem components_root : (root n).components = [bytes "site"] := Path.components_append_slashes (bytes "site") (n + 1)

/-- What is joined to the path of the site needs no slash of its own. -/
theorem endsInSlash_root : (root n).endsInSlash = true := by
  rw [Path.endsInSlash, root, List.replicate_succ', ← List.append_assoc, List.getLast?_concat]
  rfl

/-- Every slash counts. -/
theorem length_root : (root n).bytes.length = n + 5 := by
  rw [root, List.length_append, List.length_replicate, show (bytes "site").length = 4 from rfl]
  omega

/-- A directory of the site has the slashes before its name. -/
theorem length_join {m : Name} (hm : m.Proper) : ((root n).join m).bytes.length = n + 5 + m.length := by
  rw [Path.bytes_join_of_endsInSlash endsInSlash_root hm, List.length_append, length_root]

/-- A file of the site has one slash more before its name. -/
theorem length_below {m k : Name} (hm : m.Proper) (hk : k.Proper) :
    ((root n).below [m, k]).bytes.length = n + 6 + m.length + k.length := by
  have hne : ((root n).join m).bytes.isEmpty = false := List.isEmpty_eq_false_iff.2 (Path.bytes_join_ne_nil hm)
  rw [Path.below_cons, Path.below_cons, Path.below_nil, Path.join_eq hk, Path.endsInSlash_join hm, hne, Bool.or_false,
    if_neg Bool.false_ne_true, List.length_append, length_join hm, List.length_cons]
  omega

/-- The operating system takes the path of the site as long as it is short enough. -/
theorem checkPath_root (hn : n + 5 < maxPath) : Disk.checkPath (root n) = .ok () := by
  have hnull : (0 : UInt8) ∉ bytes "site" := by decide
  rw [Disk.checkPath_eq_ok, length_root]
  exact ⟨by simp [root, hnull, Path.slash], bytes_root_ne_nil, hn⟩

/-! Where the paths lead -/

/-- The path of the site leads to it. -/
theorem locate_root (hn : n + 5 < maxPath) (file : Name) : (disk file).locate .follow (root n) = .ok [bytes "site"] := by
  rw [Disk.locate, checkPath_root hn, Disk.route, endsInSlash_root, components_root]
  rfl

/-- The path of the image directory leads through the link. -/
theorem locate_directory (hn : n + 8 < maxPath) (file : Name) :
    (disk file).locate .follow (ImagePass.directory (root n)) = .ok [bytes "site", bytes "pictures"] := by
  have hproper : ∀ m ∈ [ImagePass.directoryName], Name.Proper m := by decide
  have hbelow : ImagePass.directory (root n) = (root n).below [ImagePass.directoryName] := rfl
  have hlength : ((root n).below [ImagePass.directoryName]).bytes.length = n + 8 := length_join ImagePass.directoryName_proper
  have hcheck : Disk.checkPath ((root n).below [ImagePass.directoryName]) = .ok () :=
    (Disk.checkPath_below_iff (checkPath_root (by omega)) hproper).2 ⟨hlength ▸ hn, by decide⟩
  rw [hbelow, Disk.locate, hcheck, Disk.route_below bytes_root_ne_nil (List.cons_ne_nil _ _) hproper, components_root,
    Disk.origin_below bytes_root_ne_nil hproper]
  rfl

/-- The site can be run over. -/
theorem isDirectory_root (hn : n + 5 < maxPath) (file : Name) : (disk file).isDirectory (root n) = true :=
  Disk.isDirectory_iff.2 ⟨_, locate_root hn file, rfl⟩

/-- The site has images. -/
theorem isDirectory_directory (hn : n + 8 < maxPath) (file : Name) : (disk file).isDirectory (ImagePass.directory (root n)) = true :=
  Disk.isDirectory_iff.2 ⟨_, locate_directory hn file, rfl⟩

/-- The file is listed below the site by the name of its directory. -/
theorem files_root (hn : n + 13 < maxPath) (file : Name) :
    (disk file).files (root n) = .ok [(root n).below [bytes "pictures", file]] := by
  have hwalk : (disk file).walk (root n) [bytes "site"] = [.directory (root n), .directory ((root n).join (bytes "pictures")),
      .file ((root n).below [bytes "pictures", file])] := rfl
  have hroot : ¬maxPath ≤ (root n).bytes.length := by
    rw [length_root]
    omega
  have hpictures : ¬maxPath ≤ ((root n).join (bytes "pictures")).bytes.length := by
    rw [length_join (by decide)]
    exact Nat.not_le.2 hn
  rw [Disk.files_of_directory (Disk.status_of_locate (locate_root (by omega) file) rfl), hwalk]
  simp only [List.findSome?_cons, List.findSome?_nil, Disk.Visit.unopened?, if_neg hroot, if_neg hpictures]
  rfl

/-- The file is listed among the images by the name of the link. -/
theorem files_directory (hn : n + 8 < maxPath) (file : Name) :
    (disk file).files (ImagePass.directory (root n)) = .ok [(root n).below [bytes "img", file]] := by
  have hwalk : (disk file).walk (ImagePass.directory (root n)) [bytes "site", bytes "pictures"] =
      [.directory (ImagePass.directory (root n)), .file ((root n).below [bytes "img", file])] := rfl
  have hdirectory : ¬maxPath ≤ (ImagePass.directory (root n)).bytes.length := by
    rw [ImagePass.directory_eq, length_join ImagePass.directoryName_proper]
    exact Nat.not_le.2 hn
  rw [Disk.files_of_directory (Disk.status_of_locate (locate_directory hn file) rfl), hwalk]
  simp only [List.findSome?_cons, List.findSome?_nil, Disk.Visit.unopened?, if_neg hdirectory]
  rfl

section Names

variable {file : Name} (hproper : file.Proper) (hnull : (0 : UInt8) ∉ file)
include hproper hnull

/-- The operating system takes the path of an image as long as it is short enough. -/
theorem checkPath_image (hn : n + 9 + file.length < maxPath) : Disk.checkPath ((root n).below [bytes "img", file]) = .ok () := by
  have himg : Name.Proper (bytes "img") ∧ (0 : UInt8) ∉ bytes "img" := by decide
  refine (Disk.checkPath_below_iff (checkPath_root (by omega)) (by simp [hproper, himg.1])).2 ⟨?_, by simp [hnull, himg.2]⟩
  rw [length_below himg.1 hproper]
  exact hn

/-- The path of an image is split before its last name, where the images are. -/
theorem splitLast_image (hn : n + 9 + file.length < maxPath) (old : Name) :
    (disk old).splitLast ((root n).below [bytes "img", file]) = .ok ([bytes "site", bytes "pictures"], file) := by
  have himg : Name.Proper (bytes "img") := by decide
  rw [Disk.splitLast, checkPath_image hproper hnull hn, Path.components_below bytes_root_ne_nil (by simp [hproper, himg]),
    components_root, Disk.origin_below bytes_root_ne_nil (by simp [hproper, himg])]
  rfl

omit hnull in
/-- The path of an image is that of a file. -/
theorem endsInSlash_image : ((root n).below [bytes "img", file]).endsInSlash = false := Path.endsInSlash_join hproper

end Names

/-- By the name of the link the image can be moved. -/
theorem move_image (hn : n + 28 < maxPath) : (disk (Utf8.encode image)).move ((root n).below [bytes "img", Utf8.encode image])
    ((root n).below [bytes "img", Utf8.encode token]) = .ok (disk (Utf8.encode token)) := by
  have hold : Name.Proper (Utf8.encode image) ∧ (0 : UInt8) ∉ Utf8.encode image := by decide
  have hnew : Name.Proper (Utf8.encode token) ∧ (0 : UInt8) ∉ Utf8.encode token := by decide
  have hlength : n + 9 + (Utf8.encode token).length < maxPath := by
    rw [show (Utf8.encode token).length = 15 from rfl]
    omega
  rw [Disk.move, checkPath_image hold.1 hold.2 hn, checkPath_image hnew.1 hnew.2 hlength, splitLast_image hold.1 hold.2 hn,
    splitLast_image hnew.1 hnew.2 hlength, endsInSlash_image hold.1, endsInSlash_image hnew.1]
  rfl

/-- By the name of its directory the image can be read under its new name. -/
theorem read_token (hn : n + 29 < maxPath) :
    (disk (Utf8.encode token)).read ((root n).below [bytes "pictures", Utf8.encode token]) = .ok [] := by
  have hshort : ((root n).below [bytes "pictures", Utf8.encode token]).bytes.length < maxPath := by
    rw [length_below (by decide) (by decide)]
    exact hn
  have hfits : ∀ m ∈ [bytes "pictures", Utf8.encode token], Name.Fits m := by
    simp only [List.mem_cons, List.not_mem_nil, or_false, forall_eq_or_imp, forall_eq]
    exact ⟨⟨by decide, by decide⟩, ⟨by decide, by decide⟩⟩
  have hlocate : (disk (Utf8.encode token)).locate .follow ((root n).below [bytes "pictures", Utf8.encode token]) =
      .ok ([bytes "site"] ++ [bytes "pictures", Utf8.encode token]) :=
    (Disk.IsTree.locate_below_iff (by decide) (locate_root (by omega) _) (List.cons_ne_nil _ _) rfl (by simp)).2 ⟨hshort, hfits, rfl⟩
  exact Disk.read_of_locate hlocate rfl rfl

/-- By the name of its directory the image cannot be read under its old name. -/
theorem read_image_ne (hn : maxPath ≤ n + 33) {content : Bytes} :
    (disk (Utf8.encode image)).read ((root n).below [bytes "pictures", Utf8.encode image]) ≠ .ok content := by
  intro hread
  obtain ⟨loc, hloc, -⟩ := Disk.read_eq_ok hread
  have hshort := (Disk.checkPath_eq_ok.1 (Disk.locate_eq_ok hloc).1).2.2
  rw [length_below (by decide) (by decide)] at hshort
  exact absurd hshort (Nat.not_lt.2 hn)

/-! What the run does -/

/-- A file is listed in the language of its name. -/
theorem language_below {file : Name} (hproper : file.Proper) (hlanguage : Language.ofName? file = some .markup) :
    Language.ofPath? ((root n).below [bytes "pictures", file]) = some .markup := by
  have hpictures : Name.Proper (bytes "pictures") := by decide
  rw [Language.ofPath?_eq, Path.fileName?_below bytes_root_ne_nil (List.cons_ne_nil _ _) (by simp [hproper, hpictures])]
  exact hlanguage

/-- The image has a name that is a text. -/
theorem leaf?_image : ImagePass.leaf? ((root n).below [bytes "img", Utf8.encode image]) = some image := by
  rw [ImagePass.leaf?_below bytes_root_ne_nil (List.cons_ne_nil _ _) (by decide)]
  decide

/-- The image is given the token as its name, where it stands. -/
theorem renamed_image : ImagePass.renamed ((root n).below [bytes "img", Utf8.encode image]) token =
    (root n).below [bytes "img", Utf8.encode token] := by
  have hproper : ∀ m ∈ [] ++ [Utf8.encode image], Name.Proper m := by decide
  exact ImagePass.renamed_below (ImagePass.bytes_directory_ne_nil (root n)) (ImagePass.endsInSlash_directory (root n)) hproper token

/-- The mint makes the token, once the name of the image has been reserved for the run and for its image pass. -/
theorem fileName_image : (Mint.fileName (some extension) ((site.mint.reserve image).reserve image)).token = .ok token ∧
    (Mint.fileName (some extension) ((site.mint.reserve image).reserve image)).collisions = [] := ⟨rfl, rfl⟩

variable (m : Mint WordCycle) (b : Codebook) (trace : List Notice)

/-- The image is found, and its name reserved. -/
theorem outcome_reserveNames (hn : n + 8 < maxPath) : (ImagePass.reserveNames (root n)).outcome ⟨disk (Utf8.encode image), m, b, trace⟩ =
    (.ok [(root n).below [bytes "img", Utf8.encode image]], ⟨disk (Utf8.encode image), m.reserve image, b,
      trace ++ [.listing (ImagePass.directory (root n)), .listed 1]⟩) := by
  simp [ImagePass.reserveNames, list, note, reserve, outcome_bind, outcome_get, outcome_modify, outcome_map, isDirectory_directory hn,
    files_directory hn, leaf?_image, Mint.reserveAll]

/-- The class pass finds no stylesheet. -/
theorem outcome_classPass (hn : n + 13 < maxPath) : (ClassPass.run (root n) {}).outcome ⟨disk (Utf8.encode image), m, .empty, trace⟩ =
    (.ok {}, ⟨disk (Utf8.encode image), m, .empty,
      trace ++ [.discovering (root n), .listing (root n), .listed 0, .classesNamed 0]⟩) := by
  have hlanguage : Language.ofPath? ((root n).below [bytes "pictures", Utf8.encode image]) = some .markup :=
    language_below (by decide) (by decide)
  simp [ClassPass.run, ClassPass.discover, ClassPass.assign, listTexts, list, tagged?, note, reserve, outcome_bind, outcome_get,
    outcome_modify, outcome_map, files_root hn, hlanguage, Mint.reserveAll, Token.defaultClassTokenLength, Codebook.empty,
    Codebook.isEmpty, Codebook.size]

/-- The image pass moves the image and reads it under its new name. -/
theorem exists_yields_imagePass_image (hn : n + 29 < maxPath) : ∃ v,
    (ImagePass.run (root n) {}).Yields ⟨disk (Utf8.encode image), site.mint.reserve image, .empty, trace⟩ report.images v ∧
      v.disk = disk (Utf8.encode token) ∧ v.codebook = report.imageNames := by
  have hlanguage : Language.ofPath? ((root n).below [bytes "pictures", Utf8.encode token]) = some .markup :=
    language_below (by decide) (by decide)
  have hextension : ((root n).below [bytes "img", Utf8.encode image]).extension?.bind Utf8.decode? = some extension := by
    rw [extension_of_leaf? leaf?_image]
    decide
  have hdecode : Charset.decode [] = ([], .utf8) := rfl
  have hrename : Reference.rename ⟨[(image, token)]⟩ [] = none := by decide
  simp [Yields, ImagePass.run, ImagePass.renameAll, ImagePass.rewriter, listTexts, list, tagged?, note, noteAll, pseudonym, mint, move,
    rewriteFiles, rewriteFile, load, outcome_bind, outcome_get, outcome_modify, outcome_map, Codebook.tryEnter, Codebook.get?,
    Codebook.append, Codebook.isEmpty, Codebook.empty, Language.all, report, outcome_reserveNames (n := n) _ _ _ (by omega),
    isDirectory_directory (n := n) (by omega), files_root (n := n) (by omega), move_image (n := n) (by omega), read_token hn,
    leaf?_image, renamed_image, fileName_image, hlanguage, hextension, hdecode, hrename]

/-- The run ends well as long as the image can be read under its new name. -/
theorem exists_yields_run (hn : n + 29 < maxPath) :
    ∃ w', (run (root n) {}).Yields site report w' ∧ w'.disk = disk (Utf8.encode token) := by
  obtain ⟨v, himages, hdisk, hbook⟩ := exists_yields_imagePass_image (n := n) _ hn
  have hclasses : (throughClasses (root n) {}).Yields site (report.classes, report.classNames) _ :=
    yields_throughClasses_iff.2 ⟨isDirectory_root (by omega) _, _, _, outcome_reserveNames _ _ _ (by omega),
      outcome_classPass _ _ (by omega), rfl⟩
  refine ⟨_, (yields_run_iff hclasses).2 ⟨v, himages, ?_, rfl⟩, hdisk⟩
  rw [hbook]

/-- The dry run does not, once the image cannot be read under its old name. -/
theorem not_yields_run_dry (hlong : maxPath ≤ n + 33) (hn : n + 29 < maxPath) :
    ¬∃ report' v', (run (root n) (Options.dry {})).Yields site report' v' := by
  obtain ⟨w', hrun, -⟩ := exists_yields_run hn
  rw [exists_yields_run_dry rfl (by decide) hrun]
  intro hreads
  have hfiles : site.disk.files (root n) = _ := files_root (by omega) _
  have hlisted : ((root n).below [bytes "pictures", Utf8.encode image], .markup) ∈ textsBelow site.disk (root n) := by
    rw [textsBelow, Disk.filesBelow_of_files hfiles, List.filterMap_cons, tagged?_all, language_below (by decide) (by decide)]
    exact List.mem_singleton_self _
  obtain ⟨content, hread⟩ := hreads rfl rfl _ hlisted
  exact read_image_ne hlong hread

end LongPathWitness

open LongPathWitness in
/-- A dry run may fail where the run does not: the run reads an image that is a text file under its new path, and the path that the
dry run would have to read it from is too long. -/
theorem run_dry_fails : ¬∀ (root : Path) (o : Options) (w w' : Workspace WordCycle) (report : Report), o.dryRun = false →
    (run root o).Yields w report w' → w.disk.IsTree → w'.disk.isDirectory root = true →
    ∃ report' v', (run root o.dry).Yields w report' v' := by
  intro hall
  obtain ⟨w', hrun, hdisk⟩ := exists_yields_run (n := 4063) (by decide)
  refine not_yields_run_dry (n := 4063) (by decide) (by decide) (hall _ {} site w' report rfl hrun (by decide) ?_)
  rw [hdisk]
  exact isDirectory_root (by decide) _

end Project

end Pseudonym
