import Pseudonym.Proofs.Edits
import Pseudonym.Proofs.Moves
import Pseudonym.Proofs.Namings

/-!
# The images of a project

A token that is made for the name of a file is a name that a file can have (`IsFileToken.proper`) and tells the same language
(`IsFileToken.ofName?_encode`). The images of a project are the files below its image directory, wherever the path of that
directory leads (`imageLocations`). With the codebook of a run each of them is moved to its new name in its own directory, and
nothing but links can stand in the way (`IsImageNaming.eq_carry`). Where the image directory is a real one and no link has such a
name, the images are the files below it by the names that lead to them (`IsProject`), and no link is lost.
-/

namespace Pseudonym

/-! ## Tokens as names of files -/

namespace IsFileToken

theorem not_mem_alphanumerics : '.' ∉ Token.alphanumerics ∧ '/' ∉ Token.alphanumerics := by decide

/-- No token begins with a dot. -/
theorem exists_first {ext : Option Text} {p : Text} (h : IsFileToken ext p) :
    ∃ b bs, Utf8.encode p = b :: bs ∧ b ≠ Path.dot := by
  obtain ⟨s, hlen, hs, rfl⟩ := h
  cases s with
  | nil => cases hlen
  | cons c s =>
    have hc : c ≠ '.' := by
      rintro rfl
      exact not_mem_alphanumerics.1 (hs _ List.mem_cons_self)
    obtain ⟨b, bs, hb⟩ : ∃ b bs, Utf8.encodeChar c = b :: bs := by
      refine List.exists_cons_of_ne_nil (List.ne_nil_of_length_pos ?_)
      rw [Utf8.length_encodeChar]
      exact c.utf8Size_pos
    refine ⟨b, bs ++ Utf8.encode (s ++ Token.extensionSuffix ext), ?_, ?_⟩
    · rw [List.cons_append, Utf8.encode_cons, hb, List.cons_append]
    · rintro rfl
      have hmem : Path.dot ∈ Utf8.encodeChar c := by
        rw [hb]
        exact List.mem_cons_self
      have hdot : Path.dot.toNat < 0x80 := by decide
      have hnat := (Utf8.ascii_mem_encodeChar hdot).1 hmem
      exact hc (Char.ext (UInt32.toNat_inj.1 hnat))

/-- A token that is made for a name has its extension, unless that is empty. -/
theorem textExtension?_eq {t p : Text} (h : IsFileToken (textExtension? t) p) :
    textExtension? p = (textExtension? t).filter fun ext => !ext.isEmpty := by
  obtain ⟨s, hlen, hs, rfl⟩ := h
  have hdot : Path.dot.toNat < 0x80 := by decide
  have hbytes : Path.dot ∉ Utf8.encode s := by
    intro hm
    exact not_mem_alphanumerics.1 (hs _ ((Utf8.ascii_mem_encode hdot).1 hm))
  have hnone : textExtension? s = none := by
    rw [textExtension?, Path.extensionOf_of_not_mem hbytes]
    rfl
  cases hext : textExtension? t with
  | none =>
    rw [Token.extensionSuffix, List.append_nil, hnone]
    · rfl
    · intro c ext hc
      cases hc
  | some ext =>
    cases ext with
    | nil =>
      rw [Token.extensionSuffix, List.append_nil, hnone]
      · rfl
      · intro c ext hc
        cases hc
    | cons c ext =>
      obtain ⟨-, -, -, hnodot⟩ := textExtension?_eq_some hext
      have hsne : s ≠ [] := by
        rintro rfl
        cases hlen
      rw [Token.extensionSuffix, textExtension?_append hsne (List.cons_ne_nil _ _) hnodot]
      rfl

/-- A file with a token for its name is a file of the same language. -/
theorem ofName?_encode {t p : Text} (h : IsFileToken (textExtension? t) p) :
    Language.ofName? (Utf8.encode p) = Language.ofName? (Utf8.encode t) := by
  have hlanguage (s : Text) : Language.ofName? (Utf8.encode s) =
      (textExtension? s).bind fun ext => Language.all.find? fun (l : Language) => sameIgnoringCase ext l.extension := by
    unfold Language.ofName? textExtension?
    cases (Path.extensionOf (Utf8.encode s)).bind Utf8.decode? <;> rfl
  rw [hlanguage, hlanguage, h.textExtension?_eq]
  -- no language has an empty extension
  rcases textExtension? t with _ | _ | ⟨c, ext⟩ <;> rfl

/-- A token that is made for a name without a slash is a name that an entry can have. -/
theorem proper {t p : Text} (h : IsFileToken (textExtension? t) p) (ht : Path.slash ∉ Utf8.encode t) :
    Name.Proper (Utf8.encode p) := by
  obtain ⟨b, bs, hb, hne⟩ := h.exists_first
  refine ⟨?_, ?_, ?_, ?_⟩
  · rw [hb]
    exact List.cons_ne_nil _ _
  · have hslash : Path.slash.toNat < 0x80 := by decide
    rw [Utf8.ascii_mem_encode hslash] at ht ⊢
    intro hm
    have hnone : ∀ c ∈ p, c ≠ '/' := h.forall_mem (List.forall_mem_ne'.2 not_mem_alphanumerics.2) (List.forall_mem_ne'.2 ht)
    exact hnone _ hm rfl
  · rw [hb]
    intro heq
    exact hne (List.cons.inj heq).1
  · rw [hb]
    intro heq
    exact hne (List.cons.inj heq).1

end IsFileToken

/-! ## Where the images stand -/

/-- Where the files of a project's image directory stand, wherever its path leads; there are none if that is no directory. -/
def imageLocations (d : Disk) (root : Path) : List Location :=
  match d.locate .follow (ImagePass.directory root) with
  | .ok top => if d.isDirectoryAt top then (d.filesFrom d.depth top).map (top ++ ·) else []
  | .error _ => []

/-- Where an entry stands when the images of a project have got the names that a codebook has for them. -/
def imagePlace (b : Codebook) (d : Disk) (root : Path) : Location → Location := b.place (imageLocations d root)

namespace ImagePass

/-- The name of a project's image directory. -/
def directoryName : Name := Utf8.encode "img".toList

theorem directoryName_proper : directoryName.Proper := by decide

theorem directoryName_fits : directoryName.Fits := ⟨by decide, by decide⟩

theorem directory_eq (root : Path) : directory root = root.join directoryName := rfl

theorem endsInSlash_directory (root : Path) : (directory root).endsInSlash = false := Path.endsInSlash_join directoryName_proper

theorem bytes_directory_ne_nil (root : Path) : (directory root).bytes ≠ [] := Path.bytes_join_ne_nil directoryName_proper

end ImagePass

open ImagePass (directoryName)

/-- On a tree, the path of a project's image directory leads to a directory, wherever that stands, and its files can be listed. -/
structure IsGallery (d : Disk) (root : Path) (top : Location) : Prop where
  tree : d.IsTree
  located : d.locate .follow (ImagePass.directory root) = .ok top
  directory : d.isDirectoryAt top = true
  lists : d.Lists (ImagePass.directory root)

section Gallery

variable {d : Disk} {root : Path} {top loc : Location} {b : Codebook}

/-- Either there is no image directory, or the images lie below a location. -/
theorem exists_isGallery (ht : d.IsTree)
    (hlists : d.isDirectory (ImagePass.directory root) = true → d.Lists (ImagePass.directory root)) :
    d.isDirectory (ImagePass.directory root) = false ∨ ∃ top, IsGallery d root top := by
  cases hdir : d.isDirectory (ImagePass.directory root) with
  | false => exact .inl rfl
  | true =>
    obtain ⟨top, htop, hat⟩ := Disk.isDirectory_iff.1 hdir
    exact .inr ⟨top, ht, htop, hat, hlists hdir⟩

/-- Without an image directory there are no images. -/
theorem imagesBelow_eq_nil (h : d.isDirectory (ImagePass.directory root) = false) : imagesBelow d root = [] := by
  rw [imagesBelow, h, if_neg (by simp)]

/-- Without an image directory there are no locations of images. -/
theorem imageLocations_eq_nil (h : d.isDirectory (ImagePass.directory root) = false) : imageLocations d root = [] := by
  unfold imageLocations
  split
  · next top htop =>
    refine if_neg fun hat => ?_
    rw [Disk.isDirectory_iff.2 ⟨top, htop, hat⟩] at h
    cases h
  · rfl

namespace IsGallery

/-- The images are the files that are found from the location of the image directory. -/
theorem imagesBelow_eq (h : IsGallery d root top) :
    imagesBelow d root = (d.filesFrom d.depth top).map (ImagePass.directory root).below := by
  rw [imagesBelow, if_pos (Disk.isDirectory_iff.2 ⟨top, h.located, h.directory⟩),
    h.lists.filesBelow_eq h.located h.directory]

/-- They lie at the locations that are found. -/
theorem imageLocations_eq (h : IsGallery d root top) : imageLocations d root = (d.filesFrom d.depth top).map (top ++ ·) := by
  rw [imageLocations, h.located]
  exact if_pos h.directory

/-- Each gets its place by its new name. -/
theorem imagePlace_eq (h : IsGallery d root top) : imagePlace b d root = moveAll b top (d.filesFrom d.depth top) := by
  rw [imagePlace, h.imageLocations_eq]
  rfl

end IsGallery

/-- Where an image stands, there is a file. -/
theorem exists_of_mem_imageLocations (ht : d.IsTree) (h : loc ∈ imageLocations d root) : ∃ c, d.entry? loc = some (.file c) := by
  unfold imageLocations at h
  split at h
  · split at h
    · obtain ⟨names, hnames, rfl⟩ := List.mem_map.1 h
      exact (ht.mem_filesFrom_depth.1 hnames).2
    · cases h
  · cases h

/-- The names of images are those of their locations, as far as they can be read. -/
theorem mem_leavesBelow (ht : d.IsTree)
    (hlists : d.isDirectory (ImagePass.directory root) = true → d.Lists (ImagePass.directory root)) {t : Text} :
    t ∈ leavesBelow d root ↔ ∃ loc ∈ imageLocations d root, loc.getLast?.bind Utf8.decode? = some t := by
  rcases exists_isGallery ht hlists with hnone | ⟨top, h⟩
  · rw [leavesBelow, imagesBelow_eq_nil hnone, imageLocations_eq_nil hnone]
    simp
  · have hleaf : ∀ names ∈ d.filesFrom d.depth top, ImagePass.leaf? ((ImagePass.directory root).below names) =
        (top ++ names).getLast?.bind Utf8.decode? := by
      intro names hnames
      obtain ⟨hne, c, hc⟩ := ht.mem_filesFrom_depth.1 hnames
      rw [ImagePass.leaf?_below (ImagePass.bytes_directory_ne_nil root) hne
        fun n hn => ht.properNames hc n (List.mem_append_right _ hn), List.getLast?_append_of_ne_nil _ hne]
    rw [leavesBelow, h.imagesBelow_eq, h.imageLocations_eq, List.filterMap_map, List.mem_filterMap]
    constructor
    · rintro ⟨names, hnames, ht⟩
      exact ⟨_, List.mem_map_of_mem hnames, (hleaf names hnames).symm.trans ht⟩
    · rintro ⟨loc, hloc, ht⟩
      obtain ⟨names, hnames, rfl⟩ := List.mem_map.1 hloc
      exact ⟨names, hnames, (hleaf names hnames).trans ht⟩

/-- What is no file stays where it is. -/
theorem imagePlace_other (ht : d.IsTree) {e : Entry} (he : (loc, e) ∈ d.entries) (hfile : ∀ c, e ≠ .file c) :
    imagePlace b d root loc = loc := by
  refine if_neg fun hm => ?_
  obtain ⟨c, hc⟩ := exists_of_mem_imageLocations ht hm
  rw [(ht.distinct.entry?_eq_some_iff (ht.proper _ he).1).2 he] at hc
  exact hfile c (Option.some.inj hc)

end Gallery

/-! ## The codebook of the images -/

/-- A codebook with tokens for images of a project, perhaps not for all of them: no two tokens are the same, and none is the name of
an image. -/
structure NamesImages (d : Disk) (root : Path) (b : Codebook) : Prop where
  names : ∀ t ∈ b.names, t ∈ leavesBelow d root
  token : ∀ e ∈ b.entries, IsFileToken (textExtension? e.1) e.2
  distinct : b.pseudonyms.Nodup
  fresh : ∀ p ∈ b.pseudonyms, p ∉ leavesBelow d root

/-- A codebook that a run can make for the images of a project: each image whose name is a text has a token there, and no token
is the name of an image. -/
structure IsImageNaming (d : Disk) (root : Path) (b : Codebook) : Prop where
  names : b.names = (leavesBelow d root).eraseDups
  token : ∀ e ∈ b.entries, IsFileToken (textExtension? e.1) e.2
  distinct : b.pseudonyms.Nodup
  fresh : ∀ p ∈ b.pseudonyms, p ∉ leavesBelow d root

/-- The codebook of a run is one of the images that are there after the files have been rewritten. -/
theorem Namings.isImageNaming {d d' : Disk} {root : Path} {length : Nat} {c i : Codebook} (h : Namings d root length c i)
    (hbare : d'.bare = d.bare) : IsImageNaming d' root i where
  names := by
    rw [leavesBelow_of_bare hbare]
    exact h.images
  token := h.imageToken
  distinct := (List.nodup_append.1 h.distinct).2.1
  fresh := by
    rw [leavesBelow_of_bare hbare]
    exact fun p hp => h.notImage p (List.mem_append_right _ hp)

namespace NamesImages

variable {d d' : Disk} {root : Path} {top : Location} {b : Codebook}

/-- Names that are entered with the names of all images taken. -/
theorem of_entered {names : List Text} {t t' : List Text} (hnames : ∀ n ∈ names, n ∈ leavesBelow d root)
    (htaken : ∀ n ∈ leavesBelow d root, n ∈ t)
    (h : Entered (fun name p => IsFileToken (textExtension? name) p) names .empty t b t') : NamesImages d root b := by
  obtain ⟨ps, hps, -, hnodup, hfresh⟩ := h.fresh
  have hps : b.pseudonyms = ps := hps
  refine ⟨?_, fun e he => (h.made e he).resolve_left List.not_mem_nil, ?_, ?_⟩
  · intro n hn
    rw [h.names_eq, List.mem_eraseDups] at hn
    exact hnames n hn
  · rw [hps]
    exact hnodup
  · rw [hps]
    exact fun p hp hleaf => hfresh p hp (htaken p hleaf)

/-- A pseudonym can be the name of an entry. -/
theorem proper (h : NamesImages d root b) (hgallery : IsGallery d root top) : ∀ p ∈ b.pseudonyms, Name.Proper (Utf8.encode p) := by
  intro p hp
  obtain ⟨e, he, rfl⟩ := List.mem_map.1 hp
  -- the name is that of a file, so there is no slash in it
  obtain ⟨loc, hloc, hdecode⟩ := (mem_leavesBelow hgallery.tree fun _ => hgallery.lists).1 (h.names e.1 (List.mem_map_of_mem he))
  obtain ⟨n, hn, hdecode⟩ := Option.bind_eq_some_iff.1 hdecode
  obtain ⟨c, hc⟩ := exists_of_mem_imageLocations hgallery.tree hloc
  have hname := hgallery.tree.properNames hc n (List.mem_of_getLast? hn)
  refine (h.token e he).proper ?_
  rw [Utf8.encode_of_decode? hdecode]
  exact hname.noSlash

/-- With tokens that no image has for a name, images can be moved. -/
theorem movable (h : NamesImages d root b) (hgallery : IsGallery d root top) {files : List (List Name)}
    (hfiles : files.Sublist (d.filesFrom d.depth top)) : Movable b d top files d := by
  have ht := hgallery.tree
  have hfresh : ∀ names ∈ d.filesFrom d.depth top, ∀ p ∈ b.pseudonyms, names.getLast? ≠ some (Utf8.encode p) := by
    intro names hnames p hp hlast
    refine h.fresh p hp ((mem_leavesBelow ht fun _ => hgallery.lists).2 ⟨top ++ names, ?_, ?_⟩)
    · rw [hgallery.imageLocations_eq]
      exact List.mem_map_of_mem hnames
    · rw [List.getLast?_append, hlast, Option.some_or, Option.bind_some, Utf8.decode?_encode]
  refine ⟨ht.distinct, .refl d, hfiles.nodup (ht.nodup_filesFrom _ _),
    fun names hnames => ht.mem_filesFrom_depth.1 (hfiles.subset hnames),
    fun names hnames => hfresh names (hfiles.subset hnames), ?_⟩
  intro init n m _ hm c hc
  obtain ⟨t, p, -, hentry, rfl⟩ := Codebook.newName?_eq_some hm
  -- the file would be an image that has a token for its name
  exact hfresh (init ++ [Utf8.encode p]) (ht.mem_filesFrom_depth.2 ⟨by simp, c, hc⟩) p (List.mem_map_of_mem hentry)
    (List.getLast?_concat ..)

/-- Images of a project are moved all at once to where nothing but links can stand, and what they are moved to is a tree again. -/
theorem eq_carry (h : NamesImages d root b) (hgallery : IsGallery d root top) {files : List (List Name)}
    (hfiles : files.Sublist (d.filesFrom d.depth top)) {o : Options} (hdry : o.dryRun = false)
    (hmoved : Moved o b (files.map (ImagePass.directory root).below) d d') :
    d' = (d.unlink (newLocations b top files)).carry (moveAll b top files) ∧ d'.IsTree ∧ d.LosesLinks d' := by
  have ht := hgallery.tree
  obtain ⟨heq, hdistinct, hframe⟩ := hmoved.eq_carry hdry h.distinct (h.proper hgallery) ht hgallery.located
    (ImagePass.endsInSlash_directory root) (h.movable hgallery hfiles)
  refine ⟨heq, ?_, hframe⟩
  rw [heq] at hdistinct hframe ⊢
  have hframe' : (d.unlink (newLocations b top files)).LosesLinks
      ((d.unlink (newLocations b top files)).carry (moveAll b top files)) := by
    refine ((ht.unlink _).distinct.sameFrame_carry hdistinct fun x hx hfile => if_neg fun hm => ?_).losesLinks
    -- what is moved is a file
    obtain ⟨names, hnames, heq⟩ := List.mem_map.1 hm
    obtain ⟨-, c, hc⟩ := ht.mem_filesFrom_depth.1 (hfiles.subset hnames)
    have hx := (Disk.mem_unlink.1 hx).1
    rw [heq, (ht.distinct.entry?_eq_some_iff (ht.proper x hx).1).2 hx] at hc
    exact hfile c (Option.some.inj hc)
  refine (ht.unlink _).carry hdistinct hframe' ?_
  intro x hx
  obtain ⟨hne, hproper⟩ := ht.proper x (Disk.mem_unlink.1 hx).1
  obtain ⟨init, n, hloc⟩ : ∃ init n, x.1 = init ++ [n] := ⟨_, _, (List.dropLast_concat_getLast hne).symm⟩
  have hn : n.Proper := hproper n (by rw [hloc]; simp)
  rw [hloc, List.dropLast_concat]
  unfold moveAll Codebook.place
  split
  · rw [Codebook.newLocation_concat]
    refine ⟨_, ?_, rfl⟩
    cases hm : b.newName? n with
    | none => exact hn
    | some m =>
      obtain ⟨t, p, -, hentry, rfl⟩ := Codebook.newName?_eq_some hm
      exact h.proper hgallery p (List.mem_map_of_mem hentry)
  · exact ⟨n, hn, rfl⟩

end NamesImages

namespace IsImageNaming

variable {d d' : Disk} {root : Path} {top : Location} {b : Codebook}

/-- A naming of the images names each of them. -/
theorem namesImages (h : IsImageNaming d root b) : NamesImages d root b where
  names := by
    intro t ht
    rwa [h.names, List.mem_eraseDups] at ht
  token := h.token
  distinct := h.distinct
  fresh := h.fresh

/-- Every image whose name is a text has a token. -/
theorem exists_get? (h : IsImageNaming d root b) {t : Text} (ht : t ∈ leavesBelow d root) : ∃ p, b.get? t = some p := by
  refine Codebook.exists_get?_of_mem_names ?_
  rw [h.names]
  exact List.mem_eraseDups.2 ht

/-- A new name tells the same language as the old one. -/
theorem ofName?_newName (h : IsImageNaming d root b) {n m : Name} (hm : b.newName? n = some m) :
    Language.ofName? m = Language.ofName? n := by
  obtain ⟨t, p, hdecode, he, rfl⟩ := Codebook.newName?_eq_some hm
  rw [(h.token _ he).ofName?_encode, Utf8.encode_of_decode? hdecode]

/-- An image keeps its language. -/
theorem languageAt_newLocation (h : IsImageNaming d root b) (loc : Location) :
    languageAt (b.newLocation loc) = languageAt loc := by
  by_cases hloc : loc = []
  · subst hloc
    rfl
  obtain ⟨init, n, rfl⟩ : ∃ init n, loc = init ++ [n] := ⟨_, _, (List.dropLast_concat_getLast hloc).symm⟩
  rw [Codebook.newLocation_concat, languageAt_append (List.cons_ne_nil _ _), languageAt_append (List.cons_ne_nil _ _)]
  cases hm : b.newName? n with
  | none => rfl
  | some m => exact h.ofName?_newName hm

/-- The images of a project are moved all at once to where nothing but links can stand, and what they are moved to is a tree again. -/
theorem eq_carry (h : IsImageNaming d root b) (ht : d.IsTree)
    (hlists : d.isDirectory (ImagePass.directory root) = true → d.Lists (ImagePass.directory root)) {o : Options}
    (hdry : o.dryRun = false) (hmoved : Moved o b (imagesBelow d root) d d') :
    d' = (d.unlink ((imageLocations d root).map b.newLocation)).carry (imagePlace b d root) ∧ d'.IsTree ∧ d.LosesLinks d' := by
  rcases exists_isGallery ht hlists with hnone | ⟨top, hgallery⟩
  · rw [imagesBelow_eq_nil hnone] at hmoved
    cases hmoved
    have hplace : imagePlace b d root = fun loc => loc := by
      funext loc
      rw [imagePlace, imageLocations_eq_nil hnone, Codebook.place, if_neg (by simp)]
    rw [hplace, imageLocations_eq_nil hnone, Disk.unlink_eq_self (by simp), Disk.carry_id]
    exact ⟨rfl, ht, .refl d⟩
  · rw [hgallery.imagesBelow_eq] at hmoved
    have hlocations : newLocations b top (d.filesFrom d.depth top) = (imageLocations d root).map b.newLocation := by
      rw [hgallery.imageLocations_eq, List.map_map]
      rfl
    rw [← hlocations, hgallery.imagePlace_eq]
    exact h.namesImages.eq_carry hgallery (.refl _) hdry hmoved

end IsImageNaming

/-! ## A real image directory -/

/-- The names that lead from the location of a project to the files of its image directory, if that is a real one. -/
def imageFiles (d : Disk) (base : Location) : List (List Name) :=
  (d.filesFrom d.depth (base ++ [directoryName])).map (directoryName :: ·)

/-- The images of a project are the files below a directory of that name. -/
theorem mem_imageFiles {d : Disk} {base : Location} {names : List Name} (ht : d.IsTree) : names ∈ imageFiles d base ↔
    ∃ rest, rest ≠ [] ∧ names = directoryName :: rest ∧ ∃ c, d.entry? (base ++ names) = some (.file c) := by
  unfold imageFiles
  rw [List.mem_map]
  constructor
  · rintro ⟨rest, hrest, rfl⟩
    obtain ⟨hne, hc⟩ := ht.mem_filesFrom_depth.1 hrest
    exact ⟨rest, hne, rfl, by rwa [List.append_assoc] at hc⟩
  · rintro ⟨rest, hne, rfl, hc⟩
    refine ⟨rest, ht.mem_filesFrom_depth.2 ⟨hne, ?_⟩, rfl⟩
    rwa [List.append_assoc]

/-- A path leads to the directory of a project on a disk that is a tree: its files can be listed, and so can those of its image
directory, which is no link and no file, if there is one. -/
structure IsProject (d : Disk) (root : Path) (base : Location) : Prop where
  tree : d.IsTree
  located : d.locate .follow root = .ok base
  directory : d.isDirectoryAt base = true
  lists : d.Lists root
  imageDirectory : ∀ e, d.entry? (base ++ [directoryName]) = some e → e = .directory
  imagesListed : d.isDirectory (ImagePass.directory root) = true → d.Lists (ImagePass.directory root)

namespace IsProject

variable {d d' : Disk} {root : Path} {base : Location} {b : Codebook}

/-- The path of a project is not empty. -/
theorem bytes_ne_nil (h : IsProject d root base) : root.bytes ≠ [] :=
  Disk.bytes_ne_nil_of_checkPath (Disk.locate_eq_ok h.located).1

/-- A project whose files get other contents is a project. -/
theorem of_bare (h : IsProject d root base) (hbare : d'.bare = d.bare) : IsProject d' root base where
  tree := h.tree.of_bare hbare
  located := by
    rw [Disk.locate_of_bare hbare]
    exact h.located
  directory := by
    rw [Disk.isDirectoryAt_of_bare hbare]
    exact h.directory
  lists := by
    rw [Disk.Lists, Disk.filesBelow, Disk.files_of_bare hbare]
    exact h.lists
  imageDirectory := by
    intro e he
    have hentry := Disk.entry?_of_bare hbare (base ++ [directoryName])
    rw [he] at hentry
    obtain ⟨x, hx, heq⟩ := Option.map_eq_some_iff.1 hentry.symm
    rw [h.imageDirectory x hx] at heq
    cases e with
    | file c => cases heq
    | directory => rfl
    | link target => cases heq
  imagesListed := by
    intro hdir
    rw [Disk.isDirectory_of_bare hbare] at hdir
    rw [Disk.Lists, Disk.filesBelow, Disk.files_of_bare hbare]
    exact h.imagesListed hdir

/-- Without an entry of its name there is no image directory. -/
theorem isDirectory_eq_false (h : IsProject d root base) (hnone : d.entry? (base ++ [directoryName]) = none) :
    d.isDirectory (ImagePass.directory root) = false := by
  have hproper : ∀ n ∈ [directoryName], Name.Proper n := by
    simpa using ImagePass.directoryName_proper
  have hstep := Disk.isStep_of_proper ImagePass.directoryName_proper (by decide)
  obtain ⟨k, hk⟩ := Disk.follow_append .follow (List.cons_ne_nil directoryName []) (by decide)
    (Disk.follow_components h.located)
  rw [← Bool.not_eq_true, Disk.isDirectory_iff]
  rintro ⟨loc, hloc, -⟩
  have hfollow := (Disk.locate_eq_ok hloc).2
  rw [ImagePass.directory_eq, show root.join directoryName = root.below [directoryName] from rfl,
    Disk.route_below h.bytes_ne_nil (List.cons_ne_nil _ []) hproper, Disk.origin_below h.bytes_ne_nil hproper, hk,
    Disk.follow_eq_descend, Disk.descend_none h.directory hstep hnone] at hfollow
  cases hfollow

/-- With an entry of its name the image directory stands there. -/
theorem isGallery (h : IsProject d root base) {e : Entry} (hentry : d.entry? (base ++ [directoryName]) = some e) :
    IsGallery d root (base ++ [directoryName]) := by
  rw [h.imageDirectory e hentry] at hentry
  have hshort := h.lists.length_join_lt h.tree h.located h.directory hentry
  have hlocate : d.locate .follow (ImagePass.directory root) = .ok (base ++ [directoryName]) :=
    h.tree.locate_join h.located ImagePass.directoryName_fits hentry hshort
  have hat := Disk.isDirectoryAt_iff.2 hentry
  exact ⟨h.tree, hlocate, hat, h.imagesListed (Disk.isDirectory_iff.2 ⟨_, hlocate, hat⟩)⟩

/-- The images are the files below the image directory, whether there is such a directory or not. -/
theorem imageLocations_eq (h : IsProject d root base) : imageLocations d root = (imageFiles d base).map (base ++ ·) := by
  cases hentry : d.entry? (base ++ [directoryName]) with
  | none =>
    have hnil : imageFiles d base = [] := by
      refine List.eq_nil_iff_forall_not_mem.2 ?_
      intro names hnames
      obtain ⟨rest, hne, rfl, c, hc⟩ := (mem_imageFiles h.tree).1 hnames
      rw [List.append_cons] at hc
      have hancestor := Disk.isDirectoryAt_iff.1 (h.tree.ancestor hne hc)
      rw [hentry] at hancestor
      cases hancestor
    rw [imageLocations_eq_nil (h.isDirectory_eq_false hentry), hnil]
    rfl
  | some e =>
    rw [(h.isGallery hentry).imageLocations_eq, imageFiles, List.map_map]
    refine List.map_congr_left fun names _ => ?_
    rw [List.append_assoc]
    rfl

/-- Each image gets its place by its new name. -/
theorem imagePlace_eq (h : IsProject d root base) : imagePlace b d root = moveAll b base (imageFiles d base) := by
  rw [imagePlace, h.imageLocations_eq]
  rfl

/-- The names of images are those of the image files, as far as they can be read. -/
theorem mem_leavesBelow (h : IsProject d root base) {t : Text} :
    t ∈ leavesBelow d root ↔ ∃ names ∈ imageFiles d base, names.getLast?.bind Utf8.decode? = some t := by
  have hlast : ∀ names ∈ imageFiles d base, (base ++ names).getLast? = names.getLast? := by
    intro names hnames
    obtain ⟨rest, -, rfl, -⟩ := (mem_imageFiles h.tree).1 hnames
    exact List.getLast?_append_of_ne_nil _ (List.cons_ne_nil _ _)
  rw [Pseudonym.mem_leavesBelow h.tree h.imagesListed, h.imageLocations_eq]
  constructor
  · rintro ⟨loc, hloc, ht⟩
    obtain ⟨names, hnames, rfl⟩ := List.mem_map.1 hloc
    exact ⟨names, hnames, by rwa [← hlast names hnames]⟩
  · rintro ⟨names, hnames, ht⟩
    exact ⟨_, List.mem_map_of_mem hnames, by rwa [hlast names hnames]⟩

/-- Of the files of the disk, those below the image directory are moved. -/
theorem moveAll_file (h : IsProject d root base) (b : Codebook) {loc : Location} {c : Bytes}
    (hfile : (loc, .file c) ∈ d.entries) : moveAll b base (imageFiles d base) loc =
      if (base ++ [directoryName]).isPrefixOf loc then b.newLocation loc else loc := by
  have hc := (h.tree.distinct.entry?_eq_some_iff (h.tree.proper _ hfile).1).2 hfile
  split
  · next hprefix =>
    obtain ⟨rest, rfl⟩ := List.isPrefixOf_iff_prefix.1 hprefix
    have hne : rest ≠ [] := by
      rintro rfl
      rw [List.append_nil] at hc
      cases h.imageDirectory _ hc
    rw [List.append_assoc] at hc ⊢
    exact moveAll_append ((mem_imageFiles h.tree).2 ⟨rest, hne, rfl, c, hc⟩)
  · next hprefix =>
    refine if_neg fun hm => hprefix ?_
    obtain ⟨names, hnames, rfl⟩ := List.mem_map.1 hm
    obtain ⟨rest, -, rfl, -⟩ := (mem_imageFiles h.tree).1 hnames
    refine List.isPrefixOf_iff_prefix.2 ⟨rest, ?_⟩
    rw [List.append_assoc]
    rfl

/-- What is no file is not moved. -/
theorem moveAll_other (h : IsProject d root base) (b : Codebook) {loc : Location} {e : Entry}
    (he : (loc, e) ∈ d.entries) (hfile : ∀ c, e ≠ .file c) : moveAll b base (imageFiles d base) loc = loc := by
  rw [← h.imagePlace_eq (b := b)]
  exact imagePlace_other h.tree he hfile

/-- When no link below the image directory has one of the tokens for a name, the images are moved and nothing is lost. -/
theorem eq_carry (h : IsProject d root base) (hb : IsImageNaming d root b) {o : Options} (hdry : o.dryRun = false)
    (hlink : ∀ names, ∀ p ∈ b.pseudonyms, ∀ target,
      d.entry? (base ++ directoryName :: (names ++ [Utf8.encode p])) ≠ some (.link target))
    (hmoved : Moved o b (imagesBelow d root) d d') :
    d' = d.carry (moveAll b base (imageFiles d base)) ∧ d'.IsTree ∧ d.SameFrame d' := by
  obtain ⟨heq, htree, -⟩ := hb.eq_carry h.tree h.imagesListed hdry hmoved
  have hkept : d.unlink ((imageLocations d root).map b.newLocation) = d := by
    refine Disk.unlink_eq_self ?_
    intro l hl target hmem
    rw [h.imageLocations_eq, List.map_map] at hl
    obtain ⟨names, hnames, rfl⟩ := List.mem_map.1 hl
    obtain ⟨rest, hne, rfl, c, hc⟩ := (mem_imageFiles h.tree).1 hnames
    obtain ⟨init, n, rfl⟩ : ∃ init n, rest = init ++ [n] := ⟨_, _, (List.dropLast_concat_getLast hne).symm⟩
    have hsplit : base ++ directoryName :: (init ++ [n]) = (base ++ directoryName :: init) ++ [n] := by
      rw [List.append_assoc, List.cons_append]
    have hentry := (h.tree.distinct.entry?_eq_some_iff (h.tree.proper _ hmem).1).2 hmem
    simp only [Function.comp_apply] at hentry
    rw [hsplit, Codebook.newLocation_concat] at hentry
    rw [hsplit] at hc
    cases hm : b.newName? n with
    | none =>
      rw [hm, Option.getD_none, hc] at hentry
      cases hentry
    | some m =>
      obtain ⟨t, p, -, hp, rfl⟩ := Codebook.newName?_eq_some hm
      rw [hm, Option.getD_some, List.append_assoc, List.cons_append] at hentry
      exact hlink init p (List.mem_map_of_mem hp) target hentry
  rw [hkept, h.imagePlace_eq] at heq
  refine ⟨heq, htree, ?_⟩
  have hdistinct := htree.distinct
  rw [heq] at hdistinct ⊢
  exact h.tree.distinct.sameFrame_carry hdistinct fun x hx hfile => h.moveAll_other b hx hfile

end IsProject

end Pseudonym
