import Pseudonym.Proofs.Codebook
import Pseudonym.Proofs.Minting
import Pseudonym.Proofs.Passes

/-!
# The stages of a run that succeeds

What each stage makes of the disk, the mint and the codebook, the trace aside. Files are rewritten one after the other, each as it
is read on the disk that the ones before it have left (`Rewritten`); images are moved one after the other, each to the name that
the codebook has for it in the end (`Moved`). `Pass.yields_classPass` and `Pass.yields_imagePass` put the stages of the two passes
together, and `Pass.yields_run` the passes.
-/

namespace Pseudonym

variable {σ : Type}

/-- What the rewriting of one file makes of a disk. -/
def Rewriter.Writes (o : Options) (path : Path) (r : Rewriter) (d d' : Disk) : Prop :=
  ∃ bytes, d.read path = .ok bytes ∧
    ((r.rename (Charset.decode bytes).1 = none ∧ d' = d) ∨
      ∃ new, r.rename (Charset.decode bytes).1 = some new ∧
        if o.dryRun then d' = d else d.write path ((Charset.decode bytes).2.encode new) = .ok d')

/-- Files are rewritten one after the other. -/
inductive Rewritten (o : Options) : List (Path × Rewriter) → Disk → Disk → Prop where
  | nil (d : Disk) : Rewritten o [] d d
  | cons {path : Path} {r : Rewriter} {files : List (Path × Rewriter)} {d d₁ d₂ : Disk} :
      r.Writes o path d d₁ → Rewritten o files d₁ d₂ → Rewritten o ((path, r) :: files) d d₂

/-- Images are moved one after the other, each to the name that a codebook has for it; one whose name is no text stays. -/
inductive Moved (o : Options) (b : Codebook) : List Path → Disk → Disk → Prop where
  | nil (d : Disk) : Moved o b [] d d
  | skip {path : Path} {paths : List Path} {d d' : Disk} :
      ImagePass.leaf? path = none → Moved o b paths d d' → Moved o b (path :: paths) d d'
  | move {path : Path} {name p : Text} {paths : List Path} {d d₁ d₂ : Disk} :
      ImagePass.leaf? path = some name → b.get? name = some p →
      (if o.dryRun then d₁ = d else d.move path (ImagePass.renamed path p) = .ok d₁) →
      Moved o b paths d₁ d₂ → Moved o b (path :: paths) d d₂

/-- The class names that a file styles, as it can be read on a disk. -/
def styledBy (d : Disk) (path : Path) : List Text :=
  match d.read path with
  | .ok bytes => Stylesheet.classNames (Charset.decode bytes).1
  | .error _ => []

/-- The files that are listed below a directory, none if they cannot be listed. -/
def Disk.filesBelow (d : Disk) (root : Path) : List Path :=
  match d.files root with
  | .ok paths => paths
  | .error _ => []

/-- The files below a directory can be listed. -/
def Disk.Lists (d : Disk) (root : Path) : Prop := d.files root = .ok (d.filesBelow root)

/-- The class names that the stylesheets below a directory style, file by file. -/
def styledBelow (d : Disk) (root : Path) : List Text :=
  ((d.filesBelow root).filter fun path => Language.ofPath? path == some .stylesheet).flatMap (styledBy d)

/-- The files below the image directory of a project, if there is one. -/
def imagesBelow (d : Disk) (root : Path) : List Path :=
  if d.isDirectory (ImagePass.directory root) then d.filesBelow (ImagePass.directory root) else []

/-- The names of the images of a project that are texts, file by file. -/
def leavesBelow (d : Disk) (root : Path) : List Text := (imagesBelow d root).filterMap ImagePass.leaf?

/-- The text files below a directory, each with its language. -/
def textsBelow (d : Disk) (root : Path) : List (Path × Language) := (d.filesBelow root).filterMap (Pass.tagged? Language.all)

/-- The text files that are listed below a directory can be read. -/
def Disk.ReadsTexts (d : Disk) (root : Path) : Prop := ∀ f ∈ textsBelow d root, ∃ bytes, d.read f.1 = .ok bytes

theorem Disk.filesBelow_of_files {d : Disk} {root : Path} {paths : List Path} (h : d.files root = .ok paths) :
    d.filesBelow root = paths := by
  rw [filesBelow, h]

theorem Disk.lists_of_files {d : Disk} {root : Path} {paths : List Path} (h : d.files root = .ok paths) : d.Lists root := by
  rw [Lists, filesBelow_of_files h, h]

namespace Pass

variable {w w' : Workspace σ} {o : Options}

/-! ## Reading and rewriting files -/

theorem filterMap_filter_tagged? (languages : List Language) (paths : List Path) :
    (paths.filter fun path => (tagged? languages path).isSome).filterMap (tagged? languages) =
      paths.filterMap (tagged? languages) := by
  rw [List.filterMap_filter]
  congr 1
  funext path
  cases tagged? languages path <;> rfl

/-- The text files are those of the listing that have one of the languages. -/
theorem yields_listTexts {root : Path} {languages : List Language} {files : List (Path × Language)}
    (h : (listTexts root languages).Yields w files w') : ∃ all, w.disk.files root = .ok all ∧
      files = all.filterMap (tagged? languages) ∧ ∃ trace, w' = { w with trace } := by
  obtain ⟨paths, v, hlist, hpure⟩ := yields_bind.1 h
  obtain ⟨rfl, rfl⟩ := yields_pure.1 hpure
  obtain ⟨all, hall, rfl, rfl⟩ := yields_list.1 hlist
  exact ⟨all, hall, filterMap_filter_tagged? languages all, _, rfl⟩

/-- Files that can be listed are listed. -/
theorem exists_yields_listTexts {root : Path} (h : w.disk.Lists root) :
    ∃ trace, (listTexts root Language.all).Yields w (textsBelow w.disk root) { w with trace } :=
  ⟨_, yields_bind.2 ⟨_, _, yields_list.2 ⟨_, h, rfl, rfl⟩,
    yields_pure.2 ⟨(filterMap_filter_tagged? Language.all (w.disk.filesBelow root)).symm, rfl⟩⟩⟩

/-- The class names are those that the files style, each of which could be read. -/
theorem yields_discover {paths : List Path} {names : List Text} (h : (ClassPass.discover paths).Yields w names w') :
    names = paths.flatMap (styledBy w.disk) ∧ (∀ path ∈ paths, ∃ bytes, w.disk.read path = .ok bytes) ∧
      ∃ trace, w' = { w with trace } := by
  induction paths generalizing w names with
  | nil =>
    obtain ⟨rfl, rfl⟩ := yields_pure.1 h
    exact ⟨rfl, by simp, _, rfl⟩
  | cons path paths ih =>
    simp only [ClassPass.discover, yields_bind, yields_note, yields_load, yields_pure] at h
    obtain ⟨-, _, rfl, r, _, ⟨bytes, hbytes, rfl, rfl⟩, rest, v, hrest, rfl, rfl⟩ := h
    obtain ⟨rfl, hread, trace, rfl⟩ := ih hrest
    refine ⟨?_, ?_, trace, rfl⟩
    · rw [List.flatMap_cons, styledBy, hbytes]
    · intro q hq
      rcases List.mem_cons.1 hq with rfl | hq
      · exact ⟨bytes, hbytes⟩
      · exact hread q hq

/-- A file that is rewritten is written to, and no name is entered. -/
theorem yields_rewriteFile {path : Path} {r : Rewriter} {changed : Bool} (h : (rewriteFile o path r).Yields w changed w') :
    r.Writes o path w.disk w'.disk ∧ w'.mint = w.mint ∧ w'.codebook = w.codebook := by
  simp only [rewriteFile, yields_bind, yields_note, yields_load, yields_noteAll] at h
  obtain ⟨-, _, rfl, q, _, ⟨bytes, hbytes, rfl, rfl⟩, -, _, rfl, h⟩ := h
  split at h
  · next hnone =>
    obtain ⟨-, rfl⟩ := yields_pure.1 h
    exact ⟨⟨bytes, hbytes, .inl ⟨hnone, rfl⟩⟩, rfl, rfl⟩
  · next new hnew =>
    simp only [yields_bind, yields_note] at h
    obtain ⟨-, _, rfl, -, _, rfl, h⟩ := h
    cases hdry : o.dryRun with
    | true =>
      rw [hdry, if_neg (by simp)] at h
      obtain ⟨-, rfl⟩ := yields_pure.1 h
      exact ⟨⟨bytes, hbytes, .inr ⟨new, hnew, by rw [hdry, if_pos rfl]⟩⟩, rfl, rfl⟩
    | false =>
      rw [hdry, if_pos (show (!false) = true from rfl), yields_bind] at h
      obtain ⟨_, v, hsave, hpure⟩ := h
      obtain ⟨-, rfl⟩ := yields_pure.1 hpure
      obtain ⟨disk, hdisk, rfl⟩ := yields_save.1 hsave
      exact ⟨⟨bytes, hbytes, .inr ⟨new, hnew, by rw [hdry, if_neg (by simp)]; exact hdisk⟩⟩, rfl, rfl⟩

/-- Files that are rewritten are written to one after the other, and no name is entered. -/
theorem yields_rewriteFiles {files : List (Path × Rewriter)} {n : Nat} (h : (rewriteFiles o files).Yields w n w') :
    Rewritten o files w.disk w'.disk ∧ w'.mint = w.mint ∧ w'.codebook = w.codebook := by
  induction files generalizing w n with
  | nil =>
    obtain ⟨-, rfl⟩ := yields_pure.1 h
    exact ⟨.nil _, rfl, rfl⟩
  | cons f files ih =>
    obtain ⟨path, r⟩ := f
    simp only [rewriteFiles, yields_bind, yields_pure] at h
    obtain ⟨changed, v, hfile, m, _, hfiles, -, rfl⟩ := h
    obtain ⟨hwrites, hmint, hbook⟩ := yields_rewriteFile hfile
    obtain ⟨hrest, hmint', hbook'⟩ := ih hfiles
    exact ⟨.cons hwrites hrest, hmint'.trans hmint, hbook'.trans hbook⟩

/-! ## Rewriting the text files -/

/-- The last part of a pass: every text file below a directory is rewritten, unless the codebook is empty. -/
def rewriteTexts (root : Path) (o : Options) (b : Codebook) (rewriter : Language → Rewriter) (done : Tally → Notice)
    (renamed : Nat) : Pass σ Tally := do
  if b.isEmpty then return { pathsRenamed := renamed }
  let files ← listTexts root Language.all
  let changes ← rewriteFiles o (files.map fun (path, l) => (path, rewriter l))
  let tally : Tally := { filesProcessed := files.length, pathsRenamed := renamed, contentChanges := changes }
  note (done tally)
  return tally

/-- The text files below a directory are rewritten, if there are names to look for. -/
theorem yields_rewriteTexts {root : Path} {b : Codebook} {rewriter : Language → Rewriter} {done : Tally → Notice}
    {renamed : Nat} {tally : Tally} (h : (rewriteTexts root o b rewriter done renamed).Yields w tally w') :
    tally.pathsRenamed = renamed ∧ w'.mint = w.mint ∧ w'.codebook = w.codebook ∧
    ((b.isEmpty = true ∧ tally.filesProcessed = 0 ∧ w'.disk = w.disk) ∨
      (b.isEmpty = false ∧ tally.filesProcessed = (textsBelow w.disk root).length ∧ w.disk.Lists root ∧
        Rewritten o ((textsBelow w.disk root).map fun f => (f.1, rewriter f.2)) w.disk w'.disk)) := by
  unfold rewriteTexts at h
  cases hempty : b.isEmpty with
  | true =>
    rw [hempty, if_pos rfl] at h
    obtain ⟨rfl, rfl⟩ := yields_pure.1 h
    exact ⟨rfl, rfl, rfl, .inl ⟨rfl, rfl, rfl⟩⟩
  | false =>
    rw [hempty, if_neg Bool.false_ne_true] at h
    simp only [yields_bind, yields_note, yields_pure] at h
    obtain ⟨files, _, hfiles, n, _, hrewrite, -, _, rfl, rfl, rfl⟩ := h
    obtain ⟨all, hall, rfl, _, rfl⟩ := yields_listTexts hfiles
    obtain ⟨hrewritten, hmint, hbook⟩ := yields_rewriteFiles hrewrite
    rw [textsBelow, Disk.filesBelow_of_files hall]
    exact ⟨rfl, hmint, hbook, .inr ⟨rfl, rfl, Disk.lists_of_files hall, hrewritten⟩⟩

/-! ## Handing out names -/

variable [WordSource σ]

/-- Names that are assigned tokens are entered one by one, and nothing is written. -/
theorem yields_assign {length : Nat} {names : List Text} {u : Unit} (h : (ClassPass.assign length names).Yields w u w') :
    Entered (fun _ p => IsClassToken length p) names w.codebook w.mint.taken w'.codebook w'.mint.taken ∧ w'.disk = w.disk := by
  induction names generalizing w with
  | nil =>
    obtain ⟨-, rfl⟩ := yields_pure.1 h
    exact ⟨.nil _ _, rfl⟩
  | cons name names ih =>
    simp only [ClassPass.assign, yields_bind, yields_get] at h
    obtain ⟨_, _, ⟨rfl, rfl⟩, h⟩ := h
    cases hname : w.codebook.contains name with
    | true =>
      rw [hname, if_neg (by simp)] at h
      obtain ⟨hrest, hdisk⟩ := ih h
      exact ⟨.old (Codebook.contains_iff_mem_names.1 hname) hrest, hdisk⟩
    | false =>
      have hnot : name ∉ w.codebook.names := by
        rw [← Codebook.contains_iff_mem_names, hname]
        exact Bool.false_ne_true
      rw [hname, if_pos (show (!false) = true from rfl)] at h
      simp only [yields_bind, yields_note, yields_pseudonym, yields_mint] at h
      obtain ⟨p, v, hp, -, _, rfl, h⟩ := h
      rcases hp with ⟨hp, -⟩ | ⟨-, v', ⟨htoken, rfl⟩, rfl⟩
      · exact absurd (List.mem_map_of_mem (Codebook.mem_entries_of_get? hp)) hnot
      · obtain ⟨hshape, hfresh, htaken⟩ := Mint.className_ok htoken
        obtain ⟨hrest, hdisk⟩ := ih h
        refine ⟨.new hnot hshape hfresh ?_, hdisk⟩
        rw [← htaken]
        exact hrest

/-- The extension of an image whose name is a text is that of the text. -/
theorem extension_of_leaf? {path : Path} {name : Text} (h : ImagePass.leaf? path = some name) :
    path.extension?.bind Utf8.decode? = textExtension? name := by
  obtain ⟨bytes, hbytes, hname⟩ := Option.bind_eq_some_iff.1 h
  rw [Path.extension?, hbytes, textExtension?, Utf8.encode_of_decode? hname]
  rfl

/-- Images that are renamed are entered one by one under their names, and moved to those. -/
theorem yields_renameAll {paths : List Path} {n : Nat} (h : (ImagePass.renameAll o paths).Yields w n w') :
    Entered (fun name p => IsFileToken (textExtension? name) p) (paths.filterMap ImagePass.leaf?) w.codebook w.mint.taken
        w'.codebook w'.mint.taken ∧
      Moved o w'.codebook paths w.disk w'.disk := by
  induction paths generalizing w n with
  | nil =>
    obtain ⟨-, rfl⟩ := yields_pure.1 h
    exact ⟨.nil _ _, .nil _⟩
  | cons path paths ih =>
    unfold ImagePass.renameAll at h
    cases hleaf : ImagePass.leaf? path with
    | none =>
      simp only [hleaf, yields_bind, yields_note] at h
      obtain ⟨-, _, rfl, h⟩ := h
      obtain ⟨hentered, hmoved⟩ := ih h
      rw [List.filterMap_cons_none hleaf]
      exact ⟨hentered, .skip hleaf hmoved⟩
    | some name =>
      simp only [hleaf, extension_of_leaf? hleaf, yields_bind, yields_note, yields_pseudonym, yields_mint] at h
      obtain ⟨p, v, hp, -, _, rfl, -, _, rfl, h⟩ := h
      -- the move, if there is one, changes the disk only
      obtain ⟨d, hmove, m, hrest⟩ : ∃ d,
          (if o.dryRun then d = v.disk else v.disk.move path (ImagePass.renamed path p) = .ok d) ∧ ∃ m,
          (ImagePass.renameAll o paths).Yields { v with disk := d, trace := v.trace ++ [.change (.rename path
            (ImagePass.renamed path p))] ++ [.pathChanging o.dryRun path (ImagePass.renamed path p)] } m w' := by
        cases hdry : o.dryRun with
        | true =>
          rw [hdry, if_neg (by simp)] at h
          obtain ⟨m, _, hrest, hpure⟩ := yields_bind.1 h
          obtain ⟨-, rfl⟩ := yields_pure.1 hpure
          exact ⟨v.disk, by rw [if_pos rfl], m, by simpa [hdry] using hrest⟩
        | false =>
          rw [hdry, if_pos (show (!false) = true from rfl), yields_bind] at h
          obtain ⟨_, _, hmove, h⟩ := h
          obtain ⟨d, hd, rfl⟩ := yields_move.1 hmove
          obtain ⟨m, _, hrest, hpure⟩ := yields_bind.1 h
          obtain ⟨-, rfl⟩ := yields_pure.1 hpure
          exact ⟨d, by rw [if_neg (by simp)]; exact hd, m, by simpa [hdry] using hrest⟩
      obtain ⟨hentered, hmoved⟩ := ih hrest
      rw [List.filterMap_cons_some hleaf]
      rcases hp with ⟨hp, rfl⟩ | ⟨hp, v', ⟨htoken, rfl⟩, rfl⟩
      · exact ⟨.old (List.mem_map_of_mem (Codebook.mem_entries_of_get? hp)) hentered,
          .move hleaf (hentered.get?_of_get? hp) hmove hmoved⟩
      · obtain ⟨hshape, hfresh, htaken⟩ := Mint.fileName_ok htoken
        have hget : (w.codebook.append name p).get? name = some p := by
          rw [Codebook.get?_append, hp, if_pos rfl]
          rfl
        refine ⟨.new (Codebook.get?_eq_none_iff.1 hp) hshape hfresh ?_, .move hleaf (hentered.get?_of_get? hget) hmove hmoved⟩
        rw [← htaken]
        exact hentered

/-! ## The passes -/

theorem map_fst_sheets (paths : List Path) : (paths.filterMap (tagged? [.stylesheet])).map (·.1) =
    paths.filter fun path => Language.ofPath? path == some .stylesheet := by
  induction paths with
  | nil => rfl
  | cons path paths ih => rcases hl : Language.ofPath? path with _ | _ | _ | _ <;> simp [tagged?, hl, ih]

omit [WordSource σ] in
/-- The names that are reserved are those of the images. -/
theorem yields_reserveNames {root : Path} {images : List Path} (h : (ImagePass.reserveNames root).Yields w images w') :
    images = imagesBelow w.disk root ∧
      (w.disk.isDirectory (ImagePass.directory root) = true → w.disk.Lists (ImagePass.directory root)) ∧
      ∃ trace, w' = { w with mint := w.mint.reserveAll (leavesBelow w.disk root), trace } := by
  unfold ImagePass.reserveNames at h
  simp only [yields_bind, yields_get] at h
  obtain ⟨_, _, ⟨rfl, rfl⟩, h⟩ := h
  unfold leavesBelow imagesBelow
  cases hdir : w.disk.isDirectory (ImagePass.directory root) with
  | false =>
    rw [hdir, if_pos (show (!false) = true from rfl)] at h
    obtain ⟨rfl, rfl⟩ := yields_pure.1 h
    exact ⟨rfl, by simp, w'.trace, rfl⟩
  | true =>
    rw [hdir, if_neg (by simp)] at h
    simp only [yields_bind, yields_reserve, yields_pure] at h
    obtain ⟨paths, v, hlist, -, _, rfl, rfl, rfl⟩ := h
    obtain ⟨all, hall, rfl, rfl⟩ := yields_list.1 hlist
    rw [if_pos rfl, Disk.filesBelow_of_files hall, List.filter_eq_self.2 (fun _ _ => rfl)]
    exact ⟨rfl, fun _ => Disk.lists_of_files hall, _, rfl⟩

/-- The first part of the class pass: the class names are discovered, reserved and given tokens. -/
def nameClasses (root : Path) (length : Nat) : Pass σ Unit := do
  if length = 0 then throw (.mint .emptyClassName)
  note (.discovering root)
  let sheets ← listTexts root [.stylesheet]
  let names ← ClassPass.discover (sheets.map (·.1))
  reserve names
  ClassPass.assign length names

/-- The second part of the class pass: the text files are rewritten with what the codebook holds by then. -/
def renameClasses (root : Path) (o : Options) : Pass σ Tally := do
  let b := (← get).codebook
  note (.classesNamed b.size)
  rewriteTexts root o b (ClassPass.rewriter b) .classPassDone 0

/-- The class pass names the classes and rewrites the text files. -/
theorem classPass_eq (root : Path) (o : Options) :
    (ClassPass.run root o : Pass σ Tally) = (do nameClasses root o.classLength; renameClasses root o) := by
  unfold ClassPass.run nameClasses
  split
  · rfl
  · simp only [bind_assoc]
    rfl

/-- The image pass renames the images and rewrites the references to them. -/
theorem imagePass_eq (root : Path) (o : Options) : (ImagePass.run root o : Pass σ Tally) = (do
    let dir := ImagePass.directory root
    if !(← get).disk.isDirectory dir then
      note (.noImages dir)
      return {}
    note (.renamingImages dir)
    let images ← ImagePass.reserveNames root
    let renamed ← ImagePass.renameAll o images
    let b := (← get).codebook
    rewriteTexts root o b (fun _ => ImagePass.rewriter b) .imagePassDone renamed) :=
  rfl

/-- Class names that are given tokens are those that the stylesheets style, all of them reserved. -/
theorem yields_nameClasses {root : Path} {length : Nat} {u : Unit} (h : (nameClasses root length).Yields w u w') :
    length ≠ 0 ∧ w.disk.Lists root ∧
    (∀ path ∈ w.disk.filesBelow root, Language.ofPath? path = some .stylesheet → ∃ bytes, w.disk.read path = .ok bytes) ∧
    ∃ trace, (ClassPass.assign length (styledBelow w.disk root)).Yields
      { w with mint := w.mint.reserveAll (styledBelow w.disk root), trace } u w' := by
  unfold nameClasses at h
  split at h
  · exact absurd (yields_bind.1 h) (by simp)
  · next hlength =>
    simp only [yields_bind, yields_note, yields_reserve] at h
    obtain ⟨-, _, rfl, sheets, _, hsheets, names, _, hnames, -, _, rfl, h⟩ := h
    obtain ⟨all, hall, rfl, _, rfl⟩ := yields_listTexts hsheets
    rw [map_fst_sheets] at hnames
    obtain ⟨rfl, hread, trace, rfl⟩ := yields_discover hnames
    rw [styledBelow, Disk.filesBelow_of_files hall]
    refine ⟨hlength, Disk.lists_of_files hall, ?_, trace, h⟩
    intro path hpath hsheet
    exact hread path (List.mem_filter.2 ⟨hpath, by rw [hsheet]; rfl⟩)

/-- The class pass gives a token to each name that the stylesheets style, and then rewrites every text file with the whole
codebook, unless that is empty. -/
theorem yields_classPass {root : Path} {tally : Tally} (h : (ClassPass.run root o).Yields w tally w') :
    o.classLength ≠ 0 ∧ w.disk.Lists root ∧
    (∀ path ∈ w.disk.filesBelow root, Language.ofPath? path = some .stylesheet → ∃ bytes, w.disk.read path = .ok bytes) ∧
    Entered (fun _ p => IsClassToken o.classLength p) (styledBelow w.disk root) w.codebook
      (w.mint.reserveAll (styledBelow w.disk root)).taken w'.codebook w'.mint.taken ∧
    ((w'.codebook.isEmpty = true ∧ w'.disk = w.disk) ∨
      Rewritten o ((textsBelow w.disk root).map fun f => (f.1, ClassPass.rewriter w'.codebook f.2)) w.disk w'.disk) := by
  rw [classPass_eq, renameClasses] at h
  simp only [yields_bind, yields_get, yields_note] at h
  obtain ⟨u, v, hnamed, _, _, ⟨rfl, rfl⟩, -, _, rfl, h⟩ := h
  obtain ⟨hlength, hlists, hreads, _, hassign⟩ := yields_nameClasses hnamed
  obtain ⟨hentered, hdisk⟩ := yields_assign hassign
  obtain ⟨-, hmint, hbook, htexts⟩ := yields_rewriteTexts h
  simp only at hmint hbook htexts hdisk
  rw [hdisk] at htexts
  rw [← hmint, ← hbook] at hentered
  rw [← hbook] at htexts
  refine ⟨hlength, hlists, hreads, hentered, ?_⟩
  rcases htexts with ⟨hempty, -, hdisk'⟩ | ⟨-, -, -, hrewritten⟩
  · exact .inl ⟨hempty, hdisk'⟩
  · exact .inr hrewritten

/-- The image pass, begun with an empty codebook, gives a token to each name of an image, moves the images, and then rewrites every
text file with the whole codebook, unless that is empty. -/
theorem yields_imagePass {root : Path} {tally : Tally} (hempty : w.codebook = .empty)
    (h : (ImagePass.run root o).Yields w tally w') : ∃ d,
    (w.disk.isDirectory (ImagePass.directory root) = true → w.disk.Lists (ImagePass.directory root)) ∧
    Entered (fun name p => IsFileToken (textExtension? name) p) (leavesBelow w.disk root) w.codebook
      (w.mint.reserveAll (leavesBelow w.disk root)).taken w'.codebook w'.mint.taken ∧
    Moved o w'.codebook (imagesBelow w.disk root) w.disk d ∧
    ((w'.codebook.isEmpty = true ∧ w'.disk = d) ∨
      d.Lists root ∧ Rewritten o ((textsBelow d root).map fun f => (f.1, ImagePass.rewriter w'.codebook)) d w'.disk) := by
  rw [imagePass_eq] at h
  simp only [yields_bind, yields_get] at h
  obtain ⟨_, _, ⟨rfl, rfl⟩, h⟩ := h
  cases hdir : w.disk.isDirectory (ImagePass.directory root) with
  | false =>
    rw [hdir, if_pos (show (!false) = true from rfl)] at h
    simp only [yields_bind, yields_note, yields_pure] at h
    obtain ⟨-, _, rfl, -, rfl⟩ := h
    have himages : imagesBelow w.disk root = [] := by
      rw [imagesBelow, hdir, if_neg (by simp)]
    refine ⟨w.disk, by simp, ?_, ?_, .inl ⟨?_, rfl⟩⟩
    · rw [leavesBelow, himages]
      exact .nil _ _
    · rw [himages]
      exact .nil _
    · show w.codebook.isEmpty = true
      rw [hempty]
      rfl
  | true =>
    rw [hdir, if_neg (by simp)] at h
    simp only [yields_bind, yields_note, yields_get] at h
    obtain ⟨-, _, rfl, images, _, hreserve, m, v, hrename, _, _, ⟨rfl, rfl⟩, h⟩ := h
    obtain ⟨rfl, hlists, _, rfl⟩ := yields_reserveNames hreserve
    obtain ⟨hentered, hmoved⟩ := yields_renameAll hrename
    obtain ⟨-, hmint, hbook, htexts⟩ := yields_rewriteTexts h
    rw [← hmint, ← hbook] at hentered
    rw [← hbook] at hmoved htexts
    refine ⟨v.disk, fun _ => hlists hdir, hentered, hmoved, ?_⟩
    rcases htexts with ⟨hempty, -, hdisk⟩ | ⟨-, -, hlists', hrewritten⟩
    · exact .inl ⟨hempty, hdisk⟩
    · exact .inr ⟨hlists', hrewritten⟩

omit [WordSource σ] in
/-- A pass with a codebook of its own yields that codebook too. -/
theorem yields_withFreshCodebook {α : Type} {x : Pass σ α} {r : α × Codebook} : (Project.withFreshCodebook x).Yields w r w' ↔
    x.Yields { w with codebook := .empty } r.1 w' ∧ r.2 = w'.codebook := by
  obtain ⟨a, b⟩ := r
  unfold Project.withFreshCodebook
  simp only [yields_bind, yields_modify, yields_get, yields_pure]
  constructor
  · rintro ⟨_, _, rfl, a, v, hx, _, _, ⟨rfl, rfl⟩, he, rfl⟩
    cases he
    exact ⟨hx, rfl⟩
  · rintro ⟨hx, rfl⟩
    exact ⟨(), _, rfl, a, w', hx, w', w', ⟨rfl, rfl⟩, rfl, rfl⟩

/-- A run that ends well: the names of the images are taken, the class pass goes from the disk at the beginning to `d₁`, and the
image pass moves the images to `d₂` and ends with the disk that is left. -/
theorem yields_run {root : Path} {report : Report} (h : (Project.run root o).Yields w report w') :
    ∃ (m₁ m₂ m₃ : Mint σ) (d₁ d₂ : Disk),
      w.disk.isDirectory root = true ∧ o.classLength ≠ 0 ∧ w.disk.Lists root ∧
      (∀ path ∈ w.disk.filesBelow root, Language.ofPath? path = some .stylesheet → ∃ bytes, w.disk.read path = .ok bytes) ∧
      Entered (fun _ p => IsClassToken o.classLength p) (styledBelow w.disk root) .empty
        ((w.mint.reserveAll (leavesBelow w.disk root)).reserveAll (styledBelow w.disk root)).taken report.classNames m₁.taken ∧
      ((report.classNames.isEmpty = true ∧ d₁ = w.disk) ∨
        Rewritten o ((textsBelow w.disk root).map fun f => (f.1, ClassPass.rewriter report.classNames f.2)) w.disk d₁) ∧
      m₂ = m₁.reserveAll (leavesBelow d₁ root) ∧
      (d₁.isDirectory (ImagePass.directory root) = true → d₁.Lists (ImagePass.directory root)) ∧
      Entered (fun name p => IsFileToken (textExtension? name) p) (leavesBelow d₁ root) .empty m₂.taken report.imageNames m₃.taken ∧
      Moved o report.imageNames (imagesBelow d₁ root) d₁ d₂ ∧
      ((report.imageNames.isEmpty = true ∧ w'.disk = d₂) ∨
        d₂.Lists root ∧ Rewritten o ((textsBelow d₂ root).map fun f => (f.1, ImagePass.rewriter report.imageNames)) d₂ w'.disk) := by
  unfold Project.run at h
  simp only [yields_bind, yields_get] at h
  obtain ⟨_, _, ⟨rfl, rfl⟩, h⟩ := h
  cases hdir : w.disk.isDirectory root with
  | false =>
    rw [hdir, if_pos (show (!false) = true from rfl)] at h
    exact absurd (yields_bind.1 h) (by simp)
  | true =>
    rw [hdir, if_neg (by simp)] at h
    simp only [yields_bind, yields_note, yields_pure] at h
    obtain ⟨-, _, rfl, _, _, hreserve, c, v₁, hclasses, i, v₂, himages, -, _, rfl, rfl, rfl⟩ := h
    obtain ⟨-, -, _, rfl⟩ := yields_reserveNames hreserve
    obtain ⟨hclasses, hc⟩ := yields_withFreshCodebook.1 hclasses
    obtain ⟨himages, hi⟩ := yields_withFreshCodebook.1 himages
    obtain ⟨hlength, hlists, hreads, hentered, hwritten⟩ := yields_classPass hclasses
    obtain ⟨d, hlists', hentered', hmoved, hwritten'⟩ := yields_imagePass rfl himages
    rw [hc, hi]
    exact ⟨v₁.mint, _, v₂.mint, v₁.disk, d, rfl, hlength, hlists, hreads, hentered, hwritten, rfl, hlists', hentered', hmoved,
      hwritten'⟩

end Pass

end Pseudonym
