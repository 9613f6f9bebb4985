import Pseudonym.Proofs.Agreement
import Pseudonym.Proofs.Replays

/-!
# A run on record

While the images are given their new names, the ones that come first have been moved as they are in the end, and the others stand
where they stood (`IsMidway`). So an image that is to be moved is a regular file, and its path still leads to it unless one of the
moves before has put an image in the place of a link (`IsMidway.isFile_or_linkTaken`). Whatever comes of a run, replaying what it
announces leads to the disk that it leaves, and its counts are those of the changes; only a path that a lost link was needed for may
be announced and lead to no file (`Project.run_logs`).
-/

namespace Pseudonym

variable {σ : Type}

namespace Disk

/-- A file stands where there was a link. -/
def LinkTaken (d d' : Disk) : Prop := ∃ loc target c, d.entry? loc = some (.link target) ∧ d'.entry? loc = some (.file c)

variable {d d' : Disk} {root : Path} {names : List Name} {loc : Location}

/-- What the names lead to is a file, if it is not a link. -/
theorem isFile_below (hroot : root.bytes ≠ []) (hne : names ≠ []) (hnames : ∀ n ∈ names, n.Proper)
    (hfollow : d.follow .keep maxLinks (origin d.workingDirectory root) (root.components ++ names) = .ok loc) {c : Bytes}
    (hentry : d.entry? loc = some (.file c)) : d.isFile (root.below names) = true := by
  unfold isFile
  rw [origin_below hroot hnames, route_below hroot hne hnames, hfollow]
  simp only [hentry]

end Disk

/-! ## One image after the other -/

/-- The images that some names lead to have been moved, those that come behind them have not. -/
structure IsMidway (root : Path) (top : Location) (d : Disk) (files : List (List Name)) (b : Codebook) (d' : Disk) : Prop where
  gallery : IsGallery d root top
  naming : NamesImages d root b
  images : files.Sublist (d.filesFrom d.depth top)
  disk : d' = (d.unlink (newLocations b top files)).carry (moveAll b top files)
  tree : d'.IsTree
  frame : d.LosesLinks d'

namespace IsMidway

variable {d d' d'' : Disk} {root : Path} {top : Location} {files : List (List Name)} {b : Codebook} {names : List Name}

/-- An image that has not been moved stands where it stood. -/
theorem exists_file (h : IsMidway root top d files b d') (hnames : names ∈ d.filesFrom d.depth top) (hnot : names ∉ files) :
    names ≠ [] ∧ (∀ n ∈ names, n.Proper) ∧ (∃ c, d.entry? (top ++ names) = some (.file c)) ∧
      ∃ c, d'.entry? (top ++ names) = some (.file c) := by
  have ht := h.gallery.tree
  obtain ⟨hne, c, hc⟩ := ht.mem_filesFrom_depth.1 hnames
  refine ⟨hne, fun n hn => ht.properNames hc n (List.mem_append_right _ hn), ⟨c, hc⟩, c, ?_⟩
  have htree := h.tree
  rw [h.disk] at htree ⊢
  have hcarried := htree.entry?_carry_unlink hc
  rwa [moveAll_of_not_mem hnot] at hcarried

/-- Where no file has taken the place of a link, all directories and links are as they were. -/
theorem sameFrame (h : IsMidway root top d files b d') (hlost : ¬d.LinkTaken d') : d.SameFrame d' := by
  have ht := h.gallery.tree
  refine ⟨h.frame.workingDirectory, fun loc e he => ?_⟩
  cases e with
  | file c => exact absurd rfl (he c)
  | directory => rw [← Disk.isDirectoryAt_iff, ← Disk.isDirectoryAt_iff, h.frame.isDirectoryAt]
  | link target =>
    refine ⟨h.frame.link loc target, fun hlink => ?_⟩
    have hloc := Disk.ne_nil_of_entry_eq_some hlink (by simp)
    have hstays : moveAll b top files loc = loc := by
      refine if_neg fun hm => ?_
      obtain ⟨names, hnames, rfl⟩ := List.mem_map.1 hm
      obtain ⟨-, c, hc⟩ := ht.mem_filesFrom_depth.1 (h.images.subset hnames)
      rw [hlink] at hc
      cases hc
    have hfree : loc ∉ newLocations b top files := by
      intro hm
      obtain ⟨names, hnames, rfl⟩ := List.mem_map.1 hm
      obtain ⟨-, c, hc⟩ := ht.mem_filesFrom_depth.1 (h.images.subset hnames)
      -- the image would stand there now
      have htree := h.tree
      rw [h.disk] at htree
      have hcarried := htree.entry?_carry_unlink hc
      rw [moveAll_append hnames, ← h.disk] at hcarried
      exact hlost ⟨_, target, c, hlink, hcarried⟩
    rw [h.tree.distinct.entry?_eq_some_iff hloc, h.disk, Disk.mem_carry]
    refine ⟨loc, Disk.mem_unlink.2 ⟨Disk.mem_entries_of_entry_eq_some hloc hlink, fun _ _ => hfree⟩, hstays⟩

/-- The path of an image that comes next leads to it, unless a file has taken the place of a link. -/
theorem isFile_or_linkTaken (h : IsMidway root top d files b d') (hnames : names ∈ d.filesFrom d.depth top) (hnot : names ∉ files)
    (hshort : ∀ n ∈ names, n.length ≤ Disk.maxName) :
    d'.isFile ((ImagePass.directory root).below names) = true ∨ d.LinkTaken d' := by
  by_cases hlost : d.LinkTaken d'
  · exact .inr hlost
  · obtain ⟨hne, hproper, -, c, hc⟩ := h.exists_file hnames hnot
    have hroot := (h.sameFrame hlost).locate h.gallery.located h.gallery.directory
    have hfollow : d'.follow .keep Disk.maxLinks (Disk.origin d'.workingDirectory (ImagePass.directory root))
        ((ImagePass.directory root).components ++ names) = .ok (top ++ names) :=
      (h.tree.follow_below hroot hne hc fun target => by simp).2 ⟨hshort, rfl⟩
    exact .inl (Disk.isFile_below (ImagePass.bytes_directory_ne_nil root) hne hproper hfollow hc)

/-- The path of an image that is moved leads to it. -/
theorem isFile_of_move (h : IsMidway root top d files b d') (hnames : names ∈ d.filesFrom d.depth top) (hnot : names ∉ files)
    {new : Path} (hmove : d'.move ((ImagePass.directory root).below names) new = .ok d'') :
    d'.isFile ((ImagePass.directory root).below names) = true := by
  obtain ⟨hne, hproper, ⟨c₀, hc₀⟩, c, hc⟩ := h.exists_file hnames hnot
  obtain ⟨init, n, rfl⟩ : ∃ init n, names = init ++ [n] := ⟨_, _, (List.dropLast_concat_getLast hne).symm⟩
  have hbytes := ImagePass.bytes_directory_ne_nil root
  have hcomponents : ((ImagePass.directory root).below (init ++ [n])).components =
      ((ImagePass.directory root).components ++ init) ++ [n] := by
    rw [Path.components_below hbytes hproper, List.append_assoc]
  rw [← List.append_assoc] at hc hc₀
  have hdir := h.gallery.tree.ancestor (List.cons_ne_nil n []) hc₀
  obtain ⟨dir, name, -, -, -, hsplit, -, hshort, -, -, -⟩ := Disk.move_eq_ok hmove
  obtain ⟨rfl, rfl⟩ := h.gallery.tree.splitLast_below h.frame h.gallery.located hdir (hproper n (by simp)) hsplit
  obtain ⟨-, hfollow, -⟩ := Disk.splitLast_eq_ok hcomponents hsplit
  have hname : [name] ≠ [[]] := by
    rintro heq
    exact (hproper name (by simp)).nonempty (List.cons.inj heq).1
  obtain ⟨k, hk⟩ := Disk.follow_append .keep (List.cons_ne_nil name []) hname hfollow
  rw [Disk.origin_below hbytes hproper, Disk.follow_eq_descend .keep k,
    (h.tree.descend_names hc fun target => by simp).2 ⟨by simpa using hshort, rfl⟩, List.append_assoc] at hk
  exact Disk.isFile_below hbytes hne hproper hk hc

end IsMidway

/-! ## The renaming of all images -/

namespace ImagePass

variable [WordSource σ]

/-- Gives one image its new name, and counts it. -/
def renameOne (o : Options) (path : Path) : Pass σ Nat := do
  match leaf? path with
  | none =>
    Pass.note (.nameSkipped path)
    return 0
  | some name =>
    let token ← Pass.pseudonym name (Pass.mint .fileName (Mint.fileName (path.extension?.bind Utf8.decode?)))
    Pass.note (.change (.rename path (renamed path token)))
    Pass.note (.pathChanging o.dryRun path (renamed path token))
    if !o.dryRun then Pass.move path (renamed path token)
    return 1

/-- Images are renamed from the first one on. -/
theorem renameAll_cons (o : Options) (path : Path) (paths : List Path) : (renameAll o (path :: paths) : Pass σ Nat) = do
    let k ← renameOne o path
    let n ← renameAll o paths
    return n + k := by
  unfold renameOne
  rw [renameAll]
  cases leaf? path with
  | none => simp
  | some name => cases o.dryRun <;> simp

/-- The last image is renamed behind the others. -/
theorem renameAll_concat (o : Options) (paths : List Path) (path : Path) : (renameAll o (paths ++ [path]) : Pass σ Nat) = do
    let n ← renameAll o paths
    let k ← renameOne o path
    return n + k := by
  induction paths with
  | nil => simp only [List.nil_append, renameAll_cons, renameAll, pure_bind, Nat.zero_add]
  | cons p paths ih => simp [renameAll_cons, ih, Nat.add_right_comm]

end ImagePass

/-- What a renaming that has come so far has left. -/
theorem IsMidway.of_yields [WordSource σ] {d : Disk} {root : Path} {top : Location} {files rest : List (List Name)} {o : Options}
    (hdry : o.dryRun = false) (hgallery : IsGallery d root top) (hfiles : files ++ rest = d.filesFrom d.depth top)
    {w w' : Workspace σ} (hdisk : w.disk = d) (hempty : w.codebook = .empty) (htaken : ∀ t ∈ leavesBelow d root, t ∈ w.mint.taken)
    {n : Nat} (h : (ImagePass.renameAll o (files.map (ImagePass.directory root).below)).Yields w n w') :
    IsMidway root top d files w'.codebook w'.disk := by
  obtain ⟨hentered, hmoved⟩ := Pass.yields_renameAll h
  rw [hempty] at hentered
  rw [hdisk] at hmoved
  have himages : files.Sublist (d.filesFrom d.depth top) := hfiles ▸ List.sublist_append_left files rest
  have hnames : ∀ t ∈ (files.map (ImagePass.directory root).below).filterMap ImagePass.leaf?, t ∈ leavesBelow d root := by
    rw [leavesBelow, hgallery.imagesBelow_eq]
    exact fun t ht => ((himages.map _).filterMap _).subset ht
  have hnaming : NamesImages d root w'.codebook := .of_entered hnames htaken hentered
  obtain ⟨heq, htree, hframe⟩ := hnaming.eq_carry hgallery himages hdry hmoved
  exact ⟨hgallery, hnaming, himages, heq, htree, hframe⟩

namespace Pass

open ImagePass (renameOne renameAll)

variable [WordSource σ] {o : Options} {excused : Disk → Event → Prop} {w : Workspace σ}

section Renaming

variable {d : Disk} {root : Path} {top : Location} {files : List (List Name)}

/-- An image that is renamed is announced, and is a file then unless a link had been taken. -/
theorem logs_renameOne (hdry : o.dryRun = false) (hexcused : ∀ d', d.LinkTaken d' → ∀ old new, excused d' (.rename old new))
    (h : IsMidway root top d files w.codebook w.disk) {names : List Name} (hnames : names ∈ d.filesFrom d.depth top)
    (hnot : names ∉ files) (hshort : ∀ n ∈ names, n.length ≤ Disk.maxName) :
    (renameOne o ((ImagePass.directory root).below names)).Logs excused w fun n es => Event.tally es = (0, n) := by
  unfold ImagePass.renameOne
  cases ImagePass.leaf? ((ImagePass.directory root).below names) with
  | none => exact logs_quiet (keeps_note isWork_recorded rfl) fun _ _ _ _ => logs_pure rfl
  | some name =>
    refine logs_quiet (keeps_pseudonym isWork_recorded (keeps_mint isWork_recorded _ _)) fun token v _ hdisk => ?_
    dsimp only
    rw [hdry, if_pos (show (!false) = true from rfl)]
    refine logs_announce _ rfl (fun u hu => by rw [outcome_move, hu, Event.apply]) ?_ rfl
    rw [hdisk, Event.apply]
    cases hmove : w.disk.move ((ImagePass.directory root).below names)
        (ImagePass.renamed ((ImagePass.directory root).below names) token) with
    | error err => exact (h.isFile_or_linkTaken hnames hnot hshort).imp_right fun hlost => ⟨⟨err, rfl⟩, hexcused _ hlost _ _⟩
    | ok d' => exact .inl (h.isFile_of_move hnames hnot hmove)

/-- The renaming of the images is on record from wherever it has come to. -/
theorem logs_renameAll_from (hdry : o.dryRun = false) (hexcused : ∀ d', d.LinkTaken d' → ∀ old new, excused d' (.rename old new))
    (hgallery : IsGallery d root top) (hshort : ∀ names ∈ d.filesFrom d.depth top, ∀ n ∈ names, n.length ≤ Disk.maxName)
    {w₀ : Workspace σ} (hdisk : w₀.disk = d) (hempty : w₀.codebook = .empty)
    (htaken : ∀ t ∈ leavesBelow d root, t ∈ w₀.mint.taken) {rest : List (List Name)}
    (hfiles : files ++ rest = d.filesFrom d.depth top) {m : Nat}
    (h : (renameAll o (files.map (ImagePass.directory root).below)).Yields w₀ m w) :
    (renameAll o (rest.map (ImagePass.directory root).below)).Logs excused w fun n es => Event.tally es = (0, n) := by
  induction rest generalizing files m w with
  | nil => exact logs_pure rfl
  | cons names rest ih =>
    have hmidway : IsMidway root top d files w.codebook w.disk := .of_yields hdry hgallery hfiles hdisk hempty htaken h
    have hmem : names ∈ d.filesFrom d.depth top := by
      rw [← hfiles]
      simp
    have hnot : names ∉ files := by
      have hnodup := hgallery.tree.nodup_filesFrom d.depth top
      rw [← hfiles, List.nodup_append] at hnodup
      exact fun hm => hnodup.2.2 names hm names List.mem_cons_self rfl
    rw [List.map_cons, ImagePass.renameAll_cons]
    refine logs_bind (logs_renameOne hdry hexcused hmidway hmem hnot (hshort names hmem)) fun k v es hone hes => ?_
    have hsofar : (renameAll o ((files ++ [names]).map (ImagePass.directory root).below)).Yields w₀ (m + k) v := by
      rw [List.map_append, List.map_singleton, ImagePass.renameAll_concat]
      exact yields_bind.2 ⟨m, w, h, yields_bind.2 ⟨k, v, hone, yields_pure.2 ⟨rfl, rfl⟩⟩⟩
    refine logs_bind (ih (by rw [List.append_assoc]; exact hfiles) hsofar) fun n u es' _ hes' => logs_pure ?_
    rw [List.append_nil, Event.tally_append, hes, hes', Nat.add_comm n k]
    rfl

/-- The renaming of the images of a project is on record. -/
theorem logs_renameAll (hdry : o.dryRun = false) (hexcused : ∀ d', w.disk.LinkTaken d' → ∀ old new, excused d' (.rename old new))
    (hgallery : IsGallery w.disk root top) (hshort : ∀ e ∈ w.disk.entries, ∀ n ∈ e.1, n.length ≤ Disk.maxName)
    (hempty : w.codebook = .empty) (htaken : ∀ t ∈ leavesBelow w.disk root, t ∈ w.mint.taken) :
    (renameAll o (imagesBelow w.disk root)).Logs excused w fun n es => Event.tally es = (0, n) := by
  have hnames : ∀ names ∈ w.disk.filesFrom w.disk.depth top, ∀ n ∈ names, n.length ≤ Disk.maxName := by
    intro names hm n hn
    obtain ⟨hne, c, hc⟩ := hgallery.tree.mem_filesFrom_depth.1 hm
    exact hshort _ (Disk.mem_entries_of_entry_eq_some (by simp [hne]) hc) n (List.mem_append_right _ hn)
  have hbegun : (renameAll o (([] : List (List Name)).map (ImagePass.directory root).below)).Yields w 0 w :=
    yields_pure.2 ⟨rfl, rfl⟩
  rw [hgallery.imagesBelow_eq]
  exact logs_renameAll_from hdry hexcused hgallery hnames rfl hempty htaken (List.nil_append _) hbegun

end Renaming

/-- The image pass is on record, begun with an empty codebook. -/
theorem logs_imagePass (hdry : o.dryRun = false) (hexcused : ∀ d', w.disk.LinkTaken d' → ∀ old new, excused d' (.rename old new))
    (ht : w.disk.IsTree) (hshort : ∀ e ∈ w.disk.entries, ∀ n ∈ e.1, n.length ≤ Disk.maxName) (hempty : w.codebook = .empty)
    (root : Path) : (ImagePass.run root o).Logs excused w fun tally es =>
      Event.tally es = (tally.contentChanges, tally.pathsRenamed) := by
  rw [imagePass_eq]
  refine logs_quiet keeps_get fun _ _ hget _ => ?_
  obtain ⟨rfl, rfl⟩ := yields_get.1 hget
  cases hdir : w.disk.isDirectory (ImagePass.directory root) with
  | false =>
    rw [if_pos (show (!false) = true from rfl)]
    exact logs_quiet (keeps_note isWork_recorded rfl) fun _ _ _ _ => logs_pure rfl
  | true =>
    rw [if_neg (by simp)]
    refine logs_quiet (keeps_note isWork_recorded rfl) fun _ v hnote _ => ?_
    obtain rfl := yields_note.1 hnote
    refine logs_quiet (keeps_reserveNames isWork_recorded _) fun images v hreserve hdisk => ?_
    obtain ⟨rfl, hlists, _, hv⟩ := yields_reserveNames hreserve
    have hbook : v.codebook = .empty := by
      rw [hv]
      exact hempty
    have htaken : ∀ t ∈ leavesBelow v.disk root, t ∈ v.mint.taken := by
      rw [hv]
      exact fun t ht => Mint.mem_taken_reserveAll.2 (.inl ht)
    simp only at hlists hdisk ⊢
    rw [← hdisk] at hexcused ht hshort hdir hlists ⊢
    obtain ⟨top, hgallery⟩ := (exists_isGallery ht hlists).resolve_left (by rw [hdir]; simp)
    refine logs_bind (logs_renameAll hdry hexcused hgallery hshort hbook htaken) fun n _ es _ hes => ?_
    refine logs_quiet keeps_get fun _ _ _ _ => ?_
    refine (logs_rewriteTexts hdry root _ (fun _ => ImagePass.onlyLogs_rewriter _) (fun _ => rfl) n).mono fun tally es' h => ?_
    rw [Event.tally_append, hes, h.1, h.2]
    simp

omit [WordSource σ] in
/-- A codebook of its own makes no difference to what a pass announces. -/
theorem logs_withFreshCodebook {α : Type} {x : Pass σ α} {told : α → List Event → Prop}
    (hx : x.Logs excused { w with codebook := .empty } told) :
    (Project.withFreshCodebook x).Logs excused w fun r es => told r.1 es := by
  refine logs_quiet (keeps_modify fun _ => rfl) fun _ v hv _ => ?_
  obtain rfl := yields_modify.1 hv
  refine logs_bind hx fun a v es _ hes => logs_quiet keeps_get fun _ _ _ _ => logs_pure ?_
  rw [List.append_nil]
  exact hes

end Pass

/-! ## The run -/

/-- A new path that may be announced in vain: a file has taken the place of a link. -/
def Event.CutOff (d d' : Disk) (e : Event) : Prop := e.isRename = true ∧ d.LinkTaken d'

/-- Whether a link has been taken does not depend on contents. -/
theorem Disk.LinkTaken.of_bare {d d₁ d' : Disk} (hbare : d₁.bare = d.bare) (h : d₁.LinkTaken d') : d.LinkTaken d' := by
  obtain ⟨loc, target, c, hlink, hfile⟩ := h
  exact ⟨loc, target, c, ((SameFrame.of_bare hbare).entry _ _ fun c => by simp).1 hlink, hfile⟩

namespace Project

open Pass

variable [WordSource σ] {o : Options} {w : Workspace σ}

/-- The first part of a run announces the texts that it counts. -/
theorem logs_throughClasses (hdry : o.dryRun = false) {excused : Disk → Event → Prop} (root : Path) :
    (throughClasses root o).Logs excused w fun c es => Event.tally es = (c.1.contentChanges, c.1.pathsRenamed) := by
  refine logs_quiet keeps_get fun _ _ _ _ => ?_
  split
  · exact logs_throw_bind _ _
  · refine logs_quiet (keeps_note isWork_recorded rfl) fun _ _ _ _ => ?_
    refine logs_quiet (keeps_reserveNames isWork_recorded _) fun _ _ _ _ => ?_
    exact logs_withFreshCodebook (logs_classPass hdry root)

/-- What a run announces is what it does. Whatever its source of random words, and whether it succeeds or fails, replaying the changes
in order leads from the disk at the beginning to the disk that it leaves, each change fitting the disk that the ones before it have
left; of a run that fails, the last change may not have been made. A run that succeeds has counted the new texts and the new paths.
Only the last new path of a run that fails may lead to no file, and only when an image has taken the place of a link. -/
theorem run_logs (hdry : o.dryRun = false) (ht : w.disk.IsTree)
    (hshort : ∀ e ∈ w.disk.entries, ∀ n ∈ e.1, n.length ≤ Disk.maxName) (root : Path) :
    (run root o).Logs (Event.CutOff w.disk) w fun report es => Event.tally es =
      (report.classes.contentChanges + report.images.contentChanges, report.classes.pathsRenamed + report.images.pathsRenamed) := by
  rw [run_eq_throughClasses]
  refine logs_bind (logs_throughClasses hdry root) fun classes v es hclasses hes => ?_
  -- the class pass leaves the entries where they stand
  have hbare := ((yields_throughClasses hclasses).2 ht.distinct).1
  have hshort' : ∀ e ∈ v.disk.entries, ∀ n ∈ e.1, n.length ≤ Disk.maxName := by
    intro e he
    obtain ⟨e', he', heq⟩ := Disk.exists_mem_of_bare hbare he
    exact heq ▸ hshort e' he'
  have himages : (ImagePass.run root o).Logs (Event.CutOff w.disk) { v with codebook := .empty } fun tally es =>
      Event.tally es = (tally.contentChanges, tally.pathsRenamed) :=
    logs_imagePass (w := { v with codebook := .empty }) hdry (fun d' hlost _ _ => ⟨rfl, hlost.of_bare hbare⟩) (ht.of_bare hbare)
      hshort' rfl root
  refine logs_bind (logs_withFreshCodebook himages) fun images _ es' _ hes' => ?_
  refine logs_quiet (keeps_note isWork_recorded rfl) fun _ _ _ _ => logs_pure ?_
  rw [List.append_nil, Event.tally_append, hes, hes']

namespace FullDiskWitness

open GalleryWitness (gallery)
open SiteWitness (bytes root)

/-- The path of the script of the gallery under its new name. -/
def script : Path := (ImagePass.directory root).join (bytes "0Z30Z30Z30.js")

/-- The gallery on a disk that has no space for the last text of a run. -/
def full : Workspace WordCycle :=
  { gallery with
    disk := { gallery.disk with
      refused := [(.write script.components (bytes "f('aZ30Z30Z','30Z30Z30Z3.png')"), .noSpace)] } }

end FullDiskWitness

open FullDiskWitness in
open GalleryWitness in
open SiteWitness (root) in
/-- What is announced over the gallery is what is done. On a disk without space for the last text, five changes are announced and the
first four of them are made. -/
theorem run_logs_gallery : gallery.disk.IsTree ∧ (∀ e ∈ gallery.disk.entries, ∀ n ∈ e.1, n.length ≤ Disk.maxName) ∧
    (run root {}).Yields gallery report ((run root {}).outcome gallery).2 ∧
    gallery.disk.replay ((run root {}).outcome gallery).2.events = some ((run root {}).outcome gallery).2.disk ∧
    Event.tally ((run root {}).outcome gallery).2.events = (3, 2) ∧
    ((run root {}).outcome full).1 = .error (.file script .noSpace) ∧
    ∃ done e, ((run root {}).outcome full).2.events = done ++ [e] ∧ done.length = 4 ∧
      full.disk.replay done = some ((run root {}).outcome full).2.disk := by
  have ht : gallery.disk.IsTree := by decide
  have hshort : ∀ e ∈ gallery.disk.entries, ∀ n ∈ e.1, n.length ≤ Disk.maxName := by decide
  obtain ⟨es, hes, hreplay, htally⟩ := (run_logs (o := {}) rfl ht hshort root).of_yields yields_report
  have hfails : ((run root {}).outcome full).1 = .error (.file script .noSpace) := by decide +kernel
  have hcount : ((run root {}).outcome full).2.events.length = 5 := by decide +kernel
  have hnever : full.disk.replay ((run root {}).outcome full).2.events = none := by decide +kernel
  obtain ⟨es', hes', hstopped⟩ := (run_logs (o := {}) (w := full) rfl (by decide) hshort root).of_fails (by rw [hfails]; rfl)
  obtain rfl : ((run root {}).outcome full).2.events = es' := hes'
  obtain ⟨done, e, hdone, hreplay', -⟩ := hstopped.resolve_left (by rw [hnever]; simp)
  rw [hes]
  refine ⟨ht, hshort, yields_report, hreplay, htally, hfails, done, e, hdone, ?_, hreplay'⟩
  rw [hdone, List.length_append] at hcount
  exact Nat.succ_inj.1 hcount

namespace CutOffWitness

open SiteWitness (bytes)
open LinkedRootWitness (root)

/-- The site that is led to by a link, with one more image that comes after the one that takes the place of the link. -/
def site : Workspace WordCycle :=
  { LinkedRootWitness.site with
    disk := { entries := LinkedRootWitness.site.disk.entries ++ [([bytes "v"], .file [])] } }

/-- The path of an image of the site. -/
def image (name : String) : Path := (root.join (bytes "img")).join (bytes name)

def events : List Event := [
  .rename ((image "site").join (bytes "a.html")) ((image "site").join (bytes "0120120120.html")),
  .rename (image "u") (image "1201201201")]

end CutOffWitness

open CutOffWitness in
open LinkedRootWitness (root) in
/-- A run may announce a new path for what is no file to it: the image `u` takes the place of the link that the root is led to by, so
that the path of the image `v` is announced and leads nowhere. -/
theorem run_logs_false : ¬∀ (root : Path) (o : Options) (w : Workspace WordCycle), o.dryRun = false → w.disk.IsTree →
    (∀ e ∈ w.disk.entries, ∀ n ∈ e.1, n.length ≤ Disk.maxName) →
    (run root o).Logs (fun _ _ => False) w fun report es => Event.tally es =
      (report.classes.contentChanges + report.images.contentChanges,
        report.classes.pathsRenamed + report.images.pathsRenamed) := by
  intro hall
  have hfails : ((run root {}).outcome site).1.toOption = none := by decide +kernel
  have hevents : ((run root {}).outcome site).2.events = events ++ [.rename (image "v") (image "2012012012")] := by
    decide +kernel
  have hfits : ¬Event.Fits ((run root {}).outcome site).2.disk (.rename (image "v") (image "2012012012")) := by
    decide +kernel
  have hreplay : site.disk.replay (events ++ [.rename (image "v") (image "2012012012")]) = none := by decide +kernel
  obtain ⟨es, hes, h⟩ := (hall root {} site rfl (by decide) (by decide)).of_fails hfails
  obtain rfl : events ++ [.rename (image "v") (image "2012012012")] = es := hevents.symm.trans hes
  rcases h with h | ⟨done, last, heq, -, hlast⟩
  · rw [hreplay] at h
    cases h
  · obtain ⟨-, hlast'⟩ := List.append_inj' heq rfl
    obtain rfl := (List.cons.inj hlast').1
    exact hfits (hlast.resolve_right not_false)

end Project

end Pseudonym
