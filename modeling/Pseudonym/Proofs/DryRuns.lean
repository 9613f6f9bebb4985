import Pseudonym.Proofs.Edits
import Pseudonym.Proofs.Keeping
import Pseudonym.Proofs.Namings

/-!
# What a dry run shares with a run

A dry run writes nothing and moves nothing, whatever it meets on its way: no step of it changes the disk
(`Project.keepsDisk_run`). For the rest it makes the steps of a run. A run that succeeds and a dry run that is begun with it stay
abreast: they have the same mint and the same codebook and have announced the same changes (`Workspace.Abreast`), as long as the dry
run reads what the run reads (`Pass.KeepsUp`). That is so up to the end of the class pass (`Project.yields_throughClasses_dry`), and
in the image pass until all images have their new names; the references are then rewritten in files that a run has moved and a dry
run has not (`Pass.yields_imagePass_dry`).
-/

namespace Pseudonym

variable {σ : Type}

/-! ## Files apart from each other -/

namespace Disk

/-- Two paths do not lead to one location. -/
def Apart (d : Disk) (p q : Path) : Prop := ∀ x, d.locate .follow p = .ok x → d.locate .follow q ≠ .ok x

variable {d d' : Disk}

/-- Whether paths are apart does not depend on contents. -/
theorem Apart.of_bare {p q : Path} (h : d.Apart p q) (hbare : d'.bare = d.bare) : d'.Apart p q := by
  intro x
  rw [locate_of_bare hbare, locate_of_bare hbare]
  exact h x

/-- What is read from a path depends on the entry that it leads to. -/
theorem read_congr (hbare : d'.bare = d.bare) {p : Path}
    (h : ∀ x, d.locate .follow p = .ok x → d'.entry? x = d.entry? x) : d'.read p = d.read p := by
  unfold read status
  rw [locate_of_bare hbare]
  cases hx : d.locate .follow p with
  | error e => rfl
  | ok x =>
    simp only [bind, Except.bind, allow_of_bare hbare]
    rw [h x hx]

/-- The text files below a directory stand apart from each other. -/
theorem IsTree.pairwise_apart (ht : d.IsTree) {root : Path} {base : Location} (hroot : d.locate .follow root = .ok base)
    (hdir : d.isDirectoryAt base = true) (hlists : d.Lists root) (rewriter : Language → Rewriter) :
    ((textsBelow d root).map fun f => (f.1, rewriter f.2)).Pairwise fun f g => d.Apart f.1 g.1 := by
  rw [map_textsBelow ht hroot hdir hlists, List.pairwise_map]
  refine (List.pairwise_map.1 (nodup_textFiles ht base rewriter)).imp_of_mem ?_
  intro f g hf hg hne x hx hx'
  obtain ⟨hf, c, hc⟩ := ht.mem_filesFrom_depth.1 (mem_textFiles.1 hf).1
  obtain ⟨hg, c', hc'⟩ := ht.mem_filesFrom_depth.1 (mem_textFiles.1 hg).1
  have hx := ht.locate_below hroot hf hc (fun target => by simp) hx
  have hx' := ht.locate_below hroot hg hc' (fun target => by simp) hx'
  exact hne (List.append_cancel_left (hx.symm.trans hx'))

end Disk

/-- A file that is rewritten leaves the others to be read as before. -/
theorem Rewriter.Writes.read_of_apart {o : Options} (ho : o.dryRun = false) {path q : Path} {r : Rewriter} {d d' : Disk}
    (hd : d.Distinct) (h : r.Writes o path d d') (hq : d.Apart path q) : d'.read q = d.read q := by
  obtain ⟨loc, hloc, rfl⟩ := h.eq_edit ho hd
  refine Disk.read_congr (Disk.bare_edit _) ?_
  intro x hx
  have hne : x ≠ loc := by
    rintro rfl
    exact hq x hloc hx
  rw [Disk.entry?_edit]
  rcases d.entry? x with _ | _ | _ | _ <;> simp [Entry.edit, hne]

/-! ## Keeping up -/

/-- A run and a dry run that have come equally far: they go on with the same names, and have announced the same changes. -/
structure Workspace.Abreast (w v : Workspace σ) : Prop where
  mint : v.mint = w.mint
  codebook : v.codebook = w.codebook
  events : v.events = w.events

namespace Workspace.Abreast

variable {w v : Workspace σ}

theorem refl (w : Workspace σ) : w.Abreast w := ⟨rfl, rfl, rfl⟩

/-- The disks may be any. -/
theorem withDisk (h : w.Abreast v) (disk : Disk) : ({ w with disk } : Workspace σ).Abreast v :=
  ⟨h.mint, h.codebook, h.events⟩

/-- Both may tell something, as long as they announce the same changes. -/
theorem tell (h : w.Abreast v) {ns ns' : List Notice} (hns : ns'.filterMap Notice.event? = ns.filterMap Notice.event?) :
    ({ w with trace := w.trace ++ ns } : Workspace σ).Abreast { v with trace := v.trace ++ ns' } where
  mint := h.mint
  codebook := h.codebook
  events := by
    have hevents := h.events
    unfold Workspace.events at hevents ⊢
    rw [List.filterMap_append, List.filterMap_append, hevents, hns]

/-- Workspaces that are abreast have announced the same renames. -/
theorem renames (h : w.Abreast v) : v.renames = w.renames := by
  rw [Workspace.renames, Workspace.renames, h.events]

end Workspace.Abreast

namespace Pass

variable {α β : Type} {o : Options}

/-- Whatever the first pass yields, the second one yields as well when it is begun abreast of it, and they end abreast. The first
relation is asked of the disks at the beginning, the second one holds of them in the end. -/
def KeepsUp (R : Disk → Disk → Prop) (x y : Pass σ α) (S : Disk → Disk → Prop) : Prop :=
  ∀ ⦃w v⦄, w.Abreast v → R w.disk v.disk → ∀ ⦃a w'⦄, x.Yields w a w' → ∃ v', y.Yields v a v' ∧ w'.Abreast v' ∧ S w'.disk v'.disk

section KeepsUp

variable {R S T : Disk → Disk → Prop}

/-- A pass keeps up step by step. -/
theorem keepsUp_bind {x y : Pass σ α} {f g : α → Pass σ β} (hxy : KeepsUp R x y S) (hfg : ∀ a, KeepsUp S (f a) (g a) T) :
    KeepsUp R (x >>= f) (y >>= g) T := by
  intro w v habreast hR b w' h
  obtain ⟨a, w₁, hx, hf⟩ := yields_bind.1 h
  obtain ⟨v₁, hy, habreast₁, hS⟩ := hxy habreast hR hx
  obtain ⟨v', hg, hend⟩ := hfg a habreast₁ hS hf
  exact ⟨v', yields_bind.2 ⟨a, v₁, hy, hg⟩, hend⟩

/-- What does nothing keeps up. -/
theorem keepsUp_pure (a : α) (hRS : ∀ d d', R d d' → S d d') : KeepsUp R (pure a : Pass σ α) (pure a) S := by
  intro w v habreast hR b w' h
  obtain ⟨rfl, rfl⟩ := yields_pure.1 h
  exact ⟨v, yields_pure.2 ⟨rfl, rfl⟩, habreast, hRS _ _ hR⟩

/-- The two may differ in what they say, but not in what they announce. -/
theorem keepsUp_noteAll {ns ns' : List Notice} (h : ns'.filterMap Notice.event? = ns.filterMap Notice.event?) :
    KeepsUp R (noteAll ns : Pass σ Unit) (noteAll ns') R := by
  intro w v habreast hR a w' hw
  obtain rfl := yields_noteAll.1 hw
  exact ⟨_, yields_noteAll.2 rfl, habreast.tell h, hR⟩

/-- The two may differ in what they say, but not in what they announce. -/
theorem keepsUp_note {n n' : Notice} (h : n'.event? = n.event?) : KeepsUp R (note n : Pass σ Unit) (note n') R :=
  keepsUp_noteAll (by rw [List.filterMap_cons, List.filterMap_cons, h])

/-- Both reserve the same names. -/
theorem keepsUp_reserve (names : List Text) : KeepsUp R (reserve names : Pass σ Unit) (reserve names) R := by
  intro w v habreast hR a w' h
  obtain rfl := yields_reserve.1 h
  exact ⟨_, yields_reserve.2 rfl, ⟨congrArg (Mint.reserveAll · names) habreast.mint, habreast.codebook, habreast.events⟩,
    hR⟩

/-- Both get the same token. -/
theorem keepsUp_mint (kind : TokenKind) (ask : Mint σ → Mint.Strike σ) : KeepsUp R (mint kind ask) (mint kind ask) R := by
  intro w v habreast hR a w' h
  obtain ⟨htoken, rfl⟩ := yields_mint.1 h
  rw [← habreast.mint] at htoken
  refine ⟨_, yields_mint.2 ⟨htoken, rfl⟩, ?_, hR⟩
  rw [habreast.mint]
  exact ⟨rfl, habreast.codebook, (habreast.tell rfl).events⟩

/-- Both give a name the same pseudonym. -/
theorem keepsUp_pseudonym {name : Text} {make : Pass σ Text} (hmake : KeepsUp R make make R) :
    KeepsUp R (pseudonym name make) (pseudonym name make) R := by
  intro w v habreast hR p w' h
  rcases yields_pseudonym.1 h with ⟨hp, rfl⟩ | ⟨hp, w₁, hw₁, rfl⟩
  · rw [← habreast.codebook] at hp
    exact ⟨v, yields_pseudonym.2 (.inl ⟨hp, rfl⟩), habreast, hR⟩
  · obtain ⟨v₁, hv₁, habreast₁, hR₁⟩ := hmake habreast hR hw₁
    rw [← habreast.codebook] at hp ⊢
    exact ⟨_, yields_pseudonym.2 (.inr ⟨hp, v₁, hv₁, rfl⟩), ⟨habreast₁.mint, rfl, habreast₁.events⟩, hR₁⟩

/-- Where a run writes to a file, a dry run goes on at once. -/
theorem keepsUp_save {path : Path} {t : Text} {charset : Charset} {f : Unit → Pass σ β} {y : Pass σ β}
    (hfy : KeepsUp (fun _ _ => True) (f ()) y S) : KeepsUp R (save path t charset >>= f) y S := by
  intro w v habreast _ b w' h
  obtain ⟨u, w₁, hsave, hf⟩ := yields_bind.1 h
  obtain ⟨disk, -, rfl⟩ := yields_save.1 hsave
  exact hfy (habreast.withDisk disk) trivial hf

/-- Where a run moves a file, a dry run goes on at once. -/
theorem keepsUp_move {old new : Path} {f : Unit → Pass σ β} {y : Pass σ β} (hfy : KeepsUp (fun _ _ => True) (f ()) y S) :
    KeepsUp R (move old new >>= f) y S := by
  intro w v habreast _ b w' h
  obtain ⟨u, w₁, hmove, hf⟩ := yields_bind.1 h
  obtain ⟨disk, -, rfl⟩ := yields_move.1 hmove
  exact hfy (habreast.withDisk disk) trivial hf

/-- The two go on by what they find. -/
theorem keepsUp_get {f g : Workspace σ → Pass σ β}
    (hfg : ∀ w v : Workspace σ, w.Abreast v → R w.disk v.disk → KeepsUp R (f w) (g v) S) : KeepsUp R (get >>= f) (get >>= g) S := by
  intro w v habreast hR b w' h
  obtain ⟨w₁, w₂, hget, hf⟩ := yields_bind.1 h
  obtain ⟨rfl, rfl⟩ := yields_get.1 hget
  obtain ⟨v', hg, hend⟩ := hfg w v habreast hR habreast hR hf
  exact ⟨v', yields_bind.2 ⟨v, v, yields_get.2 ⟨rfl, rfl⟩, hg⟩, hend⟩

end KeepsUp

/-! ### Listing -/

/-- Two disks differ in nothing but the contents of files. -/
def SameBare (d d' : Disk) : Prop := d'.bare = d.bare

/-- Both find the same files where nothing but contents differ. -/
theorem keepsUp_list (root : Path) (keep : Path → Bool) :
    KeepsUp SameBare (list root keep : Pass σ (List Path)) (list root keep) SameBare := by
  intro w v habreast hbare paths w' h
  obtain ⟨all, hall, hpaths, rfl⟩ := yields_list.1 h
  rw [← Disk.files_of_bare hbare] at hall
  exact ⟨_, yields_list.2 ⟨all, hall, hpaths, rfl⟩, habreast.tell rfl, hbare⟩

/-- Both reserve the names of the same images. -/
theorem keepsUp_reserveNames (root : Path) :
    KeepsUp SameBare (ImagePass.reserveNames root : Pass σ (List Path)) (ImagePass.reserveNames root) SameBare := by
  refine keepsUp_get fun w v _ hbare => ?_
  rw [Disk.isDirectory_of_bare hbare]
  split
  · exact keepsUp_pure _ fun _ _ h => h
  · exact keepsUp_bind (keepsUp_list _ _) fun _ => keepsUp_bind (keepsUp_reserve _) fun _ => keepsUp_pure _ fun _ _ h => h

/-! ### Rewriting -/

/-- On two disks the same is read from a path. -/
def ReadsAlike (path : Path) (d d' : Disk) : Prop := d'.read path = d.read path

/-- Both read the same text. -/
theorem keepsUp_load (path : Path) :
    KeepsUp (ReadsAlike path) (load path : Pass σ (Text × Charset)) (load path) (ReadsAlike path) := by
  intro w v habreast hread q w' h
  obtain ⟨bytes, hbytes, hq, rfl⟩ := yields_load.1 h
  exact ⟨_, yields_load.2 ⟨bytes, hread.trans hbytes, hq, rfl⟩, habreast.tell rfl, hread⟩

/-- Both announce the same change to a file, and only the run writes it. -/
theorem keepsUp_rewriteFile (ho : o.dryRun = false) (path : Path) (r : Rewriter) :
    KeepsUp (ReadsAlike path) (rewriteFile o path r : Pass σ Bool) (rewriteFile o.dry path r) fun _ _ => True := by
  refine keepsUp_bind (keepsUp_note rfl) fun _ => keepsUp_bind (keepsUp_load path) fun q => ?_
  refine keepsUp_bind (keepsUp_noteAll rfl) fun _ => ?_
  cases r.rename q.1 with
  | none => exact keepsUp_pure _ fun _ _ _ => trivial
  | some new =>
    refine keepsUp_bind (keepsUp_note rfl) fun _ => keepsUp_bind (keepsUp_note rfl) fun _ => ?_
    rw [ho]
    exact keepsUp_save (keepsUp_pure _ fun _ _ h => h)

/-- Files that lead to different locations are rewritten independently, so that a dry run reads what the run reads. -/
theorem yields_rewriteFiles_dry (ho : o.dryRun = false) {files : List (Path × Rewriter)} {w w' v : Workspace σ} {n : Nat}
    (hd : w.disk.Distinct) (hapart : files.Pairwise fun f g => w.disk.Apart f.1 g.1) (habreast : w.Abreast v)
    (hread : ∀ f ∈ files, ReadsAlike f.1 w.disk v.disk) (h : (rewriteFiles o files).Yields w n w') :
    ∃ v', (rewriteFiles o.dry files).Yields v n v' ∧ w'.Abreast v' := by
  induction files generalizing w v n with
  | nil =>
    obtain ⟨rfl, rfl⟩ := yields_pure.1 h
    exact ⟨v, yields_pure.2 ⟨rfl, rfl⟩, habreast⟩
  | cons f files ih =>
    obtain ⟨path, r⟩ := f
    obtain ⟨changed, w₁, hfile, h⟩ := yields_bind.1 h
    obtain ⟨m, w₂, hfiles, hpure⟩ := yields_bind.1 h
    obtain ⟨rfl, rfl⟩ := yields_pure.1 hpure
    obtain ⟨hfirst, hrest⟩ := List.pairwise_cons.1 hapart
    have hwrites := (yields_rewriteFile hfile).1
    have hbare := hwrites.bare hd
    obtain ⟨v₁, hfile', habreast₁, -⟩ := keepsUp_rewriteFile ho path r habreast (hread _ List.mem_cons_self) hfile
    have hread₁ : ∀ g ∈ files, ReadsAlike g.1 w₁.disk v₁.disk := by
      intro g hg
      rw [ReadsAlike, (keepsDisk_rewriteFile path r).eq hfile', hwrites.read_of_apart ho hd (hfirst g hg)]
      exact hread g (List.mem_cons_of_mem _ hg)
    obtain ⟨v', hfiles', habreast'⟩ := ih (hd.of_bare hbare) (hrest.imp fun hfg => hfg.of_bare hbare) habreast₁ hread₁ hfiles
    exact ⟨v', yields_bind.2 ⟨changed, v₁, hfile', yields_bind.2 ⟨m, v', hfiles', yields_pure.2 ⟨rfl, rfl⟩⟩⟩, habreast'⟩

variable [WordSource σ]

/-- Images get the same names, whether they are moved or not. -/
theorem keepsUp_renameAll (ho : o.dryRun = false) (paths : List Path) : KeepsUp (fun _ _ => True)
    (ImagePass.renameAll o paths : Pass σ Nat) (ImagePass.renameAll o.dry paths) fun _ _ => True := by
  induction paths with
  | nil => exact keepsUp_pure _ fun _ _ h => h
  | cons path paths ih =>
    unfold ImagePass.renameAll
    cases ImagePass.leaf? path with
    | none => exact keepsUp_bind (keepsUp_note rfl) fun _ => ih
    | some name =>
      refine keepsUp_bind (keepsUp_pseudonym (keepsUp_mint _ _)) fun _ => keepsUp_bind (keepsUp_note rfl) fun _ => ?_
      refine keepsUp_bind (keepsUp_note rfl) fun _ => ?_
      rw [ho]
      exact keepsUp_move (keepsUp_bind ih fun _ => keepsUp_pure _ fun _ _ h => h)

/-! ### The class pass -/

omit [WordSource σ] in
/-- A step that is made, and what can be done from there. -/
theorem exists_yields_bind {x : Pass σ α} {f : α → Pass σ β} {P : β → Workspace σ → Prop} {w v : Workspace σ} {a : α}
    (h : x.Yields w a v) (hf : ∃ b v', (f a).Yields v b v' ∧ P b v') : ∃ b v', (x >>= f).Yields w b v' ∧ P b v' := by
  obtain ⟨b, v', hb, hP⟩ := hf
  exact ⟨b, v', yields_bind.2 ⟨a, v, h, hb⟩, hP⟩

omit [WordSource σ] in
/-- From the same workspace, a dry run counts and announces the text files that a run rewrites. -/
theorem yields_rewriteTexts_dry (ho : o.dryRun = false) {root : Path} {b : Codebook} {rewriter : Language → Rewriter}
    {done : Tally → Notice} {renamed : Nat} {w w' : Workspace σ} {tally : Tally} (ht : w.disk.IsTree)
    (hdir : w.disk.isDirectory root = true) (h : (rewriteTexts root o b rewriter done renamed).Yields w tally w') :
    ∃ tally' v', (rewriteTexts root o.dry b rewriter done renamed).Yields w tally' v' ∧ tally' = tally ∧ w'.Abreast v' := by
  obtain ⟨base, hroot, hat⟩ := Disk.isDirectory_iff.1 hdir
  unfold rewriteTexts at h ⊢
  cases hempty : b.isEmpty with
  | true =>
    rw [hempty, if_pos rfl] at h
    rw [if_pos rfl]
    exact ⟨tally, w', h, rfl, .refl w'⟩
  | false =>
    rw [hempty, if_neg Bool.false_ne_true] at h
    rw [if_neg Bool.false_ne_true]
    obtain ⟨files, w₁, hlist, h⟩ := yields_bind.1 h
    obtain ⟨n, w₂, hrewrite, h⟩ := yields_bind.1 h
    obtain ⟨_, w₃, hnote, hpure⟩ := yields_bind.1 h
    obtain ⟨rfl, rfl⟩ := yields_pure.1 hpure
    have hdisk := (keeps_listTexts isWork_disk _ _).eq hlist
    have hapart : (files.map fun f => (f.1, rewriter f.2)).Pairwise fun f g => w₁.disk.Apart f.1 g.1 := by
      obtain ⟨all, hall, rfl, -⟩ := yields_listTexts hlist
      rw [hdisk, ← Disk.filesBelow_of_files hall]
      exact ht.pairwise_apart hroot hat (Disk.lists_of_files hall) _
    obtain ⟨v₂, hrewrite', habreast⟩ := yields_rewriteFiles_dry ho (by rw [hdisk]; exact ht.distinct) hapart (.refl w₁)
      (fun _ _ => rfl) hrewrite
    obtain ⟨v', hnote', habreast', -⟩ := keepsUp_note (R := fun _ _ => True) rfl habreast trivial hnote
    refine exists_yields_bind hlist (exists_yields_bind hrewrite' (exists_yields_bind hnote' ?_))
    exact ⟨_, v', yields_pure.2 ⟨rfl, rfl⟩, rfl, habreast'⟩

/-- In the class pass a dry run counts and announces what the run does. -/
theorem yields_classPass_dry (ho : o.dryRun = false) {root : Path} {w w' : Workspace σ} {tally : Tally} (ht : w.disk.IsTree)
    (hdir : w.disk.isDirectory root = true) (h : (ClassPass.run root o).Yields w tally w') :
    ∃ tally' v', (ClassPass.run root o.dry).Yields w tally' v' ∧ tally' = tally ∧ w'.Abreast v' := by
  rw [classPass_eq, renameClasses] at h ⊢
  obtain ⟨_, w₁, h₁, h⟩ := yields_bind.1 h
  obtain ⟨w₂, w₃, h₃, h⟩ := yields_bind.1 h
  obtain ⟨_, w₄, h₄, h⟩ := yields_bind.1 h
  -- the two make the same steps until something is to be written
  refine exists_yields_bind h₁ (exists_yields_bind h₃ (exists_yields_bind h₄ ?_))
  have hdisk : w₄.disk = w.disk := by
    rw [(keepsDisk_note _).eq h₄, (keeps_get (g := Workspace.disk)).eq h₃, (keeps_nameClasses isWork_disk _ _).eq h₁]
  rw [← hdisk] at ht hdir
  exact yields_rewriteTexts_dry ho ht hdir h

/-! ### The image pass -/

section ImagePass

omit [WordSource σ]

/-- A dry run rewrites a file that it can read. -/
theorem exists_yields_rewriteFile_dry {path : Path} {r : Rewriter} {w : Workspace σ}
    (hread : ∃ bytes, w.disk.read path = .ok bytes) : ∃ changed w', (rewriteFile o.dry path r).Yields w changed w' := by
  obtain ⟨bytes, hbytes⟩ := hread
  simp only [rewriteFile, yields_bind, yields_note, yields_load, yields_noteAll]
  cases hnew : r.rename (Charset.decode bytes).1 with
  | none =>
    exact ⟨false, _, (), _, rfl, _, _, ⟨bytes, hbytes, rfl, rfl⟩, (), _, rfl, by
      rw [hnew]
      exact yields_pure.2 ⟨rfl, rfl⟩⟩
  | some new =>
    exact ⟨true, _, (), _, rfl, _, _, ⟨bytes, hbytes, rfl, rfl⟩, (), _, rfl, by
      rw [hnew]
      exact yields_bind.2 ⟨(), _, yields_note.2 rfl, yields_bind.2 ⟨(), _, yields_note.2 rfl, yields_pure.2 ⟨rfl, rfl⟩⟩⟩⟩

/-- A dry run rewrites files that it can read. -/
theorem exists_yields_rewriteFiles_dry {files : List (Path × Rewriter)} {w : Workspace σ}
    (hread : ∀ f ∈ files, ∃ bytes, w.disk.read f.1 = .ok bytes) : ∃ n w', (rewriteFiles o.dry files).Yields w n w' := by
  induction files generalizing w with
  | nil => exact ⟨0, w, yields_pure.2 ⟨rfl, rfl⟩⟩
  | cons f files ih =>
    obtain ⟨path, r⟩ := f
    obtain ⟨changed, w₁, hfile⟩ := exists_yields_rewriteFile_dry (o := o) (r := r) (hread _ List.mem_cons_self)
    have hdisk := (keepsDisk_rewriteFile path r).eq hfile
    obtain ⟨n, w', hfiles⟩ := ih (w := w₁) fun f hf => by
      rw [hdisk]
      exact hread f (List.mem_cons_of_mem _ hf)
    exact ⟨_, w', yields_bind.2 ⟨changed, w₁, hfile, yields_bind.2 ⟨n, w', hfiles, yields_pure.2 ⟨rfl, rfl⟩⟩⟩⟩

/-- A dry run looks at the text files exactly if they can be listed and each of them can be read, or if there are no names to look
for. -/
theorem exists_yields_rewriteTexts_dry {root : Path} {b : Codebook} {rewriter : Language → Rewriter} {done : Tally → Notice}
    {renamed : Nat} {w : Workspace σ} (hd : w.disk.Distinct) :
    (∃ tally w', (rewriteTexts root o.dry b rewriter done renamed).Yields w tally w') ↔
      (b.isEmpty = false → w.disk.Lists root ∧ w.disk.ReadsTexts root) := by
  constructor
  · rintro ⟨tally, w', h⟩ hnames
    obtain ⟨-, -, -, ⟨hempty, -⟩ | ⟨-, -, hlists, hrewritten⟩⟩ := yields_rewriteTexts h
    · rw [hempty] at hnames
      cases hnames
    · exact ⟨hlists, hrewritten.readsTexts hd rewriter⟩
  · intro h
    unfold rewriteTexts
    cases hempty : b.isEmpty with
    | true =>
      rw [if_pos rfl]
      exact ⟨_, w, yields_pure.2 ⟨rfl, rfl⟩⟩
    | false =>
      rw [if_neg Bool.false_ne_true]
      obtain ⟨hlists, hread⟩ := h hempty
      obtain ⟨trace, hlist⟩ := exists_yields_listTexts hlists
      have hread' : ∀ f ∈ (textsBelow w.disk root).map fun f => (f.1, rewriter f.2),
          ∃ bytes, ({ w with trace } : Workspace σ).disk.read f.1 = .ok bytes := by
        intro f hf
        obtain ⟨g, hg, rfl⟩ := List.mem_map.1 hf
        exact hread g hg
      obtain ⟨n, w₁, hrewrite⟩ := exists_yields_rewriteFiles_dry hread'
      exact ⟨_, _, yields_bind.2 ⟨_, _, hlist, yields_bind.2 ⟨n, w₁, hrewrite, yields_bind.2 ⟨(), _, yields_note.2 rfl,
        yields_pure.2 ⟨rfl, rfl⟩⟩⟩⟩⟩

/-- Two passes that look for the same names count the same number of text files, if there are as many below the root. -/
theorem filesProcessed_eq {o' : Options} {root : Path} {b : Codebook} {rewriter : Language → Rewriter} {done : Tally → Notice}
    {renamed : Nat} {w w' v v' : Workspace σ} {tally tally' : Tally}
    (h : (rewriteTexts root o b rewriter done renamed).Yields w tally w')
    (h' : (rewriteTexts root o' b rewriter done renamed).Yields v tally' v')
    (hcount : w.disk.Lists root → Rewritten o ((textsBelow w.disk root).map fun f => (f.1, rewriter f.2)) w.disk w'.disk →
      (textsBelow v.disk root).length = (textsBelow w.disk root).length) : tally'.filesProcessed = tally.filesProcessed := by
  obtain ⟨-, -, -, ⟨hempty, hnone, -⟩ | ⟨hnames, hall, hlists, hrewritten⟩⟩ := yields_rewriteTexts h
  · obtain ⟨-, -, -, ⟨-, hnone', -⟩ | ⟨hnames', -⟩⟩ := yields_rewriteTexts h'
    · rw [hnone, hnone']
    · rw [hempty] at hnames'
      cases hnames'
  · obtain ⟨-, -, -, ⟨hempty', -⟩ | ⟨-, hall', -⟩⟩ := yields_rewriteTexts h'
    · rw [hnames] at hempty'
      cases hempty'
    · rw [hall, hall', hcount hlists hrewritten]

end ImagePass

/-- The first part of the image pass: unless there is no image directory, the images are listed and get their new names. -/
def throughImages (root : Path) (o : Options) : Pass σ (Option Nat) := do
  let dir := ImagePass.directory root
  if !(← get).disk.isDirectory dir then
    note (.noImages dir)
    return none
  note (.renamingImages dir)
  let images ← ImagePass.reserveNames root
  let renamed ← ImagePass.renameAll o images
  return some renamed

omit [WordSource σ] in
/-- The second part of the image pass: the references to the images are exchanged, if any image has been found. -/
def exchangeReferences (root : Path) (o : Options) : Option Nat → Pass σ Tally
  | none => return {}
  | some renamed => do
    let b := (← get).codebook
    rewriteTexts root o b (fun _ => ImagePass.rewriter b) .imagePassDone renamed

/-- The image pass is its two parts. -/
theorem imagePass_eq_throughImages (root : Path) (o : Options) :
    (ImagePass.run root o : Pass σ Tally) = throughImages root o >>= exchangeReferences root o := by
  rw [imagePass_eq]
  unfold throughImages
  dsimp only
  rw [bind_assoc]
  refine bind_congr fun w => ?_
  split
  · rfl
  · simp only [bind_assoc]
    rfl

/-- Up to where the images have their new names, a dry run keeps up. -/
theorem keepsUp_throughImages (ho : o.dryRun = false) (root : Path) : KeepsUp SameBare
    (throughImages root o : Pass σ (Option Nat)) (throughImages root o.dry) fun _ _ => True := by
  refine keepsUp_get fun w v _ hbare => ?_
  rw [Disk.isDirectory_of_bare hbare]
  split
  · exact keepsUp_bind (keepsUp_note rfl) fun _ => keepsUp_pure _ fun _ _ _ => trivial
  · refine keepsUp_bind (keepsUp_note rfl) fun _ => keepsUp_bind (keepsUp_reserveNames root) fun images => ?_
    refine keepsUp_bind (S := fun _ _ => True) ?_ fun _ => keepsUp_pure _ fun _ _ h => h
    exact fun w v habreast _ => keepsUp_renameAll ho images habreast trivial

/-- In a dry run the first part leaves the disk as it is. -/
theorem keepsDisk_throughImages (root : Path) : (throughImages root o.dry : Pass σ (Option Nat)).KeepsDisk := by
  refine keeps_bind keeps_get fun w => ?_
  split
  · exact keeps_bind (keepsDisk_note _) fun _ => keeps_pure _
  · exact keeps_bind (keepsDisk_note _) fun _ => keeps_bind (keeps_reserveNames isWork_disk _) fun _ =>
      keeps_bind (keepsDisk_renameAll _) fun _ => keeps_pure _

/-- What stands when the images have their new names. -/
theorem yields_throughImages {root : Path} {renamed : Option Nat} {w w' : Workspace σ}
    (h : (throughImages root o).Yields w renamed w') : (renamed = none → w'.codebook = w.codebook) ∧
      (renamed ≠ none → Moved o w'.codebook (imagesBelow w.disk root) w.disk w'.disk) := by
  unfold throughImages at h
  simp only [yields_bind, yields_get] at h
  obtain ⟨_, _, ⟨rfl, rfl⟩, h⟩ := h
  split at h
  · simp only [yields_bind, yields_note, yields_pure] at h
    obtain ⟨-, _, rfl, rfl, rfl⟩ := h
    exact ⟨fun _ => rfl, fun hne => absurd rfl hne⟩
  · simp only [yields_bind, yields_note, yields_pure] at h
    obtain ⟨-, _, rfl, images, v, hreserve, n, _, hrename, rfl, rfl⟩ := h
    have hmoved := (yields_renameAll hrename).2
    rw [(yields_reserveNames hreserve).1, (keeps_reserveNames isWork_disk _).eq hreserve] at hmoved
    exact ⟨fun hnone => (by cases hnone), fun _ => hmoved⟩

omit [WordSource σ] in
/-- What rewrites the references renames no file, whatever comes of it. -/
theorem keepsRenames_exchangeReferences (root : Path) (renamed : Option Nat) :
    (exchangeReferences root o renamed : Pass σ Tally).Keeps Workspace.renames := by
  cases renamed with
  | none => exact keeps_pure _
  | some n => exact keeps_bind keeps_get fun w => keepsRenames_references root w.codebook n

omit [WordSource σ] in
/-- What rewrites the references enters no name. -/
theorem codebook_exchangeReferences {root : Path} {renamed : Option Nat} {w w' : Workspace σ} {tally : Tally}
    (h : (exchangeReferences root o renamed).Yields w tally w') : w'.codebook = w.codebook := by
  cases renamed with
  | none => rw [(yields_pure.1 h).2]
  | some n =>
    obtain ⟨_, _, hget, htexts⟩ := yields_bind.1 h
    obtain ⟨rfl, rfl⟩ := yields_get.1 hget
    exact (yields_rewriteTexts htexts).2.2.1

section Foretold

variable {root : Path} {w w' v v' : Workspace σ} {tally tally' : Tally} (ho : o.dryRun = false) (habreast : w.Abreast v)
  (hbare : SameBare w.disk v.disk) (h : (ImagePass.run root o).Yields w tally w')

include ho habreast hbare h

/-- In the image pass a dry run comes to where the images have their new names, and stands abreast of the run there. -/
theorem exists_yields_throughImages_dry : ∃ renamed w₁ v₁, (throughImages root o).Yields w renamed w₁ ∧
    (exchangeReferences root o renamed).Yields w₁ tally w' ∧ (throughImages root o.dry).Yields v renamed v₁ ∧ w₁.Abreast v₁ ∧
    v₁.disk = v.disk := by
  rw [imagePass_eq_throughImages] at h
  obtain ⟨renamed, w₁, hnames, h⟩ := yields_bind.1 h
  obtain ⟨v₁, hnames', habreast₁, -⟩ := keepsUp_throughImages ho root habreast hbare hnames
  exact ⟨renamed, w₁, v₁, hnames, h, hnames', habreast₁, (keepsDisk_throughImages root).eq hnames'⟩

/-- In the image pass a dry run announces the renames that the run makes, whatever comes of it. -/
theorem renames_imagePass_dry : ((ImagePass.run root o.dry).outcome v).2.renames = w'.renames := by
  obtain ⟨renamed, w₁, v₁, -, hrest, hnames', habreast₁, -⟩ := exists_yields_throughImages_dry ho habreast hbare h
  rw [imagePass_eq_throughImages, outcome_bind_of_yields hnames', keepsRenames_exchangeReferences root renamed v₁,
    (keepsRenames_exchangeReferences root renamed).eq hrest, habreast₁.renames]

/-- The image pass of a dry run ends well exactly if there are no images to refer to, or each text file can be read where it
stands. -/
theorem exists_yields_imagePass_dry (hempty : w.codebook = .empty) (hd : v.disk.Distinct) :
    (∃ tally' v', (ImagePass.run root o.dry).Yields v tally' v') ↔
      (w'.codebook.isEmpty = false → v.disk.Lists root ∧ v.disk.ReadsTexts root) := by
  obtain ⟨renamed, w₁, v₁, hnames, hrest, hnames', habreast₁, hdisk⟩ := exists_yields_throughImages_dry ho habreast hbare h
  have hrun : (∃ tally' v', (ImagePass.run root o.dry).Yields v tally' v') ↔
      ∃ tally' v', (exchangeReferences root o.dry renamed).Yields v₁ tally' v' := by
    rw [imagePass_eq_throughImages]
    unfold Yields
    rw [outcome_bind_of_yields hnames']
  rw [hrun, codebook_exchangeReferences hrest]
  cases renamed with
  | none =>
    rw [(yields_throughImages hnames).1 rfl, hempty]
    exact iff_of_true ⟨_, v₁, yields_pure.2 ⟨rfl, rfl⟩⟩ fun hne => by cases hne
  | some n =>
    rw [← habreast₁.codebook, ← hdisk, ← exists_yields_rewriteTexts_dry (hdisk ▸ hd)]
    constructor
    · rintro ⟨tally', v', h⟩
      obtain ⟨_, _, hget, htexts⟩ := yields_bind.1 h
      obtain ⟨rfl, rfl⟩ := yields_get.1 hget
      exact ⟨tally', v', htexts⟩
    · rintro ⟨tally', v', htexts⟩
      exact ⟨tally', v', yields_bind.2 ⟨v₁, v₁, yields_get.2 ⟨rfl, rfl⟩, htexts⟩⟩

/-- When the image pass of a dry run ends well, it has given the names that the run gives, and has counted as many images. -/
theorem yields_imagePass_dry (hdry : (ImagePass.run root o.dry).Yields v tally' v') :
    tally'.pathsRenamed = tally.pathsRenamed ∧ v'.codebook = w'.codebook := by
  obtain ⟨renamed, w₁, v₁, -, hrest, hnames', habreast₁, -⟩ := exists_yields_throughImages_dry ho habreast hbare h
  rw [imagePass_eq_throughImages, Yields, outcome_bind_of_yields hnames'] at hdry
  rw [codebook_exchangeReferences hrest, codebook_exchangeReferences hdry, habreast₁.codebook]
  refine ⟨?_, rfl⟩
  cases renamed with
  | none => rw [(yields_pure.1 hrest).1, (yields_pure.1 hdry).1]
  | some n =>
    obtain ⟨_, _, hget, htexts⟩ := yields_bind.1 hrest
    obtain ⟨rfl, rfl⟩ := yields_get.1 hget
    obtain ⟨_, _, hget', htexts'⟩ := yields_bind.1 hdry
    obtain ⟨rfl, rfl⟩ := yields_get.1 hget'
    rw [(yields_rewriteTexts htexts).1, (yields_rewriteTexts htexts').1]

/-- It has counted as many text files, if there are as many of them below the root as when the images have been moved. -/
theorem filesProcessed_imagePass_dry (hdry : (ImagePass.run root o.dry).Yields v tally' v')
    (hcount : ∀ d, Moved o w'.codebook (imagesBelow w.disk root) w.disk d → d.Lists root →
      Rewritten o ((textsBelow d root).map fun f => (f.1, ImagePass.rewriter w'.codebook)) d w'.disk →
      (textsBelow v.disk root).length = (textsBelow d root).length) : tally'.filesProcessed = tally.filesProcessed := by
  obtain ⟨renamed, w₁, v₁, hnames, hrest, hnames', habreast₁, hdisk⟩ := exists_yields_throughImages_dry ho habreast hbare h
  rw [imagePass_eq_throughImages, Yields, outcome_bind_of_yields hnames'] at hdry
  cases renamed with
  | none => rw [(yields_pure.1 hrest).1, (yields_pure.1 hdry).1]
  | some n =>
    have hmoved := (yields_throughImages hnames).2 (by simp)
    rw [← codebook_exchangeReferences hrest] at hmoved
    obtain ⟨_, _, hget, htexts⟩ := yields_bind.1 hrest
    obtain ⟨rfl, rfl⟩ := yields_get.1 hget
    obtain ⟨_, _, hget', htexts'⟩ := yields_bind.1 hdry
    obtain ⟨rfl, rfl⟩ := yields_get.1 hget'
    rw [habreast₁.codebook] at htexts'
    refine filesProcessed_eq htexts htexts' fun hlists hrewritten => ?_
    rw [← (yields_rewriteTexts htexts).2.2.1] at hrewritten
    rw [hdisk]
    exact hcount _ hmoved hlists hrewritten

end Foretold

end Pass

namespace Project

open Pass

variable {o : Options} [WordSource σ]

/-- The first part of a run, up to the end of the class pass. -/
def throughClasses (root : Path) (o : Options) : Pass σ (Tally × Codebook) := do
  if !(← get).disk.isDirectory root then throw (.root root)
  Pass.note (.started root)
  let _ ← ImagePass.reserveNames root
  withFreshCodebook (ClassPass.run root o)

/-- A run is its first part, the image pass and the report. -/
theorem run_eq_throughClasses (root : Path) (o : Options) : (run root o : Pass σ Report) = do
    let (classes, classNames) ← throughClasses root o
    let (images, imageNames) ← withFreshCodebook (ImagePass.run root o)
    Pass.note (.finished classNames.size imageNames.size)
    return { classNames, imageNames, classes, images } := by
  unfold run throughClasses
  rw [bind_assoc]
  congr 1
  funext w
  split
  · rfl
  · simp only [bind_assoc]

/-- In a dry run the class pass leaves the disk as it is. -/
theorem keepsDisk_throughClasses (root : Path) : (throughClasses root o.dry : Pass σ (Tally × Codebook)).KeepsDisk := by
  refine keeps_bind keeps_get fun w => ?_
  split
  · exact keeps_throw_bind _ _
  · exact keeps_bind (keepsDisk_note _) fun _ => keeps_bind (keeps_reserveNames isWork_disk _) fun _ =>
      keepsDisk_withFreshCodebook (keepsDisk_classPass _)

/-- A dry run leaves the disk as it is, whether it succeeds or fails. -/
theorem keepsDisk_run (root : Path) : (run root o.dry : Pass σ Report).KeepsDisk := by
  rw [run_eq_throughClasses]
  exact keeps_bind (keepsDisk_throughClasses _) fun _ => keeps_bind (keepsDisk_withFreshCodebook (keepsDisk_imagePass _))
    fun _ => keeps_bind (keepsDisk_note _) fun _ => keeps_pure _

/-- What the first part of a run does: it finds the root, reserves the names of the images and makes the class pass. -/
theorem yields_throughClasses_iff {root : Path} {w w' : Workspace σ} {c : Tally × Codebook} :
    (throughClasses root o).Yields w c w' ↔ w.disk.isDirectory root = true ∧ ∃ images w₁,
      (ImagePass.reserveNames root).Yields { w with trace := w.trace ++ [.started root] } images w₁ ∧
      (ClassPass.run root o).Yields { w₁ with codebook := .empty } c.1 w' ∧ c.2 = w'.codebook := by
  unfold throughClasses
  simp only [yields_bind, yields_get]
  cases hdir : w.disk.isDirectory root with
  | false =>
    constructor
    · rintro ⟨_, _, ⟨rfl, rfl⟩, h⟩
      rw [hdir, if_pos (show (!false) = true from rfl)] at h
      exact absurd (yields_bind.1 h) (by simp)
    · rintro ⟨h, -⟩
      cases h
  | true =>
    constructor
    · rintro ⟨_, _, ⟨rfl, rfl⟩, h⟩
      rw [hdir, if_neg (by simp)] at h
      simp only [yields_bind, yields_note, yields_withFreshCodebook] at h
      obtain ⟨-, _, rfl, images, w₁, hreserve, hclasses⟩ := h
      exact ⟨rfl, images, w₁, hreserve, hclasses⟩
    · rintro ⟨-, images, w₁, hreserve, hclasses⟩
      refine ⟨w, w, ⟨rfl, rfl⟩, ?_⟩
      rw [hdir, if_neg (by simp)]
      simp only [yields_bind, yields_note, yields_withFreshCodebook]
      exact ⟨(), _, rfl, images, w₁, hreserve, hclasses⟩

/-- What a run has found and what it has left when it comes to the end of the class pass. -/
theorem yields_throughClasses {root : Path} {w w' : Workspace σ} {c : Tally × Codebook}
    (h : (throughClasses root o).Yields w c w') : w.disk.Lists root ∧ (w.disk.Distinct →
      w'.disk.bare = w.disk.bare ∧ (c.2.isEmpty = false → w.disk.ReadsTexts root)) := by
  obtain ⟨-, images, w₁, hreserve, hclasses, hbook⟩ := yields_throughClasses_iff.1 h
  obtain ⟨-, hlists, -, -, hwritten⟩ := yields_classPass hclasses
  have hdisk := (keeps_reserveNames isWork_disk _).eq hreserve
  simp only at hdisk hlists hwritten
  rw [hdisk] at hlists hwritten
  refine ⟨hlists, fun hd => ?_⟩
  rcases hwritten with ⟨hempty, heq⟩ | hwritten
  · rw [heq, hbook, hempty]
    exact ⟨rfl, fun hne => by cases hne⟩
  · exact ⟨hwritten.bare hd, fun _ => hwritten.readsTexts hd (ClassPass.rewriter w'.codebook)⟩

/-- Up to the end of the class pass a dry run does not differ from a run, but that it writes nothing. -/
theorem yields_throughClasses_dry (ho : o.dryRun = false) {root : Path} {w w' : Workspace σ} {c : Tally × Codebook}
    (ht : w.disk.IsTree) (h : (throughClasses root o).Yields w c w') :
    ∃ v', (throughClasses root o.dry).Yields w c v' ∧ w'.Abreast v' := by
  obtain ⟨hdir, images, w₁, hreserve, hclasses, hbook⟩ := yields_throughClasses_iff.1 h
  have hdisk := (keeps_reserveNames isWork_disk _).eq hreserve
  simp only at hdisk
  have ht₁ := ht
  have hdir₁ := hdir
  rw [← hdisk] at ht₁ hdir₁
  obtain ⟨_, v', hclasses', rfl, habreast⟩ :=
    yields_classPass_dry (w := { w₁ with codebook := .empty }) ho ht₁ hdir₁ hclasses
  refine ⟨v', yields_throughClasses_iff.2 ⟨hdir, images, w₁, hreserve, hclasses', ?_⟩, habreast⟩
  rw [habreast.codebook, hbook]

/-- What comes of a run behind the class pass is what comes of its image pass. -/
theorem outcome_run_of_yields {root : Path} {w v : Workspace σ} {c : Tally × Codebook} (h : (throughClasses root o).Yields w c v) :
    (run root o : Pass σ Report).outcome w = ((do
      let images ← ImagePass.run root o
      let b := (← get).codebook
      Pass.note (.finished c.2.size b.size)
      return { classNames := c.2, imageNames := b, classes := c.1, images }) : Pass σ Report).outcome
        { v with codebook := .empty } := by
  rw [run_eq_throughClasses, outcome_bind_of_yields h]
  unfold withFreshCodebook
  simp only [bind_assoc, pure_bind]
  exact outcome_bind_of_yields (a := ()) (yields_modify.2 rfl)

/-- A run that has come through the class pass ends well exactly if its image pass does. -/
theorem yields_run_iff {root : Path} {w v w' : Workspace σ} {c : Tally × Codebook} {report : Report}
    (h : (throughClasses root o).Yields w c v) : (run root o).Yields w report w' ↔ ∃ v',
      (ImagePass.run root o).Yields { v with codebook := .empty } report.images v' ∧
      report = { classNames := c.2, imageNames := v'.codebook, classes := c.1, images := report.images } ∧
      w' = { v' with trace := v'.trace ++ [.finished c.2.size v'.codebook.size] } := by
  rw [Yields, outcome_run_of_yields h]
  show Yields _ _ _ _ ↔ _
  simp only [yields_bind, yields_get, yields_note, yields_pure]
  constructor
  · rintro ⟨images, v', himages, _, _, ⟨rfl, rfl⟩, -, _, rfl, rfl, rfl⟩
    exact ⟨v', himages, rfl, rfl⟩
  · rintro ⟨v', himages, hreport, rfl⟩
    exact ⟨_, v', himages, v', v', ⟨rfl, rfl⟩, (), _, rfl, hreport, rfl⟩

/-- A run that ends well is its first part and the image pass. -/
theorem exists_yields_imagePass {root : Path} {w w' : Workspace σ} {report : Report} (h : (run root o).Yields w report w') :
    ∃ v v', (throughClasses root o).Yields w (report.classes, report.classNames) v ∧
      (ImagePass.run root o).Yields { v with codebook := .empty } report.images v' ∧ report.imageNames = v'.codebook ∧
      w'.disk = v'.disk ∧ w'.renames = v'.renames := by
  have hrun := h
  rw [run_eq_throughClasses] at hrun
  obtain ⟨c, v, hclasses, -⟩ := yields_bind.1 hrun
  obtain ⟨v', himages, hreport, rfl⟩ := (yields_run_iff hclasses).1 h
  rw [hreport]
  exact ⟨v, v', hclasses, himages, rfl, rfl, keeps_note isWork_renames rfl v'⟩

end Project

end Pseudonym
