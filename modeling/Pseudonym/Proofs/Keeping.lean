import Pseudonym.Proofs.Stages

/-!
# What a pass leaves as it is

A pass keeps a part of the workspace if that part is the same afterwards, whether the pass succeeds or fails (`Pass.Keeps`). What
two passes keep, they keep one after the other, so that a proof follows the text of the pass. The steps that change no file keep what
stands apart from the log, the mint and the codebook (`Pass.IsWork`), as the disk does. The passes of a dry run keep the disk
(`Pass.keepsDisk_classPass`, `Pass.keepsDisk_imagePass`), and what rewrites the references to the images announces no rename
(`Pass.keepsRenames_references`).
-/

namespace Pseudonym

variable {σ : Type}

/-- The same options for a dry run. -/
def Options.dry (o : Options) : Options := { o with dryRun := true }

/-- Is the change a file's new path? -/
def Event.isRename : Event → Bool
  | .content _ _ _ => false
  | .rename _ _ => true

/-- What a rewriter has to tell about a text is for the log. -/
def Rewriter.OnlyLogs (r : Rewriter) : Prop := ∀ t, ∀ n ∈ r.notices t, n.event? = none

/-- The rewriter of the class pass announces nothing itself. -/
theorem ClassPass.onlyLogs_rewriter (b : Codebook) (l : Language) : (ClassPass.rewriter b l).OnlyLogs := by
  intro t n hn
  cases l with
  | stylesheet =>
    simp only [rewriter, notices] at hn
    split at hn
    · cases hn
    · rw [List.mem_singleton.1 hn]
      rfl
  | markup =>
    simp only [rewriter, notices] at hn
    split at hn
    · cases hn
    · rw [List.mem_singleton.1 hn]
      rfl
  | script =>
    obtain ⟨c, -, rfl⟩ := List.mem_map.1 hn
    rfl

/-- The rewriter of the image pass announces nothing itself. -/
theorem ImagePass.onlyLogs_rewriter (b : Codebook) : (ImagePass.rewriter b).OnlyLogs := by
  intro t n hn
  obtain ⟨c, -, rfl⟩ := List.mem_map.1 hn
  rfl

/-- The new paths that were announced, in order. -/
def Workspace.renames (w : Workspace σ) : List Event := w.events.filter Event.isRename

namespace Pass

variable {α β γ : Type} {o : Options}

/-! ## What a pass keeps -/

/-- Whatever comes of a pass, it leaves something of the workspace as it is. -/
def Keeps (x : Pass σ α) (g : Workspace σ → γ) : Prop := ∀ w, g (x.outcome w).2 = g w

section Keeps

variable {g : Workspace σ → γ}

/-- What a step keeps is the same behind it. -/
theorem Keeps.eq {x : Pass σ α} (hx : x.Keeps g) {w w' : Workspace σ} {a : α} (h : x.Yields w a w') : g w' = g w := by
  have := hx w
  rwa [h] at this

/-- What each step keeps, the steps keep together. -/
theorem keeps_bind {x : Pass σ α} {f : α → Pass σ β} (hx : x.Keeps g) (hf : ∀ a, (f a).Keeps g) : (x >>= f).Keeps g := by
  intro w
  have h := hx w
  rw [outcome_bind]
  generalize x.outcome w = r at h ⊢
  obtain ⟨e | a, v⟩ := r
  · exact h
  · exact (hf a v).trans h

/-- What is kept behind a pass is what the pass leaves, also where it fails. -/
theorem keeps_behind (x : Pass σ α) {f : α → Pass σ β} (hf : ∀ a, (f a).Keeps g) (w : Workspace σ) :
    g ((x >>= f).outcome w).2 = g (x.outcome w).2 := by
  rw [outcome_bind]
  rcases x.outcome w with ⟨e | a, v⟩
  · rfl
  · exact hf a v

theorem keeps_pure (a : α) : (pure a : Pass σ α).Keeps g := fun _ => rfl

theorem keeps_throw (e : Failure) : (throw e : Pass σ α).Keeps g := fun _ => rfl

/-- What would come after a failure does not. -/
theorem keeps_throw_bind (e : Failure) (f : α → Pass σ β) : ((throw e : Pass σ α) >>= f).Keeps g := fun _ => rfl

theorem keeps_get : (get : Pass σ (Workspace σ)).Keeps g := fun _ => rfl

/-- A change to the workspace keeps what it does not touch. -/
theorem keeps_modify {f : Workspace σ → Workspace σ} (hf : ∀ w, g (f w) = g w) : (modify f : Pass σ Unit).Keeps g := hf

end Keeps

/-! ## What the steps that change no file keep -/

/-- A part of the workspace that neither the lines of the log nor the mint nor the codebook belong to. -/
structure IsWork (g : Workspace σ → γ) : Prop where
  log : ∀ w n, n.event? = none → g { w with trace := w.trace ++ [n] } = g w
  mint : ∀ w mint, g { w with mint } = g w
  codebook : ∀ w codebook, g { w with codebook } = g w

section IsWork

variable {g : Workspace σ → γ} (hg : IsWork g)

include hg

theorem keeps_note {n : Notice} (h : n.event? = none) : (note n : Pass σ Unit).Keeps g := fun w => hg.log w n h

/-- To say things that announce no change keeps what work keeps. -/
theorem keeps_noteAll {ns : List Notice} (h : ∀ n ∈ ns, n.event? = none) : (noteAll ns : Pass σ Unit).Keeps g := by
  refine keeps_modify fun w => ?_
  induction ns generalizing w with
  | nil => rw [List.append_nil]
  | cons n ns ih =>
    rw [List.append_cons, ← hg.log w n (h n List.mem_cons_self)]
    exact ih (fun n hn => h n (List.mem_cons_of_mem _ hn)) { w with trace := w.trace ++ [n] }

/-- To read a text keeps what work keeps. -/
theorem keeps_load (path : Path) : (load path).Keeps g := by
  refine keeps_bind keeps_get fun w => ?_
  split
  · exact keeps_throw _
  · dsimp only
    split
    · exact keeps_bind (keeps_note hg rfl) fun _ => keeps_pure _
    · exact keeps_pure _

/-- To list files keeps what work keeps. -/
theorem keeps_list (root : Path) (keep : Path → Bool) : (list root keep).Keeps g := by
  refine keeps_bind (keeps_note hg rfl) fun _ => keeps_bind keeps_get fun w => ?_
  split
  · exact keeps_throw _
  · exact keeps_bind (keeps_note hg rfl) fun _ => keeps_pure _

/-- To list the text files keeps what work keeps. -/
theorem keeps_listTexts (root : Path) (languages : List Language) : (listTexts root languages).Keeps g :=
  keeps_bind (keeps_list hg _ _) fun _ => keeps_pure _

theorem keeps_reserve (names : List Text) : (reserve names).Keeps g := keeps_modify fun w => hg.mint w _

/-- To reserve the names of the images keeps what work keeps. -/
theorem keeps_reserveNames (root : Path) : (ImagePass.reserveNames root).Keeps g := by
  refine keeps_bind keeps_get fun w => ?_
  split
  · exact keeps_pure _
  · exact keeps_bind (keeps_list hg _ _) fun _ => keeps_bind (keeps_reserve hg _) fun _ => keeps_pure _

/-- To discover class names keeps what work keeps. -/
theorem keeps_discover (paths : List Path) : (ClassPass.discover paths).Keeps g := by
  induction paths with
  | nil => exact keeps_pure _
  | cons path paths ih =>
    exact keeps_bind (keeps_note hg rfl) fun _ => keeps_bind (keeps_load hg _) fun _ =>
      keeps_bind ih fun _ => keeps_pure _

/-- To mint a token keeps what work keeps. -/
theorem keeps_mint (kind : TokenKind) (ask : Mint σ → Mint.Strike σ) : (mint kind ask).Keeps g := by
  refine keeps_bind keeps_get fun w => keeps_bind (keeps_modify fun w => hg.mint w _) fun _ =>
    keeps_bind (keeps_noteAll hg fun n hn => ?_) fun _ => ?_
  · obtain ⟨t, -, rfl⟩ := List.mem_map.1 hn
    rfl
  split
  · exact keeps_pure _
  · exact keeps_throw _

/-- To give a name its pseudonym keeps what work keeps. -/
theorem keeps_pseudonym {name : Text} {make : Pass σ Text} (h : make.Keeps g) : (pseudonym name make).Keeps g := by
  refine keeps_bind keeps_get fun w => keeps_bind ?_ fun _ =>
    keeps_bind (keeps_modify fun w => hg.codebook w _) fun _ => keeps_pure _
  unfold Codebook.tryEnter
  split
  · exact keeps_pure _
  · exact keeps_bind h fun _ => keeps_pure _

/-- To assign tokens keeps what work keeps. -/
theorem keeps_assign [WordSource σ] (length : Nat) (names : List Text) : (ClassPass.assign length names).Keeps g := by
  induction names with
  | nil => exact keeps_pure _
  | cons name names ih =>
    refine keeps_bind keeps_get fun w => ?_
    split
    · exact keeps_bind (keeps_pseudonym hg (keeps_mint hg _ _)) fun _ => keeps_bind (keeps_note hg rfl) fun _ => ih
    · exact ih

/-- To name the classes keeps what work keeps. -/
theorem keeps_nameClasses [WordSource σ] (root : Path) (length : Nat) : (nameClasses root length).Keeps g := by
  unfold nameClasses
  split
  · exact keeps_throw_bind _ _
  · refine keeps_bind (keeps_note hg rfl) fun _ => keeps_bind (keeps_listTexts hg _ _) fun _ => ?_
    refine keeps_bind (keeps_discover hg _) fun _ => keeps_bind (keeps_reserve hg _) fun _ => ?_
    exact keeps_assign hg _ _

end IsWork

/-! ## The disk of a dry run -/

/-- Whatever comes of a pass, it leaves the disk as it is. -/
abbrev KeepsDisk (x : Pass σ α) : Prop := x.Keeps Workspace.disk

theorem isWork_disk : IsWork (Workspace.disk : Workspace σ → Disk) := ⟨fun _ _ _ => rfl, fun _ _ => rfl, fun _ _ => rfl⟩

theorem keepsDisk_note (n : Notice) : (note n : Pass σ Unit).KeepsDisk := fun _ => rfl

theorem keepsDisk_noteAll (ns : List Notice) : (noteAll ns : Pass σ Unit).KeepsDisk := fun _ => rfl

/-- A dry run leaves the disk as it is when it rewrites a file. -/
theorem keepsDisk_rewriteFile (path : Path) (r : Rewriter) : (rewriteFile o.dry path r : Pass σ Bool).KeepsDisk := by
  refine keeps_bind (keepsDisk_note _) fun _ => keeps_bind (keeps_load isWork_disk _) fun _ =>
    keeps_bind (keepsDisk_noteAll _) fun _ => ?_
  split
  · exact keeps_pure _
  · exact keeps_bind (keepsDisk_note _) fun _ => keeps_bind (keepsDisk_note _) fun _ => keeps_pure _

/-- A dry run leaves the disk as it is when it rewrites files. -/
theorem keepsDisk_rewriteFiles (files : List (Path × Rewriter)) : (rewriteFiles o.dry files : Pass σ Nat).KeepsDisk := by
  induction files with
  | nil => exact keeps_pure _
  | cons f files ih =>
    exact keeps_bind (keepsDisk_rewriteFile _ _) fun _ => keeps_bind ih fun _ => keeps_pure _

/-- A dry run leaves the disk as it is when it rewrites the text files below a directory. -/
theorem keepsDisk_rewriteTexts (root : Path) (b : Codebook) (rewriter : Language → Rewriter) (done : Tally → Notice)
    (renamed : Nat) : (rewriteTexts root o.dry b rewriter done renamed : Pass σ Tally).KeepsDisk := by
  unfold rewriteTexts
  split
  · exact keeps_pure _
  · exact keeps_bind (keeps_listTexts isWork_disk _ _) fun _ => keeps_bind (keepsDisk_rewriteFiles _) fun _ =>
      keeps_bind (keepsDisk_note _) fun _ => keeps_pure _

variable [WordSource σ]

/-- A dry run leaves the disk as it is when it renames images. -/
theorem keepsDisk_renameAll (paths : List Path) : (ImagePass.renameAll o.dry paths : Pass σ Nat).KeepsDisk := by
  induction paths with
  | nil => exact keeps_pure _
  | cons path paths ih =>
    unfold ImagePass.renameAll
    split
    · exact keeps_bind (keepsDisk_note _) fun _ => ih
    · exact keeps_bind (keeps_pseudonym isWork_disk (keeps_mint isWork_disk _ _)) fun _ => keeps_bind (keepsDisk_note _) fun _ =>
        keeps_bind (keepsDisk_note _) fun _ => keeps_bind ih fun _ => keeps_pure _

/-- A dry run leaves the disk as it is in the class pass. -/
theorem keepsDisk_classPass (root : Path) : (ClassPass.run root o.dry : Pass σ Tally).KeepsDisk := by
  rw [classPass_eq]
  refine keeps_bind (keeps_nameClasses isWork_disk _ _) fun _ => keeps_bind keeps_get fun w => ?_
  exact keeps_bind (keepsDisk_note _) fun _ => keepsDisk_rewriteTexts _ _ _ _ _

/-- A dry run leaves the disk as it is in the image pass. -/
theorem keepsDisk_imagePass (root : Path) : (ImagePass.run root o.dry : Pass σ Tally).KeepsDisk := by
  rw [imagePass_eq]
  refine keeps_bind keeps_get fun w => ?_
  split
  · exact keeps_bind (keepsDisk_note _) fun _ => keeps_pure _
  · refine keeps_bind (keepsDisk_note _) fun _ => keeps_bind (keeps_reserveNames isWork_disk _) fun _ => ?_
    exact keeps_bind (keepsDisk_renameAll _) fun _ => keeps_bind keeps_get fun w => keepsDisk_rewriteTexts _ _ _ _ _

omit [WordSource σ] in
/-- A codebook of its own makes no difference to what a pass does to the disk. -/
theorem keepsDisk_withFreshCodebook {x : Pass σ α} (hx : x.KeepsDisk) : (Project.withFreshCodebook x).KeepsDisk :=
  keeps_bind (keeps_modify fun _ => rfl) fun _ => keeps_bind hx fun _ => keeps_bind keeps_get fun _ =>
    keeps_pure _

end Pass

/-! ## The renames of a pass that only rewrites -/

namespace Pass

variable {o : Options}

/-- What is said renames no file unless it announces that. -/
theorem keepsRenames_note {n : Notice} (h : ∀ e, n.event? = some e → e.isRename = false) :
    (note n : Pass σ Unit).Keeps Workspace.renames := by
  have hnone : ([n].filterMap Notice.event?).filter Event.isRename = [] := by
    rw [List.filter_eq_nil_iff]
    intro e he
    obtain ⟨n', hn, hne⟩ := List.mem_filterMap.1 he
    obtain rfl := List.mem_singleton.1 hn
    rw [h e hne]
    exact Bool.false_ne_true
  refine keeps_modify fun w => ?_
  rw [Workspace.renames, Workspace.renames, Workspace.events, List.filterMap_append, List.filter_append, hnone, List.append_nil]
  rfl

/-- Work renames no file. -/
theorem isWork_renames : IsWork (Workspace.renames : Workspace σ → List Event) where
  log := by
    intro w n h
    refine keepsRenames_note (fun e he => ?_) w
    rw [h] at he
    cases he
  mint := fun _ _ => rfl
  codebook := fun _ _ => rfl

/-- To write a text renames no file. -/
theorem keepsRenames_save (path : Path) (t : Text) (charset : Charset) :
    (save path t charset : Pass σ Unit).Keeps Workspace.renames := by
  refine keeps_bind keeps_get fun w => ?_
  split
  · exact keeps_throw _
  · exact keeps_modify fun _ => rfl

/-- To rewrite a file renames none. -/
theorem keepsRenames_rewriteFile (path : Path) {r : Rewriter} (hr : r.OnlyLogs) :
    (rewriteFile o path r : Pass σ Bool).Keeps Workspace.renames := by
  refine keeps_bind (keeps_note isWork_renames rfl) fun _ => keeps_bind (keeps_load isWork_renames _) fun q => ?_
  refine keeps_bind (keeps_noteAll isWork_renames (hr _)) fun _ => ?_
  split
  · exact keeps_pure _
  · refine keeps_bind (keepsRenames_note fun e he => ?_) fun _ => keeps_bind (keeps_note isWork_renames rfl) fun _ => ?_
    · cases he
      rfl
    split
    · exact keeps_bind (keepsRenames_save _ _ _) fun _ => keeps_pure _
    · exact keeps_pure _

/-- To rewrite files renames none. -/
theorem keepsRenames_rewriteFiles {files : List (Path × Rewriter)} (h : ∀ f ∈ files, f.2.OnlyLogs) :
    (rewriteFiles o files : Pass σ Nat).Keeps Workspace.renames := by
  induction files with
  | nil => exact keeps_pure _
  | cons f files ih =>
    exact keeps_bind (keepsRenames_rewriteFile _ (h f List.mem_cons_self)) fun _ =>
      keeps_bind (ih fun f' hf' => h f' (List.mem_cons_of_mem _ hf')) fun _ => keeps_pure _

/-- Rewriting the references to the images renames no file. -/
theorem keepsRenames_references (root : Path) (b : Codebook) (renamed : Nat) :
    (rewriteTexts root o b (fun _ => ImagePass.rewriter b) .imagePassDone renamed : Pass σ Tally).Keeps Workspace.renames := by
  unfold rewriteTexts
  split
  · exact keeps_pure _
  · refine keeps_bind (keeps_listTexts isWork_renames _ _) fun _ => keeps_bind (keepsRenames_rewriteFiles ?_) fun _ =>
      keeps_bind (keeps_note isWork_renames rfl) fun _ => keeps_pure _
    intro f hf
    obtain ⟨g, -, rfl⟩ := List.mem_map.1 hf
    exact ImagePass.onlyLogs_rewriter b

end Pass

end Pseudonym
