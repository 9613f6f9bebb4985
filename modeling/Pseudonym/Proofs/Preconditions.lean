import Pseudonym.CommandLine.Program
import Pseudonym.Proofs.CheckedValues
import Pseudonym.Proofs.Failures
import Pseudonym.Proofs.Namings
import Pseudonym.Proofs.Sessions

/-!
# What a run can fail with

A run over a project can fail for reasons that lie with its caller: a root that is no directory, and class tokens of no
characters. Once both are ruled out, whatever is left comes from outside (`Failure.IsExternal`), which is said of every step and
then of the steps put together (`Pass.FailsExternally`). The program rules both out before it begins
(`CommandLine.run_meets_preconditions`).
-/

namespace Pseudonym

variable {σ : Type}

/-- A failure that comes from outside: a file or a listing is refused, or no new name is to be had. How the run was called has
no part in it. -/
inductive Failure.IsExternal : Failure → Prop where
  | file (path : Path) (e : DiskError) : IsExternal (.file path e)
  | listing (path : Path) (e : DiskError) : IsExternal (.listing path e)
  | exhausted (kind : TokenKind) : IsExternal (.mint (.exhausted kind))

namespace Pass

variable {α β : Type} {o : Options}

/-- Whatever a pass fails with comes from outside. -/
def FailsExternally (x : Pass σ α) : Prop := ∀ w e w', x.Fails w e w' → e.IsExternal

/-- Steps that fail from outside only do so together. -/
theorem failsExternally_bind {x : Pass σ α} {f : α → Pass σ β} (hx : x.FailsExternally) (hf : ∀ a, (f a).FailsExternally) :
    (x >>= f).FailsExternally := by
  intro w e w' h
  rcases fails_bind.1 h with h | ⟨a, v, -, h⟩
  · exact hx w e w' h
  · exact hf a v e w' h

/-- A failure that comes from outside may be thrown. -/
theorem failsExternally_throw {e : Failure} (he : e.IsExternal) : (throw e : Pass σ α).FailsExternally := by
  intro w e' w' h
  obtain ⟨rfl, -⟩ := fails_throw.1 h
  exact he

theorem failsExternally_pure (a : α) : (pure a : Pass σ α).FailsExternally := fun _ _ _ h => absurd h not_fails_pure

theorem failsExternally_get : (get : Pass σ (Workspace σ)).FailsExternally := fun _ _ _ h => absurd h not_fails_get

/-- To change the workspace does not fail at all. -/
theorem failsExternally_modify (f : Workspace σ → Workspace σ) : (modify f : Pass σ Unit).FailsExternally :=
  fun _ _ _ h => absurd h not_fails_modify

theorem failsExternally_note (n : Notice) : (note n : Pass σ Unit).FailsExternally := failsExternally_modify _

/-! ## The steps -/

/-- Files are not listed if a listing is refused. -/
theorem failsExternally_list (root : Path) (keep : Path → Bool) : (list root keep : Pass σ (List Path)).FailsExternally := by
  refine failsExternally_bind (failsExternally_note _) fun _ => failsExternally_bind failsExternally_get fun w => ?_
  split
  · exact failsExternally_throw (.listing _ _)
  · exact failsExternally_bind (failsExternally_note _) fun _ => failsExternally_pure _

/-- Text files are not listed if a listing is refused. -/
theorem failsExternally_listTexts (root : Path) (languages : List Language) :
    (listTexts root languages : Pass σ (List (Path × Language))).FailsExternally :=
  failsExternally_bind (failsExternally_list _ _) fun _ => failsExternally_pure _

/-- A text is not loaded if the file is refused. -/
theorem failsExternally_load (path : Path) : (load path : Pass σ (Text × Charset)).FailsExternally := by
  intro w e w' h
  have hread := (fails_load h).1
  unfold readFailure? at hread
  split at hread
  · cases hread
  · cases hread
    exact .file _ _

/-- A file is not moved if the disk refuses. -/
theorem failsExternally_move (old new : Path) : (move old new : Pass σ Unit).FailsExternally := by
  refine failsExternally_bind failsExternally_get fun w => ?_
  split
  · exact failsExternally_throw (.file _ _)
  · exact failsExternally_modify _

/-- A token is not minted if none is to be had, as long as it is not to be empty. -/
theorem failsExternally_mint {kind : TokenKind} {ask : Mint σ → Mint.Strike σ}
    (hask : ∀ m, (ask m).token ≠ .error .emptyClassName) : (mint kind ask).FailsExternally := by
  intro w e w' h
  obtain ⟨err, herr, rfl, -⟩ := fails_mint.1 h
  cases err with
  | emptyClassName => exact absurd herr (hask w.mint)
  | exhausted kind => exact .exhausted kind

/-- A name gets no pseudonym if none can be made. -/
theorem failsExternally_pseudonym (name : Text) {make : Pass σ Text} (hmake : make.FailsExternally) :
    (pseudonym name make).FailsExternally := fun w e w' h => hmake w e w' (fails_pseudonym.1 h).2

/-- Files are not rewritten if one of them is refused. -/
theorem failsExternally_rewriteFiles (files : List (Path × Rewriter)) :
    (rewriteFiles o files : Pass σ Nat).FailsExternally := by
  intro w e w' h
  obtain ⟨path, err, rfl⟩ := fails_rewriteFiles h
  exact .file path err

/-- The text files below a directory are not rewritten if the listing or one of them is refused. -/
theorem failsExternally_rewriteTexts (root : Path) (b : Codebook) (rewriter : Language → Rewriter) (done : Tally → Notice)
    (renamed : Nat) : (rewriteTexts root o b rewriter done renamed : Pass σ Tally).FailsExternally := by
  unfold rewriteTexts
  split
  · exact failsExternally_pure _
  · refine failsExternally_bind (failsExternally_listTexts _ _) fun _ => ?_
    exact failsExternally_bind (failsExternally_rewriteFiles _) fun _ => failsExternally_bind (failsExternally_note _) fun _ =>
      failsExternally_pure _

/-- Class names are not discovered if a file is refused. -/
theorem failsExternally_discover (paths : List Path) : (ClassPass.discover paths : Pass σ (List Text)).FailsExternally := by
  induction paths with
  | nil => exact failsExternally_pure _
  | cons path paths ih =>
    exact failsExternally_bind (failsExternally_note _) fun _ => failsExternally_bind (failsExternally_load _) fun _ =>
      failsExternally_bind ih fun _ => failsExternally_pure _

/-- The names of the images are not reserved if the listing is refused. -/
theorem failsExternally_reserveNames (root : Path) : (ImagePass.reserveNames root : Pass σ (List Path)).FailsExternally := by
  refine failsExternally_bind failsExternally_get fun w => ?_
  split
  · exact failsExternally_pure _
  · exact failsExternally_bind (failsExternally_list _ _) fun _ => failsExternally_bind (failsExternally_modify _) fun _ =>
      failsExternally_pure _

/-! ## The two passes -/

variable [WordSource σ]

/-- Only for class tokens of no characters the mint says that they have none. -/
theorem serve_ne_emptyClassName {call : Mint.Call} (hcall : call ≠ .className 0) (m : Mint σ) :
    (m.serve call).1 ≠ some (.error .emptyClassName) := by
  intro h
  rcases Mint.serve_error_iff.1 h with ⟨hzero, -⟩ | ⟨_, -, he, -⟩
  · exact hcall hzero
  · cases he

/-- A class token that is not to be empty fails only if none is left. -/
theorem failsExternally_className {length : Nat} (hlength : length ≠ 0) :
    (mint .className (Mint.className length) : Pass σ Text).FailsExternally :=
  failsExternally_mint fun m h => serve_ne_emptyClassName (hlength ∘ Mint.Call.className.inj) m (congrArg some h)

/-- A file token fails only if none is left. -/
theorem failsExternally_fileName (extension : Option Text) :
    (mint .fileName (Mint.fileName extension) : Pass σ Text).FailsExternally :=
  failsExternally_mint fun m h =>
    serve_ne_emptyClassName (Mint.Call.noConfusion : Mint.Call.fileName extension ≠ _) m (congrArg some h)

/-- Tokens that are not to be empty are assigned as long as some are left. -/
theorem failsExternally_assign {length : Nat} (hlength : length ≠ 0) (names : List Text) :
    (ClassPass.assign length names : Pass σ Unit).FailsExternally := by
  induction names with
  | nil => exact failsExternally_pure _
  | cons name names ih =>
    refine failsExternally_bind failsExternally_get fun w => ?_
    split
    · exact failsExternally_bind (failsExternally_pseudonym _ (failsExternally_className hlength)) fun _ =>
        failsExternally_bind (failsExternally_note _) fun _ => ih
    · exact ih

/-- Images are renamed as long as the disk allows and tokens are left. -/
theorem failsExternally_renameAll (paths : List Path) : (ImagePass.renameAll o paths : Pass σ Nat).FailsExternally := by
  induction paths with
  | nil => exact failsExternally_pure _
  | cons path paths ih =>
    unfold ImagePass.renameAll
    split
    · exact failsExternally_bind (failsExternally_note _) fun _ => ih
    · refine failsExternally_bind (failsExternally_pseudonym _ (failsExternally_fileName _)) fun token => ?_
      refine failsExternally_bind (failsExternally_note _) fun _ => failsExternally_bind (failsExternally_note _) fun _ => ?_
      split
      · exact failsExternally_bind (failsExternally_move _ _) fun _ => failsExternally_bind ih fun _ => failsExternally_pure _
      · exact failsExternally_bind ih fun _ => failsExternally_pure _

/-- The class pass fails from outside only, if tokens are not to be empty. -/
theorem failsExternally_classPass (root : Path) (hlength : o.classLength ≠ 0) :
    (ClassPass.run root o : Pass σ Tally).FailsExternally := by
  rw [classPass_eq]
  refine failsExternally_bind ?_ fun _ => ?_
  · unfold nameClasses
    rw [if_neg hlength]
    refine failsExternally_bind (failsExternally_note _) fun _ => ?_
    refine failsExternally_bind (failsExternally_listTexts _ _) fun _ => ?_
    exact failsExternally_bind (failsExternally_discover _) fun _ => failsExternally_bind (failsExternally_modify _) fun _ =>
      failsExternally_assign hlength _
  · exact failsExternally_bind failsExternally_get fun w => failsExternally_bind (failsExternally_note _) fun _ =>
      failsExternally_rewriteTexts _ _ _ _ _

/-- The image pass fails from outside only. -/
theorem failsExternally_imagePass (root : Path) : (ImagePass.run root o : Pass σ Tally).FailsExternally := by
  rw [imagePass_eq]
  refine failsExternally_bind failsExternally_get fun w => ?_
  split
  · exact failsExternally_bind (failsExternally_note _) fun _ => failsExternally_pure _
  · refine failsExternally_bind (failsExternally_note _) fun _ => ?_
    refine failsExternally_bind (failsExternally_reserveNames _) fun _ => ?_
    exact failsExternally_bind (failsExternally_renameAll _) fun _ => failsExternally_bind failsExternally_get fun w =>
      failsExternally_rewriteTexts _ _ _ _ _

omit [WordSource σ] in
/-- A codebook of its own makes no difference to what a pass fails with. -/
theorem failsExternally_withFreshCodebook {x : Pass σ α} (hx : x.FailsExternally) :
    (Project.withFreshCodebook x).FailsExternally :=
  failsExternally_bind (failsExternally_modify _) fun _ => failsExternally_bind hx fun _ =>
    failsExternally_bind failsExternally_get fun _ => failsExternally_pure _

/-- A run over a directory, with class tokens of at least one character, fails for what comes from outside alone. -/
theorem isExternal_of_fails_run {root : Path} {w w' : Workspace σ} {e : Failure} (hdir : w.disk.isDirectory root = true)
    (hlength : o.classLength ≠ 0) (h : (Project.run root o).Fails w e w') : e.IsExternal := by
  unfold Project.run at h
  obtain ⟨_, _, hget, h⟩ := (fails_bind.1 h).resolve_left not_fails_get
  obtain ⟨rfl, rfl⟩ := yields_get.1 hget
  rw [hdir] at h
  refine failsExternally_bind (failsExternally_note _) (fun _ => ?_) _ _ _ h
  refine failsExternally_bind (failsExternally_reserveNames _) fun _ => ?_
  refine failsExternally_bind (failsExternally_withFreshCodebook (failsExternally_classPass _ hlength)) fun _ => ?_
  refine failsExternally_bind (failsExternally_withFreshCodebook (failsExternally_imagePass _)) fun _ => ?_
  exact failsExternally_bind (failsExternally_note _) fun _ => failsExternally_pure _

end Pass

namespace CommandLine

open Settings (lengthSwitch)

/-- A run that does not get to the project does not fail in it. -/
theorem stop_ne_of_turnedAway? {s : Settings} {d : Disk} {console : Console} {o : Outcome}
    (h : turnedAway? s d console = some o) (f : Failure) : o.stop ≠ some (.failed f) := by
  unfold turnedAway? at h
  dsimp only at h
  split at h
  · cases h
    simp
  · split at h
    · cases h
      simp
    · split at h
      · cases h
        simp
      · cases h
        simp
      · cases h
      · cases h

/-- Who is not turned away has named a directory. -/
theorem isDirectory_of_turnedAway? {s : Settings} {d : Disk} {console : Console} (h : turnedAway? s d console = none) :
    d.isDirectory (s.root d) = true := by
  unfold turnedAway? at h
  dsimp only at h
  split at h
  · cases h
  · split at h
    · cases h
    · next hdir => simpa using hdir

/-- The program runs with the settings that it has read. -/
theorem run_of_parse {args : List Bytes} {s : Settings} (h : Settings.parse args = .ok s) (d : Disk) (key : Key)
    (console : Console) : run args d key console = runWith s d key console := by
  rw [run, h]

/-- The run over the project fails for what comes from outside alone. -/
theorem isExternal_of_runWith {s : Settings} (hlength : 1 ≤ s.classLength) {d : Disk} {key : Key} {console : Console}
    {f : Failure} (h : (runWith s d key console).stop = some (.failed f)) : f.IsExternal := by
  unfold runWith at h
  split at h
  · next o ho => exact absurd h (stop_ne_of_turnedAway? ho f)
  · next hnone =>
    have hdir := isDirectory_of_turnedAway? hnone
    dsimp only at h
    rcases hrun : runProject s d key with ⟨e | r, w⟩
    · rw [hrun] at h
      obtain rfl : e = f := Stop.failed.inj (Option.some.inj h)
      exact Pass.isExternal_of_fails_run (w := { disk := d, mint := _ }) hdir (Nat.one_le_iff_ne_zero.1 hlength) hrun
    · rw [hrun] at h
      cases h

/-- The program meets the conditions without which a run over a project is refused outright. If its arguments can be read, the
length of class tokens is the one that was asked for, or the usual one, and at least one character. What the run over the
project fails with comes from outside, be there a terminal to ask on or not. A target that is missing or no directory is
complained of before: the disk stays as it is, nothing is announced, and there is not even a mint to make a name. -/
theorem run_meets_preconditions {args : List Bytes} {s : Settings} (h : Settings.parse args = .ok s) (d : Disk) (key : Key)
    (console : Console) :
    1 ≤ s.classLength ∧
    (∃ r, read program args = .ok r ∧
      ((r.has lengthSwitch = false ∧ s.classLength = Token.defaultClassTokenLength) ∨
        ∃ v t, r.value? lengthSwitch = some v ∧ Utf8.decode? v = some t ∧ parseClassLength t = .ok s.classLength)) ∧
    (∀ f, (run args d key console).stop = some (.failed f) → f.IsExternal) ∧
    (d.holds (s.root d) = false → run args d key console = {
      stop := some (.noTarget (s.root d)), output := [], log := s.keptLog (openingLog s (s.root d))
      events := [], mint := none, disk := d }) ∧
    (d.holds (s.root d) = true → d.isDirectory (s.root d) = false → run args d key console = {
      stop := some (.noDirectory (s.root d)), output := [], log := s.keptLog (openingLog s (s.root d))
      events := [], mint := none, disk := d }) := by
  have hlength := Settings.one_le_classLength h
  rw [run_of_parse h]
  refine ⟨hlength, Settings.classLength_of_parse h, fun f => isExternal_of_runWith hlength, ?_, ?_⟩
  · intro hholds
    simp [runWith, turnedAway?, hholds]
  · intro hholds hdir
    simp [runWith, turnedAway?, hholds, hdir]

namespace NowhereWitness

open SiteWitness (bytes)

def args : List Bytes := [bytes "--class-length", bytes "+3", bytes "/nowhere"]

def settings : Settings := { target := some (.ofText "/nowhere".toList), classLength := 3 }

/-- The arguments are read as settings. -/
theorem parse_args : Settings.parse args = .ok settings := by
  have hparse : (Settings.parse args).toOption = some settings := by decide +kernel
  cases hs : Settings.parse args with
  | error r =>
    rw [hs] at hparse
    cases hparse
  | ok s =>
    rw [hs] at hparse
    exact congrArg Except.ok (Option.some.inj hparse)

/-- What the program comes to on a terminal where everything is agreed to. -/
def outcome : Outcome := run args SiteWitness.site.disk (.ofSeed 0) (.terminal (.ok true))

end NowhereWitness

open NowhereWitness in
open SiteWitness (site) in
/-- A directory that is not there: the program ends before it has a mint, and says so. -/
theorem run_meets_preconditions_nowhere : Settings.parse args = .ok settings ∧ 1 ≤ settings.classLength ∧
    outcome.disk = site.disk ∧ outcome.mint.isNone = true ∧ outcome.status = 1 ∧
    outcome.complaint = "Error: Target directory does not exist: \"/nowhere\"\n".toList := by
  obtain ⟨hlength, -, -, hmissing, -⟩ := run_meets_preconditions parse_args site.disk (.ofSeed 0) (.terminal (.ok true))
  have hrun := hmissing (by decide +kernel)
  refine ⟨parse_args, hlength, congrArg Outcome.disk hrun, ?_, ?_, ?_⟩
  · rw [outcome, hrun]
    rfl
  · rw [outcome, hrun]
    rfl
  · rw [outcome, hrun]
    decide +kernel

end CommandLine

end Pseudonym
