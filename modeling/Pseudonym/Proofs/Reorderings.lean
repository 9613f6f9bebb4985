import Pseudonym.Proofs.Keeping
import Pseudonym.Proofs.Runs
import Pseudonym.Proofs.Visits

/-!
# Disks in another order

A disk holds its entries in the order in which they are enumerated. Two disks that differ in nothing else (`Disk.Reordered`)
answer every question alike, and list alike, since the entries of a directory are sorted by names that no two of them share
(`sortByName_perm_eq`). Every change is refused on both for one reason or leaves them as alike as before (`Reordered.Alike`).
So the order has no part in what comes of a step of a pass (`Pass.IgnoresOrder`), nor in what comes of two such steps one after
the other, nor in what comes of a run (`run_in_any_order`).
-/

namespace Pseudonym

/-! ## Disks that differ in the order of their entries -/

namespace Disk

/-- The disks have the same entries, one at a location: they differ at most in the order in which they are enumerated. -/
structure Reordered (d d' : Disk) : Prop where
  distinct : d.Distinct
  entries : d'.entries.Perm d.entries
  workingDirectory : d'.workingDirectory = d.workingDirectory
  refused : d'.refused = d.refused

/-! ### The order of names -/

/-- Names are ordered. -/
theorem nameLe_trans {a b c : Name} (hab : nameLe a b = true) (hbc : nameLe b c = true) : nameLe a c = true := by
  induction a generalizing b c with
  | nil => rfl
  | cons x a ih =>
    cases b with
    | nil => cases hab
    | cons y b =>
      cases c with
      | nil => cases hbc
      | cons z c =>
        simp only [nameLe, Bool.or_eq_true, decide_eq_true_eq, Bool.and_eq_true, beq_iff_eq] at hab hbc ⊢
        rcases hab with hab | ⟨rfl, hab⟩
        · rcases hbc with hbc | ⟨rfl, -⟩
          · exact .inl (UInt8.lt_trans hab hbc)
          · exact .inl hab
        · rcases hbc with hbc | ⟨rfl, hbc⟩
          · exact .inl hbc
          · exact .inr ⟨rfl, ih hab hbc⟩

/-- Two names that each come no later than the other are one. -/
theorem nameLe_antisymm {a b : Name} (hab : nameLe a b = true) (hba : nameLe b a = true) : a = b := by
  induction a generalizing b with
  | nil =>
    cases b with
    | nil => rfl
    | cons y b => cases hba
  | cons x a ih =>
    cases b with
    | nil => cases hab
    | cons y b =>
      simp only [nameLe, Bool.or_eq_true, decide_eq_true_eq, Bool.and_eq_true, beq_iff_eq] at hab hba
      rcases hab with hab | ⟨rfl, hab⟩
      · rcases hba with hba | ⟨rfl, -⟩
        · exact absurd hba (UInt8.lt_asymm hab)
        · exact absurd hab (UInt8.lt_irrefl _)
      · rcases hba with hba | ⟨-, hba⟩
        · exact absurd hba (UInt8.lt_irrefl _)
        · rw [ih hab hba]

/-- Of two names one comes no later. -/
theorem nameLe_total (a b : Name) : nameLe a b = true ∨ nameLe b a = true := by
  induction a generalizing b with
  | nil => exact .inl rfl
  | cons x a ih =>
    cases b with
    | nil => exact .inr rfl
    | cons y b =>
      simp only [nameLe, Bool.or_eq_true, decide_eq_true_eq, Bool.and_eq_true, beq_iff_eq]
      by_cases hlt : x < y
      · exact .inl (.inl hlt)
      by_cases hgt : y < x
      · exact .inr (.inl hgt)
      obtain rfl : x = y := UInt8.le_antisymm (UInt8.not_lt.1 hgt) (UInt8.not_lt.1 hlt)
      exact (ih b).imp (fun h => .inr ⟨rfl, h⟩) fun h => .inr ⟨rfl, h⟩

/-- Does an entry come no later than another by its name? -/
abbrev ByName (x y : Name × Entry) : Prop := nameLe x.1 y.1 = true

/-- An entry that is put in its place leaves the others in order. -/
theorem pairwise_insertByName {e : Name × Entry} {es : List (Name × Entry)} (h : es.Pairwise ByName) :
    (insertByName e es).Pairwise ByName := by
  induction es with
  | nil => exact List.pairwise_singleton _ _
  | cons x es ih =>
    rw [List.pairwise_cons] at h
    rw [insertByName]
    split
    · next hle =>
      refine List.pairwise_cons.2 ⟨?_, List.pairwise_cons.2 h⟩
      intro y hy
      rcases List.mem_cons.1 hy with rfl | hy
      · exact hle
      · exact nameLe_trans hle (h.1 y hy)
    · next hle =>
      refine List.pairwise_cons.2 ⟨?_, ih h.2⟩
      intro y hy
      rcases List.mem_cons.1 ((insertByName_perm e es).mem_iff.1 hy) with rfl | hy
      · exact (nameLe_total _ _).resolve_left hle
      · exact h.1 y hy

/-- Sorted entries are in order. -/
theorem pairwise_sortByName (es : List (Name × Entry)) : (sortByName es).Pairwise ByName := by
  induction es with
  | nil => exact .nil
  | cons e es ih => exact pairwise_insertByName ih

/-- Entries with names of their own have one order. -/
theorem sortByName_perm_eq {es es' : List (Name × Entry)} (hnames : (es.map (·.1)).Nodup) (h : es'.Perm es) :
    sortByName es' = sortByName es := by
  have hperm : (sortByName es').Perm (sortByName es) := (sortByName_perm es').trans (h.trans (sortByName_perm es).symm)
  refine hperm.eq_of_pairwise ?_ (pairwise_sortByName es') (pairwise_sortByName es)
  intro x y hx hy hxy hyx
  have hx := (sortByName_perm es).mem_iff.1 (hperm.mem_iff.1 hx)
  have hy := (sortByName_perm es).mem_iff.1 hy
  exact List.inj_on_of_nodup_map hnames hx hy (nameLe_antisymm hxy hyx)

namespace Reordered

variable {d d' : Disk}

/-! ### What is found -/

/-- The other disk is as distinct. -/
theorem distinct' (h : d.Reordered d') : d'.Distinct := (h.entries.map _).nodup_iff.2 h.distinct

/-- The same entry stands at a location. -/
theorem entry? (h : d.Reordered d') (loc : Location) : d'.entry? loc = d.entry? loc := by
  by_cases hloc : loc = []
  · rw [hloc]
    rfl
  · refine Option.ext fun e => ?_
    rw [h.distinct'.entry?_eq_some_iff hloc, h.distinct.entry?_eq_some_iff hloc, h.entries.mem_iff]

/-- The same locations are directories. -/
theorem isDirectoryAt (h : d.Reordered d') (loc : Location) : d'.isDirectoryAt loc = d.isDirectoryAt loc := by
  unfold Disk.isDirectoryAt
  rw [h.entry?]

/-- The way down is the same. -/
theorem descend (h : d.Reordered d') (last : LastName) (onLink : Location → List Name → Except DiskError Location)
    (loc : Location) (ns : List Name) : d'.descend last onLink loc ns = d.descend last onLink loc ns := by
  induction ns generalizing loc with
  | nil => rfl
  | cons n ns ih =>
    unfold Disk.descend
    rw [h.isDirectoryAt, h.entry?, ih, ih]
    rcases d.entry? (loc ++ [n]) with _ | _ | _ | _ <;> simp only [ih]

/-- The way through links is the same. -/
theorem follow (h : d.Reordered d') (last : LastName) (links : Nat) : d'.follow last links = d.follow last links := by
  induction links with
  | zero =>
    funext loc ns
    exact h.descend last _ loc ns
  | succ links ih =>
    funext loc ns
    rw [Disk.follow, Disk.follow, ih, h.descend]

/-- A path leads to the same location. -/
theorem locate (h : d.Reordered d') (last : LastName) (p : Path) : d'.locate last p = d.locate last p := by
  unfold Disk.locate
  rw [h.follow, h.workingDirectory]

/-- A path leads to the same entry. -/
theorem status (h : d.Reordered d') (last : LastName) (p : Path) : d'.status last p = d.status last p := by
  unfold Disk.status
  rw [h.locate]
  simp only [h.entry?]

/-- The same paths lead to directories. -/
theorem isDirectory (h : d.Reordered d') (p : Path) : d'.isDirectory p = d.isDirectory p := by
  unfold Disk.isDirectory
  rw [h.status]

/-- The same requests are refused. -/
theorem allow (h : d.Reordered d') (r : Request) : d'.allow r = d.allow r := by
  unfold Disk.allow
  rw [h.refused]

/-- The same bytes are read. -/
theorem read (h : d.Reordered d') (p : Path) : d'.read p = d.read p := by
  unfold Disk.read
  rw [h.status]
  simp only [h.allow]

/-- A path is split at the same directory. -/
theorem splitLast (h : d.Reordered d') (p : Path) : d'.splitLast p = d.splitLast p := by
  unfold Disk.splitLast
  rw [h.follow, h.workingDirectory]
  simp only [h.isDirectoryAt]

/-! ### What is listed -/

/-- A directory has the same children, sorted by name. -/
theorem sortByName_children (h : d.Reordered d') (dir : Location) :
    sortByName (d'.children dir) = sortByName (d.children dir) :=
  sortByName_perm_eq (h.distinct.children dir) (h.entries.filterMap _)

/-- The disks are equally deep. -/
theorem depth (h : d.Reordered d') : d'.depth = d.depth := by
  unfold Disk.depth
  exact h.entries.foldr_eq' (fun x _ y _ n => by omega) 0

/-- A walk of limited depth meets the same. -/
theorem walkFrom (h : d.Reordered d') (n : Nat) (path : Path) (loc : Location) :
    d'.walkFrom n path loc = d.walkFrom n path loc := by
  induction n generalizing path loc with
  | zero => rfl
  | succ n ih => simp only [Disk.walkFrom, h.sortByName_children, ih]

/-- A walk meets the same. -/
theorem walk (h : d.Reordered d') (path : Path) (loc : Location) : d'.walk path loc = d.walk path loc := by
  rw [Disk.walk, Disk.walk, h.depth, h.walkFrom]

/-- The same files are listed. -/
theorem files (h : d.Reordered d') (root : Path) : d'.files root = d.files root := by
  unfold Disk.files
  simp only [h.status, h.walk]

/-! ### What is changed -/

omit d' in
/-- An entry is found at the locations of entries. -/
theorem isSome_lookup {loc : Location} : (d.entries.lookup loc).isSome = true ↔ loc ∈ d.entries.map (·.1) := by
  rw [Option.isSome_iff_ne_none, ne_eq, List.lookup_eq_none_iff]
  constructor
  · intro h
    by_contra hloc
    exact h fun x hx => bne_iff_ne.2 fun he => hloc (he ▸ List.mem_map_of_mem hx)
  · intro h hnone
    obtain ⟨x, hx, rfl⟩ := List.mem_map.1 h
    exact bne_iff_ne.1 (hnone x hx) rfl

/-- An entry that is put on both leaves the same entries on both. -/
theorem put (h : d.Reordered d') (loc : Location) (e : Entry) : (d.put loc e).Reordered (d'.put loc e) := by
  have hsome : (d'.entries.lookup loc).isSome = (d.entries.lookup loc).isSome := by
    rw [Bool.eq_iff_iff, isSome_lookup, isSome_lookup, (h.entries.map _).mem_iff]
  unfold Disk.put
  rw [hsome]
  split
  · refine ⟨?_, h.entries.map _, h.workingDirectory, h.refused⟩
    have hmap : (d.entries.map fun x => if x.1 = loc then (loc, e) else x).map (·.1) = d.entries.map (·.1) := by
      rw [List.map_map]
      refine List.map_congr_left fun x _ => ?_
      by_cases hx : x.1 = loc <;> simp [hx]
    rw [Distinct, hmap]
    exact h.distinct
  · next hnone =>
    refine ⟨?_, h.entries.append_right _, h.workingDirectory, h.refused⟩
    rw [isSome_lookup] at hnone
    have hnodup := h.distinct.concat hnone
    rw [List.concat_eq_append] at hnodup
    rwa [Distinct, List.map_append]

/-- An entry that is moved on both leaves the same entries on both. -/
theorem relocate (h : d.Reordered d') (old new : Location) : (d.relocate old new).Reordered (d'.relocate old new) := by
  unfold Disk.relocate
  split
  · exact h
  · next hne =>
    refine ⟨?_, (h.entries.filter _).map _, h.workingDirectory, h.refused⟩
    rw [Distinct, List.map_map]
    refine List.Nodup.map_on ?_ ((List.Nodup.of_map _ h.distinct).filter _)
    intro x hx y hy hxy
    obtain ⟨hx, hxnew⟩ := List.mem_filter.1 hx
    obtain ⟨hy, hynew⟩ := List.mem_filter.1 hy
    refine List.inj_on_of_nodup_map h.distinct hx hy ?_
    by_cases hxold : x.1 = old
    · by_cases hyold : y.1 = old
      · rw [hxold, hyold]
      · simp [hxold, hyold] at hxy
        simp [hxy] at hynew
    · by_cases hyold : y.1 = old
      · simp [hxold, hyold] at hxy
        simp [hxy] at hxnew
      · simpa [hxold, hyold] using hxy

/-- A change is refused on both disks for the same reason, or it leaves the same entries on both. -/
def Alike (x y : Except DiskError Disk) : Prop :=
  (∃ e, x = .error e ∧ y = .error e) ∨ ∃ d d', x = .ok d ∧ y = .ok d' ∧ d.Reordered d'

theorem alike_error (e : DiskError) : Alike (.error e) (.error e) := .inl ⟨e, rfl, rfl⟩

/-- What is alike in either case is alike. -/
theorem alike_ite {c : Prop} [Decidable c] {x x' y y' : Except DiskError Disk} (h : Alike x y) (h' : Alike x' y') :
    Alike (if c then x else x') (if c then y else y') := by
  split
  · exact h
  · exact h'

/-- What both disks answer alike may be asked before the change. -/
theorem alike_bind {α : Type} (x : Except DiskError α) {f g : α → Except DiskError Disk} (h : ∀ a, Alike (f a) (g a)) :
    Alike (x >>= f) (x >>= g) := by
  cases x with
  | error e => exact alike_error e
  | ok a => exact h a

/-- A file that is written on both is refused or leaves the same entries. -/
theorem write (h : d.Reordered d') (p : Path) (content : Bytes) : Alike (d.write p content) (d'.write p content) := by
  unfold Disk.write
  rw [h.locate]
  refine alike_bind _ fun loc => ?_
  rw [h.entry?]
  split
  · exact alike_error _
  · rw [h.allow]
    exact alike_bind _ fun _ => .inr ⟨_, _, rfl, rfl, h.put loc _⟩

/-- A file that is moved on both is refused or leaves the same entries. -/
theorem move (h : d.Reordered d') (old new : Path) : Alike (d.move old new) (d'.move old new) := by
  unfold Disk.move
  rw [h.splitLast, h.splitLast]
  refine alike_bind _ fun _ => alike_bind _ fun _ => alike_bind _ fun r => alike_bind _ fun r' => ?_
  refine alike_ite (alike_error _) (alike_ite (alike_error _) ?_)
  rw [h.entry?]
  split
  · exact alike_error _
  · exact alike_error _
  · rw [h.isDirectoryAt]
    refine alike_ite (alike_error _) (alike_ite (alike_error _) (alike_ite (alike_error _) (alike_ite (alike_error _) ?_)))
    rw [h.allow]
    exact alike_bind _ fun _ => .inr ⟨_, _, rfl, rfl, h.relocate _ _⟩

end Reordered

end Disk

/-! ## Passes -/

variable {σ : Type}

/-- Two workspaces that differ at most in the order of the entries on the disk. -/
structure Workspace.Reordered (w w' : Workspace σ) : Prop where
  disk : w.disk.Reordered w'.disk
  mint : w'.mint = w.mint
  codebook : w'.codebook = w.codebook
  trace : w'.trace = w.trace

namespace Pass

variable {α β : Type} {o : Options}

/-- Whatever comes of a pass, the order of the entries on the disk has no part in it: the value or the failure is the same, and
the workspaces that are left differ at most in that order. -/
def IgnoresOrder (x : Pass σ α) : Prop :=
  ∀ ⦃w w'⦄, w.Reordered w' → (x.outcome w').1 = (x.outcome w).1 ∧ (x.outcome w).2.Reordered (x.outcome w').2

theorem ignoresOrder_pure (a : α) : (pure a : Pass σ α).IgnoresOrder := fun _ _ h => ⟨rfl, h⟩

theorem ignoresOrder_throw (e : Failure) : (throw e : Pass σ α).IgnoresOrder := fun _ _ h => ⟨rfl, h⟩

theorem ignoresOrder_throw_bind (e : Failure) (f : α → Pass σ β) : ((throw e : Pass σ α) >>= f).IgnoresOrder :=
  fun _ _ h => ⟨rfl, h⟩

/-- Steps that ignore the order do so together. -/
theorem ignoresOrder_bind {x : Pass σ α} {f : α → Pass σ β} (hx : x.IgnoresOrder) (hf : ∀ a, (f a).IgnoresOrder) :
    (x >>= f).IgnoresOrder := by
  intro w w' h
  obtain ⟨hvalue, hleft⟩ := hx h
  rw [outcome_bind, outcome_bind]
  generalize x.outcome w = r at hvalue hleft ⊢
  generalize x.outcome w' = r' at hvalue hleft ⊢
  obtain ⟨e | a, v⟩ := r
  · obtain ⟨_, v'⟩ := r'
    cases hvalue
    exact ⟨rfl, hleft⟩
  · obtain ⟨_, v'⟩ := r'
    cases hvalue
    exact hf a hleft

/-- What is asked of the workspace may be anything that does not show the order. -/
theorem ignoresOrder_get {f : Workspace σ → Pass σ α} (hf : ∀ ⦃w w'⦄, w.Reordered w' → f w' = f w)
    (h : ∀ w, (f w).IgnoresOrder) : (get >>= f).IgnoresOrder := by
  intro w w' hw
  have hget (v : Workspace σ) : (get >>= f : Pass σ α).outcome v = (f v).outcome v := rfl
  rw [hget, hget, hf hw]
  exact h w hw

/-- A change to the workspace ignores the order if it leaves the same entries. -/
theorem ignoresOrder_modify {f : Workspace σ → Workspace σ} (hf : ∀ ⦃w w'⦄, w.Reordered w' → (f w).Reordered (f w')) :
    (modify f : Pass σ Unit).IgnoresOrder := fun _ _ h => ⟨rfl, hf h⟩

/-- What is said ignores the order. -/
theorem ignoresOrder_noteAll (ns : List Notice) : (noteAll ns : Pass σ Unit).IgnoresOrder :=
  ignoresOrder_modify fun _ _ h => ⟨h.disk, h.mint, h.codebook, congrArg (· ++ ns) h.trace⟩

theorem ignoresOrder_note (n : Notice) : (note n : Pass σ Unit).IgnoresOrder := ignoresOrder_noteAll [n]

/-- To reserve names ignores the order. -/
theorem ignoresOrder_reserve (names : List Text) : (reserve names : Pass σ Unit).IgnoresOrder :=
  ignoresOrder_modify fun _ _ h => ⟨h.disk, congrArg (·.reserveAll names) h.mint, h.codebook, h.trace⟩

/-- A listing ignores the order. -/
theorem ignoresOrder_list (root : Path) (keep : Path → Bool) : (list root keep : Pass σ (List Path)).IgnoresOrder := by
  refine ignoresOrder_bind (ignoresOrder_note _) fun _ => ignoresOrder_get ?_ fun w => ?_
  · intro w w' h
    rw [h.disk.files]
  · split
    · exact ignoresOrder_throw _
    · exact ignoresOrder_bind (ignoresOrder_note _) fun _ => ignoresOrder_pure _

/-- The listing of text files ignores the order. -/
theorem ignoresOrder_listTexts (root : Path) (languages : List Language) :
    (listTexts root languages : Pass σ (List (Path × Language))).IgnoresOrder :=
  ignoresOrder_bind (ignoresOrder_list _ _) fun _ => ignoresOrder_pure _

/-- To read a text ignores the order. -/
theorem ignoresOrder_load (path : Path) : (load path : Pass σ (Text × Charset)).IgnoresOrder := by
  refine ignoresOrder_get ?_ fun w => ?_
  · intro w w' h
    rw [h.disk.read]
  · split
    · exact ignoresOrder_throw _
    · dsimp only
      split
      · exact ignoresOrder_bind (ignoresOrder_note _) fun _ => ignoresOrder_pure _
      · exact ignoresOrder_pure _

/-- A change of the disk that is the same on both disks. -/
theorem ignoresOrder_change {change : Disk → Except DiskError Disk} {fail : DiskError → Failure}
    (hchange : ∀ ⦃d d'⦄, d.Reordered d' → Disk.Reordered.Alike (change d) (change d')) :
    (do match change (← get).disk with
      | .error e => throw (fail e)
      | .ok disk => modify fun w => { w with disk } : Pass σ Unit).IgnoresOrder := by
  intro w w' h
  have houtcome (v : Workspace σ) : (do match change (← get).disk with
      | .error e => throw (fail e)
      | .ok disk => modify fun w => { w with disk } : Pass σ Unit).outcome v =
      match change v.disk with
      | .error e => (.error (fail e), v)
      | .ok disk => (.ok (), { v with disk }) := by
    show (match change v.disk with
      | .error e => throw (fail e)
      | .ok disk => modify fun w => { w with disk } : Pass σ Unit).outcome v = _
    cases change v.disk <;> rfl
  rw [houtcome, houtcome]
  obtain ⟨e, he, he'⟩ | ⟨d, d', hd, hd', hdisk⟩ := hchange h.disk
  · rw [he, he']
    exact ⟨rfl, h⟩
  · rw [hd, hd']
    exact ⟨rfl, hdisk, h.mint, h.codebook, h.trace⟩

/-- To write a text ignores the order. -/
theorem ignoresOrder_save (path : Path) (t : Text) (charset : Charset) : (save path t charset : Pass σ Unit).IgnoresOrder :=
  ignoresOrder_change fun _ _ h => h.write path (charset.encode t)

/-- To move a file ignores the order. -/
theorem ignoresOrder_move (old new : Path) : (move old new : Pass σ Unit).IgnoresOrder :=
  ignoresOrder_change fun _ _ h => h.move old new

/-- To mint a token ignores the order. -/
theorem ignoresOrder_mint (kind : TokenKind) (ask : Mint σ → Mint.Strike σ) : (mint kind ask).IgnoresOrder := by
  refine ignoresOrder_get ?_ fun w => ?_
  · intro w w' h
    rw [h.mint]
  · refine ignoresOrder_bind (ignoresOrder_modify fun _ _ h => ⟨h.disk, rfl, h.codebook, h.trace⟩) fun _ => ?_
    refine ignoresOrder_bind (ignoresOrder_noteAll _) fun _ => ?_
    split
    · exact ignoresOrder_pure _
    · exact ignoresOrder_throw _

/-- To give a name its pseudonym ignores the order. -/
theorem ignoresOrder_pseudonym (name : Text) {make : Pass σ Text} (hmake : make.IgnoresOrder) :
    (pseudonym name make).IgnoresOrder := by
  refine ignoresOrder_get ?_ fun w => ?_
  · intro w w' h
    rw [h.codebook]
  · refine ignoresOrder_bind ?_ fun r => ?_
    · unfold Codebook.tryEnter
      split
      · exact ignoresOrder_pure _
      · exact ignoresOrder_bind hmake fun _ => ignoresOrder_pure _
    · exact ignoresOrder_bind (ignoresOrder_modify fun _ _ h => ⟨h.disk, h.mint, rfl, h.trace⟩) fun _ => ignoresOrder_pure _

/-! ### Rewriting -/

/-- To rewrite a file ignores the order. -/
theorem ignoresOrder_rewriteFile (path : Path) (r : Rewriter) : (rewriteFile o path r : Pass σ Bool).IgnoresOrder := by
  refine ignoresOrder_bind (ignoresOrder_note _) fun _ => ignoresOrder_bind (ignoresOrder_load _) fun q =>
    ignoresOrder_bind (ignoresOrder_noteAll _) fun _ => ?_
  split
  · exact ignoresOrder_pure _
  · refine ignoresOrder_bind (ignoresOrder_note _) fun _ => ignoresOrder_bind (ignoresOrder_note _) fun _ => ?_
    split
    · exact ignoresOrder_bind (ignoresOrder_save _ _ _) fun _ => ignoresOrder_pure _
    · exact ignoresOrder_pure _

/-- To rewrite files ignores the order. -/
theorem ignoresOrder_rewriteFiles (files : List (Path × Rewriter)) : (rewriteFiles o files : Pass σ Nat).IgnoresOrder := by
  induction files with
  | nil => exact ignoresOrder_pure _
  | cons f files ih =>
    exact ignoresOrder_bind (ignoresOrder_rewriteFile _ _) fun _ => ignoresOrder_bind ih fun _ => ignoresOrder_pure _

/-- To rewrite the text files below a directory ignores the order. -/
theorem ignoresOrder_rewriteTexts (root : Path) (b : Codebook) (rewriter : Language → Rewriter) (done : Tally → Notice)
    (renamed : Nat) : (rewriteTexts root o b rewriter done renamed : Pass σ Tally).IgnoresOrder := by
  unfold rewriteTexts
  split
  · exact ignoresOrder_pure _
  · exact ignoresOrder_bind (ignoresOrder_listTexts _ _) fun _ => ignoresOrder_bind (ignoresOrder_rewriteFiles _) fun _ =>
      ignoresOrder_bind (ignoresOrder_note _) fun _ => ignoresOrder_pure _

/-! ### The two passes -/

/-- To discover class names ignores the order. -/
theorem ignoresOrder_discover (paths : List Path) : (ClassPass.discover paths : Pass σ (List Text)).IgnoresOrder := by
  induction paths with
  | nil => exact ignoresOrder_pure _
  | cons path paths ih =>
    exact ignoresOrder_bind (ignoresOrder_note _) fun _ => ignoresOrder_bind (ignoresOrder_load _) fun _ =>
      ignoresOrder_bind ih fun _ => ignoresOrder_pure _

/-- To reserve the names of the images ignores the order. -/
theorem ignoresOrder_reserveNames (root : Path) : (ImagePass.reserveNames root : Pass σ (List Path)).IgnoresOrder := by
  refine ignoresOrder_get ?_ fun w => ?_
  · intro w w' h
    rw [h.disk.isDirectory]
  · split
    · exact ignoresOrder_pure _
    · exact ignoresOrder_bind (ignoresOrder_list _ _) fun _ => ignoresOrder_bind (ignoresOrder_reserve _) fun _ =>
        ignoresOrder_pure _

variable [WordSource σ]

/-- To assign tokens ignores the order. -/
theorem ignoresOrder_assign (length : Nat) (names : List Text) :
    (ClassPass.assign length names : Pass σ Unit).IgnoresOrder := by
  induction names with
  | nil => exact ignoresOrder_pure _
  | cons name names ih =>
    refine ignoresOrder_get ?_ fun w => ?_
    · intro w w' h
      rw [h.codebook]
    · split
      · exact ignoresOrder_bind (ignoresOrder_pseudonym _ (ignoresOrder_mint _ _)) fun _ =>
          ignoresOrder_bind (ignoresOrder_note _) fun _ => ih
      · exact ih

/-- To rename images ignores the order. -/
theorem ignoresOrder_renameAll (paths : List Path) : (ImagePass.renameAll o paths : Pass σ Nat).IgnoresOrder := by
  induction paths with
  | nil => exact ignoresOrder_pure _
  | cons path paths ih =>
    unfold ImagePass.renameAll
    split
    · exact ignoresOrder_bind (ignoresOrder_note _) fun _ => ih
    · refine ignoresOrder_bind (ignoresOrder_pseudonym _ (ignoresOrder_mint _ _)) fun token => ?_
      refine ignoresOrder_bind (ignoresOrder_note _) fun _ => ignoresOrder_bind (ignoresOrder_note _) fun _ => ?_
      split
      · exact ignoresOrder_bind (ignoresOrder_move _ _) fun _ => ignoresOrder_bind ih fun _ => ignoresOrder_pure _
      · exact ignoresOrder_bind ih fun _ => ignoresOrder_pure _

/-- The class pass ignores the order. -/
theorem ignoresOrder_classPass (root : Path) : (ClassPass.run root o : Pass σ Tally).IgnoresOrder := by
  rw [classPass_eq]
  refine ignoresOrder_bind ?_ fun _ => ?_
  · unfold nameClasses
    split
    · exact ignoresOrder_throw_bind _ _
    · refine ignoresOrder_bind (ignoresOrder_note _) fun _ => ignoresOrder_bind (ignoresOrder_listTexts _ _) fun _ => ?_
      exact ignoresOrder_bind (ignoresOrder_discover _) fun _ => ignoresOrder_bind (ignoresOrder_reserve _) fun _ =>
        ignoresOrder_assign _ _
  · refine ignoresOrder_get ?_ fun w => ?_
    · intro w w' h
      rw [h.codebook]
    · exact ignoresOrder_bind (ignoresOrder_note _) fun _ => ignoresOrder_rewriteTexts _ _ _ _ _

/-- The image pass ignores the order. -/
theorem ignoresOrder_imagePass (root : Path) : (ImagePass.run root o : Pass σ Tally).IgnoresOrder := by
  rw [imagePass_eq]
  refine ignoresOrder_get ?_ fun w => ?_
  · intro w w' h
    rw [h.disk.isDirectory]
  · split
    · exact ignoresOrder_bind (ignoresOrder_note _) fun _ => ignoresOrder_pure _
    · refine ignoresOrder_bind (ignoresOrder_note _) fun _ => ignoresOrder_bind (ignoresOrder_reserveNames _) fun _ => ?_
      refine ignoresOrder_bind (ignoresOrder_renameAll _) fun _ => ignoresOrder_get ?_ fun w => ?_
      · intro w w' h
        rw [h.codebook]
      · exact ignoresOrder_rewriteTexts _ _ _ _ _

omit [WordSource σ] in
/-- A codebook of its own makes no difference to what the order is to a pass. -/
theorem ignoresOrder_withFreshCodebook {x : Pass σ α} (hx : x.IgnoresOrder) : (Project.withFreshCodebook x).IgnoresOrder := by
  refine ignoresOrder_bind (ignoresOrder_modify fun _ _ h => ⟨h.disk, h.mint, rfl, h.trace⟩) fun _ => ?_
  refine ignoresOrder_bind hx fun _ => ignoresOrder_get ?_ fun w => ignoresOrder_pure _
  intro w w' h
  rw [h.codebook]

/-- A run ignores the order. -/
theorem ignoresOrder_run (root : Path) : (Project.run root o : Pass σ Report).IgnoresOrder := by
  unfold Project.run
  refine ignoresOrder_get ?_ fun w => ?_
  · intro w w' h
    rw [h.disk.isDirectory]
  · split
    · exact ignoresOrder_throw_bind _ _
    · refine ignoresOrder_bind (ignoresOrder_note _) fun _ => ignoresOrder_bind (ignoresOrder_reserveNames _) fun _ => ?_
      refine ignoresOrder_bind (ignoresOrder_withFreshCodebook (ignoresOrder_classPass _)) fun _ => ?_
      refine ignoresOrder_bind (ignoresOrder_withFreshCodebook (ignoresOrder_imagePass _)) fun _ => ?_
      exact ignoresOrder_bind (ignoresOrder_note _) fun _ => ignoresOrder_pure _

end Pass

/-- The order in which directories are enumerated has no part in a run. On two disks that differ in it alone every listing comes
out the same, with each regular file below its root once, and it comes out at all unless a directory has too long a path. So the
run comes to the same report or the same failure, announces the same changes in the same order, and leaves disks that again
differ at most in that order. -/
theorem run_in_any_order [WordSource σ] {w w' : Workspace σ} (ht : w.disk.IsTree) (h : w.Reordered w') (root : Path)
    (o : Options) :
    (∀ dir keep, ((Pass.list dir keep).outcome w').1 = ((Pass.list dir keep).outcome w).1 ∧
      ∀ paths v, (Pass.list dir keep).Yields w paths v → paths.Nodup ∧ ∀ p, p ∈ paths ↔ keep p = true ∧ w.disk.HasFile dir p) ∧
    (∀ dir base keep, w.disk.status .follow dir = .ok (base, .directory) →
      ((∃ paths v, (Pass.list dir keep).Yields w paths v) ↔
        ∀ p, w.disk.HasBelow dir base (.directory p) → p.bytes.length < Disk.maxPath)) ∧
    ((Project.run root o).outcome w').1 = ((Project.run root o).outcome w).1 ∧
    ((Project.run root o).outcome w').2.events = ((Project.run root o).outcome w).2.events ∧
    ((Project.run root o).outcome w).2.Reordered ((Project.run root o).outcome w').2 := by
  obtain ⟨hresult, hleft⟩ := Pass.ignoresOrder_run (o := o) root h
  refine ⟨fun dir keep => ⟨(Pass.ignoresOrder_list dir keep h).1, ?_⟩, ?_, hresult, ?_, hleft⟩
  · intro paths v hyields
    obtain ⟨all, hall, rfl, -⟩ := Pass.yields_list.1 hyields
    obtain ⟨hnodup, hmem⟩ := ht.files_eq_ok hall
    exact ⟨hnodup.filter _, fun p => by rw [List.mem_filter, hmem, and_comm]⟩
  · intro dir base keep hbase
    rw [← ht.exists_files_iff hbase]
    constructor
    · rintro ⟨paths, v, hyields⟩
      obtain ⟨all, hall, -⟩ := Pass.yields_list.1 hyields
      exact ⟨all, hall⟩
    · rintro ⟨all, hall⟩
      exact ⟨_, _, Pass.yields_list.2 ⟨all, hall, rfl, rfl⟩⟩
  · rw [Workspace.events, Workspace.events, hleft.trace]

namespace ShuffleWitness

open GalleryWitness (gallery)

/-- The gallery on a disk that enumerates its entries from the last to the first. -/
def shuffled : Workspace WordCycle := { gallery with disk := { gallery.disk with entries := gallery.disk.entries.reverse } }

theorem reordered : gallery.Reordered shuffled := ⟨⟨by decide, List.reverse_perm _, rfl, rfl⟩, rfl, rfl, rfl⟩

end ShuffleWitness

open ShuffleWitness in
open GalleryWitness (gallery report yields_report) in
open SiteWitness (root) in
/-- The gallery from the last entry to the first: its directory is enumerated in another order, and the run is the same. -/
theorem run_in_any_order_gallery : gallery.disk.IsTree ∧ gallery.Reordered shuffled ∧
    shuffled.disk.children [SiteWitness.bytes "site"] ≠ gallery.disk.children [SiteWitness.bytes "site"] ∧
    ((Project.run root {}).outcome shuffled).1 = .ok report ∧
    ((Project.run root {}).outcome gallery).2.Reordered ((Project.run root {}).outcome shuffled).2 := by
  have htree : gallery.disk.IsTree := by decide
  obtain ⟨-, -, hresult, -, hleft⟩ := run_in_any_order htree reordered root {}
  exact ⟨htree, reordered, by decide, hresult.trans (congrArg Prod.fst yields_report), hleft⟩

end Pseudonym
