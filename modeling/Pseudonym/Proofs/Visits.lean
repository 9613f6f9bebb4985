import Pseudonym.Proofs.Listings

/-!
# What a listing holds

What stands below a directory is said without a walk and without an order (`Disk.HasBelow`), and so are the files that a path
stands for (`Disk.HasFile`). In a tree a walk that goes deep enough comes by all of it and by nothing else (`IsTree.mem_walk`),
so a listing has each of those files once (`IsTree.files_eq_ok`). It fails only where a directory has too long a path to be
opened (`IsTree.exists_files_iff`).
-/

namespace Pseudonym.Disk

/-- What stands below the directory at a location, links not followed: each directory and each file, by the path that leads to
it from the path of the directory. -/
inductive HasBelow (d : Disk) : Path → Location → Visit → Prop where
  | file {path : Path} {loc : Location} {n : Name} {c : Bytes} :
      d.entry? (loc ++ [n]) = some (.file c) → HasBelow d path loc (.file (path.join n))
  | directory {path : Path} {loc : Location} {n : Name} :
      d.entry? (loc ++ [n]) = some .directory → HasBelow d path loc (.directory (path.join n))
  | deeper {path : Path} {loc : Location} {n : Name} {v : Visit} :
      d.entry? (loc ++ [n]) = some .directory → HasBelow d (path.join n) (loc ++ [n]) v → HasBelow d path loc v

/-- The regular files that a path stands for: the file itself where the path names one, else the files below the directory that
the path leads to. -/
def HasFile (d : Disk) (root p : Path) : Prop :=
  (p = root ∧ ∃ loc c, d.status .keep root = .ok (loc, .file c)) ∨
    ∃ base, d.status .follow root = .ok (base, .directory) ∧ d.HasBelow root base (.file p)

variable {d : Disk}

/-! ## Where a path leads that is not followed to its end -/

theorem Leads.exists_keep {f g : Location → List Name → Except DiskError Location} {loc x : Location} {ns : List Name}
    (h : d.Leads f loc ns x) (hlink : ∀ l ns x, f l ns = .ok x → ∃ y, g l ns = .ok y) :
    ∃ y, d.descend .keep g loc ns = .ok y := by
  induction h with
  | arrived x => exact ⟨x, rfl⟩
  | stay hdir hn _ ih =>
    rw [descend_stay hdir hn]
    exact ih
  | up hdir _ ih =>
    rw [descend_up hdir]
    exact ih
  | down hdir hn he hne _ ih =>
    rw [descend_down hdir hn he hne, if_neg (by simp)]
    exact ih
  | link hdir hn he hf =>
    rw [descend_link hdir hn he, if_neg (by simp)]
    split
    · exact ⟨_, rfl⟩
    · exact hlink _ _ _ hf

/-- A path that leads somewhere leads to its last entry as well. -/
theorem exists_follow_keep {links : Nat} {loc x : Location} {ns : List Name} (hx : d.follow .follow links loc ns = .ok x) :
    ∃ y, d.follow .keep links loc ns = .ok y := by
  induction links generalizing loc ns x with
  | zero =>
    refine (leads_iff.1 hx).exists_keep ?_
    intro l ns x hl
    cases hl
  | succ links ih => exact (leads_iff.1 hx).exists_keep fun l ns x hl => ih hl

/-- A path to a directory is the path of the directory itself or of a link. -/
theorem status_keep_of_directory {root : Path} {base : Location} (h : d.status .follow root = .ok (base, .directory)) :
    ∃ loc e, d.status .keep root = .ok (loc, e) ∧ ∀ c, e ≠ .file c := by
  obtain ⟨hbase, hdir⟩ := status_eq_ok h
  obtain ⟨hcheck, hfollow⟩ := locate_eq_ok hbase
  obtain ⟨loc, hloc⟩ := exists_follow_keep hfollow
  have hkeep : d.locate .keep root = .ok loc := by
    unfold locate
    rw [hcheck]
    exact hloc
  rcases follow_keep hfollow hloc with rfl | ⟨target, htarget⟩
  · exact ⟨loc, .directory, status_of_locate hkeep hdir, by simp⟩
  · exact ⟨loc, .link target, status_of_locate hkeep htarget, by simp⟩

/-! ## The walk -/

/-- A walk that goes deep enough comes by what stands below the directory, and by nothing else. -/
theorem IsTree.mem_walkFrom (h : d.IsTree) {n : Nat} {path : Path} {loc : Location} {v : Visit}
    (hn : d.depth ≤ n + loc.length) : v ∈ d.walkFrom n path loc ↔ d.HasBelow path loc v := by
  constructor
  · intro hv
    induction n generalizing path loc with
    | zero => cases hv
    | succ n ih =>
      rw [walkFrom, List.mem_flatMap] at hv
      obtain ⟨⟨name, e⟩, he, hv⟩ := hv
      rw [h.mem_sortByName_children] at he
      cases e with
      | file c =>
        obtain rfl := List.mem_singleton.1 hv
        exact .file he
      | link target => cases hv
      | directory =>
        rcases List.mem_cons.1 hv with rfl | hv
        · exact .directory he
        · refine .deeper he (ih ?_ hv)
          rw [List.length_append, List.length_singleton]
          omega
  · intro hv
    -- where something stands below the directory, the walk goes one level deeper
    have hsucc {loc : Location} {name : Name} {e : Entry} {n : Nat} (he : d.entry? (loc ++ [name]) = some e)
        (hn : d.depth ≤ n + loc.length) : ∃ m, n = m + 1 ∧ d.depth ≤ m + (loc ++ [name]).length := by
      have hdepth := length_le_depth (mem_entries_of_entry_eq_some (by simp) he)
      rw [List.length_append, List.length_singleton] at hdepth ⊢
      exact ⟨n - 1, by omega, by omega⟩
    induction hv generalizing n with
    | file he =>
      obtain ⟨m, rfl, -⟩ := hsucc he hn
      rw [walkFrom, List.mem_flatMap]
      exact ⟨_, h.mem_sortByName_children.2 he, List.mem_singleton_self _⟩
    | directory he =>
      obtain ⟨m, rfl, -⟩ := hsucc he hn
      rw [walkFrom, List.mem_flatMap]
      exact ⟨_, h.mem_sortByName_children.2 he, List.mem_cons_self⟩
    | deeper he _ ih =>
      obtain ⟨m, rfl, hm⟩ := hsucc he hn
      rw [walkFrom, List.mem_flatMap]
      exact ⟨_, h.mem_sortByName_children.2 he, List.mem_cons_of_mem _ (ih hm)⟩

/-- A walk meets its start and what is below it. -/
theorem IsTree.mem_walk (h : d.IsTree) {path : Path} {loc : Location} {v : Visit} :
    v ∈ d.walk path loc ↔ v = .directory path ∨ d.HasBelow path loc v := by
  rw [walk, List.mem_cons, h.mem_walkFrom (Nat.le_add_right _ _)]

/-! ## The listing -/

variable {root : Path} {base : Location}

/-- What is listed of a path that leads to a directory. -/
theorem files_of_directory (h : d.status .follow root = .ok (base, .directory)) : d.files root =
    match (d.walk root base).findSome? Visit.unopened? with
    | some p => .error (p, .nameTooLong)
    | none => .ok ((d.walk root base).filterMap Visit.file?) := by
  obtain ⟨loc, e, hkeep, hfile⟩ := status_keep_of_directory h
  unfold files
  rw [hkeep, h]
  cases e with
  | file c => exact absurd rfl (hfile c)
  | directory => rfl
  | link target => rfl

theorem unopened?_eq_none {v : Visit} : v.unopened? = none ↔ ∀ p, v = .directory p → p.bytes.length < maxPath := by
  cases v with
  | file p => simp [Visit.unopened?]
  | directory p =>
    rw [Visit.unopened?]
    split <;> simp <;> omega

theorem file?_eq_some {v : Visit} {p : Path} : v.file? = some p ↔ v = .file p := by
  cases v <;> simp [Visit.file?]

/-- What stands below a directory can be listed exactly when no directory there has too long a path. -/
theorem IsTree.exists_files_iff (h : d.IsTree) (hbase : d.status .follow root = .ok (base, .directory)) :
    (∃ paths, d.files root = .ok paths) ↔ ∀ p, d.HasBelow root base (.directory p) → p.bytes.length < maxPath := by
  have hroot : root.bytes.length < maxPath := (checkPath_eq_ok.1 (locate_eq_ok (status_eq_ok hbase).1).1).2.2
  have hnone : (d.walk root base).findSome? Visit.unopened? = none ↔
      ∀ p, d.HasBelow root base (.directory p) → p.bytes.length < maxPath := by
    rw [List.findSome?_eq_none_iff]
    constructor
    · exact fun hall p hp => unopened?_eq_none.1 (hall _ (h.mem_walk.2 (.inr hp))) p rfl
    · intro hall v hv
      refine unopened?_eq_none.2 ?_
      rintro p rfl
      rcases h.mem_walk.1 hv with heq | hp
      · cases heq
        exact hroot
      · exact hall p hp
  rw [← hnone, files_of_directory hbase]
  cases (d.walk root base).findSome? Visit.unopened? <;> simp

/-- A path below another has its own names. -/
theorem below_injective (hroot : root.bytes ≠ []) {names names' : List Name} (hnames : ∀ n ∈ names, n.Proper)
    (hnames' : ∀ n ∈ names', n.Proper) (h : root.below names = root.below names') : names = names' := by
  have hcomponents := congrArg Path.components h
  rw [Path.components_below hroot hnames, Path.components_below hroot hnames'] at hcomponents
  exact List.append_cancel_left hcomponents

/-- A walk meets no file twice. -/
theorem IsTree.nodup_filterMap_walk (h : d.IsTree) (hroot : root.bytes ≠ []) :
    ((d.walk root base).filterMap Visit.file?).Nodup := by
  rw [walk, List.filterMap_cons, filterMap_file?_walkFrom]
  refine (h.nodup_filesFrom d.depth base).map_on ?_
  have hproper {names : List Name} (hnames : names ∈ d.filesFrom d.depth base) : ∀ n ∈ names, n.Proper := by
    obtain ⟨-, c, hc⟩ := h.mem_filesFrom_depth.1 hnames
    exact fun n hn => h.properNames hc n (List.mem_append_right _ hn)
  exact fun names hnames names' hnames' heq => below_injective hroot (hproper hnames) (hproper hnames') heq

/-- A listing has each regular file that the path stands for, once. -/
theorem IsTree.files_eq_ok (h : d.IsTree) {paths : List Path} (hfiles : d.files root = .ok paths) :
    paths.Nodup ∧ ∀ p, p ∈ paths ↔ d.HasFile root p := by
  by_cases hdir : ∃ base, d.status .follow root = .ok (base, .directory)
  · obtain ⟨base, hbase⟩ := hdir
    have hroot : root.bytes ≠ [] := bytes_ne_nil_of_checkPath (locate_eq_ok (status_eq_ok hbase).1).1
    obtain ⟨loc, e, hkeep, hfile⟩ := status_keep_of_directory hbase
    rw [files_of_directory hbase] at hfiles
    split at hfiles
    · cases hfiles
    · cases hfiles
      refine ⟨h.nodup_filterMap_walk hroot, fun p => ?_⟩
      rw [List.mem_filterMap]
      constructor
      · rintro ⟨v, hv, hp⟩
        obtain rfl := file?_eq_some.1 hp
        exact .inr ⟨base, hbase, (h.mem_walk.1 hv).resolve_left (by simp)⟩
      · rintro (⟨-, loc', c, hc⟩ | ⟨base', hbase', hp⟩)
        · rw [hkeep] at hc
          cases hc
          exact absurd rfl (hfile c)
        · rw [hbase] at hbase'
          cases hbase'
          exact ⟨_, h.mem_walk.2 (.inr hp), rfl⟩
  · -- what is no directory has no file but itself
    have hnone (hkeep : ∀ loc c, d.status .keep root ≠ .ok (loc, .file c)) (p : Path) : ¬d.HasFile root p := by
      rintro (⟨-, loc, c, hc⟩ | ⟨base, hbase, -⟩)
      · exact hkeep loc c hc
      · exact hdir ⟨base, hbase⟩
    unfold files at hfiles
    split at hfiles
    · cases hfiles
    · next loc c hkeep =>
      cases hfiles
      refine ⟨List.nodup_singleton _, fun p => List.mem_singleton.trans ⟨fun hp => .inl ⟨hp, loc, c, hkeep⟩, ?_⟩⟩
      rintro (⟨hp, -⟩ | ⟨base, hbase, -⟩)
      · exact hp
      · exact absurd ⟨base, hbase⟩ hdir
    · next r hkeep hr =>
      split at hfiles
      · cases hfiles
      · next base hbase => exact absurd ⟨base, hbase⟩ hdir
      · cases hfiles
        refine ⟨.nil, fun p => iff_of_false List.not_mem_nil (hnone ?_ p)⟩
        intro loc c hc
        exact hkeep loc c (Except.ok.inj (hr.symm.trans hc))

end Pseudonym.Disk
