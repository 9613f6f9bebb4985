import Mathlib.Data.List.Nodup
import Pseudonym.Proofs.Stages
import Pseudonym.Proofs.Trees

/-!
# What is listed below a directory

`Disk.filesFrom` is the walk by names alone: the names that lead from a location to the files below it. In a tree these are the
regular files below the location, all of them (`mem_filesFrom`) and each once (`nodup_filesFrom`), and the listing of a
directory is the paths that they make (`filesBelow_eq`).
-/

namespace Pseudonym.Disk

/-- The names that lead from a directory to the files at one of its entries, given those that lead on from the entry. -/
def filesAt (deeper : List (List Name)) : Name × Entry → List (List Name)
  | (name, .file _) => [[name]]
  | (_, .link _) => []
  | (name, .directory) => deeper.map (name :: ·)

/-- The names that lead from a location to the files below it, in the order of the walk. -/
def filesFrom (d : Disk) : Nat → Location → List (List Name)
  | 0, _ => []
  | n + 1, loc => (sortByName (d.children loc)).flatMap fun x => filesAt (filesFrom d n (loc ++ [x.1])) x

variable {d : Disk}

/-! ## The entries of a directory -/

/-- An entry has a name in the directory right above it. -/
theorem nameIn?_eq_some_iff {dir loc : Location} {n : Name} : nameIn? dir loc = some n ↔ loc = dir ++ [n] := by
  unfold nameIn?
  constructor
  · intro h
    split at h
    · next m hm =>
      obtain ⟨init, rfl⟩ := List.getLast?_eq_some_iff.1 hm
      split at h
      · next hdir =>
        cases h
        rw [List.dropLast_concat] at hdir
        rw [hdir]
      · cases h
    · cases h
  · rintro rfl
    simp

/-- The children of a directory are the entries right below it. -/
theorem mem_children {dir : Location} {n : Name} {e : Entry} : (n, e) ∈ d.children dir ↔ (dir ++ [n], e) ∈ d.entries := by
  unfold children
  rw [List.mem_filterMap]
  constructor
  · rintro ⟨x, hx, h⟩
    obtain ⟨m, hm, he⟩ := Option.map_eq_some_iff.1 h
    obtain ⟨rfl, rfl⟩ := Prod.mk.inj he
    rw [← nameIn?_eq_some_iff.1 hm]
    exact hx
  · intro h
    exact ⟨_, h, by simp [nameIn?_eq_some_iff.2 rfl]⟩

/-- No two children have one name. -/
theorem Distinct.children (h : d.Distinct) (dir : Location) : ((d.children dir).map (·.1)).Nodup := by
  have hmap : (d.children dir).map (·.1) = (d.entries.map (·.1)).filterMap (nameIn? dir) := by
    unfold Disk.children
    rw [List.map_filterMap, List.filterMap_map]
    congr 1
    funext x
    rw [Option.map_map, Function.comp_apply]
    cases nameIn? dir x.1 <;> rfl
  rw [hmap]
  refine h.filterMap ?_
  intro l l' n hl hl'
  rw [nameIn?_eq_some_iff.1 hl, nameIn?_eq_some_iff.1 hl']

/-- To put an entry in its place adds it. -/
theorem insertByName_perm (e : Name × Entry) (es : List (Name × Entry)) : (insertByName e es).Perm (e :: es) := by
  induction es with
  | nil => exact .refl _
  | cons x es ih =>
    rw [insertByName]
    split
    · exact .refl _
    · exact (ih.cons x).trans (.swap e x es)

/-- To sort entries loses none. -/
theorem sortByName_perm (es : List (Name × Entry)) : (sortByName es).Perm es := by
  induction es with
  | nil => exact .refl _
  | cons e es ih => exact (insertByName_perm e _).trans (ih.cons e)

/-- The sorted children of a directory are what is found there. -/
theorem IsTree.mem_sortByName_children (h : d.IsTree) {dir : Location} {n : Name} {e : Entry} :
    (n, e) ∈ sortByName (d.children dir) ↔ d.entry? (dir ++ [n]) = some e := by
  rw [(sortByName_perm _).mem_iff, mem_children, h.distinct.entry?_eq_some_iff (by simp)]

/-! ## The files below a location -/

/-- The walk comes by every file that lies no deeper than it goes, and by nothing else. -/
theorem IsTree.mem_filesFrom (h : d.IsTree) {n : Nat} {loc : Location} {names : List Name} : names ∈ d.filesFrom n loc ↔
    names ≠ [] ∧ names.length ≤ n ∧ ∃ c, d.entry? (loc ++ names) = some (.file c) := by
  induction n generalizing loc names with
  | zero =>
    constructor
    · intro hm
      cases hm
    · rintro ⟨hne, hlen, -⟩
      exact absurd (List.length_eq_zero_iff.1 (Nat.le_zero.1 hlen)) hne
  | succ n ih =>
    rw [filesFrom, List.mem_flatMap]
    constructor
    · rintro ⟨⟨name, e⟩, hm, hnames⟩
      rw [h.mem_sortByName_children] at hm
      cases e with
      | file c =>
        obtain rfl := List.mem_singleton.1 hnames
        exact ⟨List.cons_ne_nil _ _, by simp, c, hm⟩
      | link target => cases hnames
      | directory =>
        obtain ⟨rest, hrest, rfl⟩ := List.mem_map.1 hnames
        obtain ⟨-, hlen, c, hc⟩ := ih.1 hrest
        exact ⟨List.cons_ne_nil _ _, by simpa using hlen, c, by rwa [List.append_assoc] at hc⟩
    · rintro ⟨hne, hlen, c, hc⟩
      cases names with
      | nil => exact absurd rfl hne
      | cons name rest =>
        by_cases hrest : rest = []
        · subst hrest
          exact ⟨(name, .file c), h.mem_sortByName_children.2 hc, List.mem_singleton.2 rfl⟩
        · rw [List.append_cons] at hc
          have hdir := isDirectoryAt_iff.1 (h.ancestor hrest hc)
          refine ⟨(name, .directory), h.mem_sortByName_children.2 hdir, List.mem_map.2 ⟨rest, ?_, rfl⟩⟩
          exact ih.2 ⟨hrest, by simpa using hlen, c, hc⟩

/-- The walk comes by no file twice. -/
theorem IsTree.nodup_filesFrom (h : d.IsTree) (n : Nat) (loc : Location) : (d.filesFrom n loc).Nodup := by
  induction n generalizing loc with
  | zero => exact List.nodup_nil
  | succ n ih =>
    have hhead {deeper : List (List Name)} {x : Name × Entry} {names : List Name} (hm : names ∈ filesAt deeper x) :
        names.head? = some x.1 := by
      obtain ⟨name, _ | _ | _⟩ := x
      · rw [List.mem_singleton.1 hm]
        rfl
      · obtain ⟨rest, -, rfl⟩ := List.mem_map.1 hm
        rfl
      · cases hm
    rw [filesFrom, List.nodup_flatMap]
    constructor
    · rintro ⟨name, _ | _ | _⟩ -
      · exact List.nodup_singleton _
      · exact (ih _).map fun a b hab => (List.cons.inj hab).2
      · exact List.nodup_nil
    · have hnames := ((sortByName_perm (d.children loc)).map (·.1)).nodup_iff.2 (h.distinct.children loc)
      refine (List.pairwise_map.1 hnames).imp ?_
      intro x y hxy names hx hy
      exact hxy (Option.some.inj ((hhead hx).symm.trans (hhead hy)))

/-! ## Listing -/

/-- The files of a walk are those that are found, each under its path. -/
theorem filterMap_file?_walkFrom (n : Nat) (path : Path) (loc : Location) :
    (d.walkFrom n path loc).filterMap Visit.file? = (d.filesFrom n loc).map path.below := by
  induction n generalizing path loc with
  | zero => rfl
  | succ n ih =>
    rw [walkFrom, filesFrom, List.filterMap_flatMap, List.map_flatMap]
    congr 1
    funext x
    obtain ⟨name, e⟩ := x
    cases e with
    | file c => rfl
    | link target => rfl
    | directory =>
      simp only [List.filterMap_cons, Visit.file?, ih, filesAt, List.map_map]
      rfl

/-- No entry lies deeper than the disk is. -/
theorem length_le_depth {e : Location × Entry} (h : e ∈ d.entries) : e.1.length ≤ d.depth := by
  unfold depth
  generalize d.entries = entries at h ⊢
  induction entries with
  | nil => cases h
  | cons x es ih =>
    rw [List.foldr_cons]
    rcases List.mem_cons.1 h with rfl | h
    · exact Nat.le_max_left _ _
    · exact Nat.le_trans (ih h) (Nat.le_max_right _ _)

/-- The walk from a location comes by every file below it. -/
theorem IsTree.mem_filesFrom_depth (h : d.IsTree) {loc : Location} {names : List Name} : names ∈ d.filesFrom d.depth loc ↔
    names ≠ [] ∧ ∃ c, d.entry? (loc ++ names) = some (.file c) := by
  rw [h.mem_filesFrom]
  constructor
  · exact fun ⟨hne, _, hc⟩ => ⟨hne, hc⟩
  · rintro ⟨hne, c, hc⟩
    have := length_le_depth (mem_entries_of_entry_eq_some (by simp [hne]) hc)
    rw [List.length_append] at this
    exact ⟨hne, by omega, c, hc⟩

/-- What a path leads to lies where it leads. -/
theorem status_eq_ok {last : LastName} {p : Path} {loc : Location} {e : Entry} (h : d.status last p = .ok (loc, e)) :
    d.locate last p = .ok loc ∧ d.entry? loc = some e := by
  unfold status at h
  cases hloc : d.locate last p with
  | error err =>
    rw [hloc] at h
    cases h
  | ok x =>
    rw [hloc] at h
    cases he : d.entry? x with
    | none =>
      simp only [bind, Except.bind, he] at h
      cases h
    | some e' =>
      simp only [bind, Except.bind, he] at h
      cases h
      exact ⟨rfl, he⟩

/-- What lies where a path leads is what it leads to. -/
theorem status_of_locate {last : LastName} {p : Path} {loc : Location} {e : Entry} (hloc : d.locate last p = .ok loc)
    (he : d.entry? loc = some e) : d.status last p = .ok (loc, e) := by
  unfold status
  rw [hloc]
  simp only [bind, Except.bind, he]

/-- A path leads to a directory exactly when the location that it leads to is one. -/
theorem isDirectory_iff {p : Path} : d.isDirectory p = true ↔ ∃ loc, d.locate .follow p = .ok loc ∧ d.isDirectoryAt loc = true := by
  unfold isDirectory
  constructor
  · intro h
    cases hs : d.status .follow p with
    | error e =>
      rw [hs] at h
      cases h
    | ok r =>
      obtain ⟨loc, e⟩ := r
      obtain ⟨hloc, he⟩ := status_eq_ok hs
      rw [hs] at h
      have he' : e = .directory := by simpa [Except.toOption] using h
      exact ⟨loc, hloc, isDirectoryAt_iff.2 (by rw [he, he'])⟩
  · rintro ⟨loc, hloc, hdir⟩
    rw [status_of_locate hloc (isDirectoryAt_iff.1 hdir)]
    rfl

variable {root : Path} {base : Location}

/-- The listing of a directory is the walk from its location, and no directory that the walk comes by has too long a path. -/
theorem files_eq_ok (hroot : d.locate .follow root = .ok base) (hdir : d.isDirectoryAt base = true) {paths : List Path}
    (h : d.files root = .ok paths) :
    (d.walk root base).findSome? Visit.unopened? = none ∧ paths = (d.walk root base).filterMap Visit.file? := by
  have hstatus := status_of_locate hroot (isDirectoryAt_iff.1 hdir)
  unfold files at h
  split at h
  · cases h
  · next x c hkeep =>
    -- the path itself leads to no file, whether a link at its end is followed or not
    obtain ⟨hx, hc⟩ := status_eq_ok hkeep
    rcases follow_keep (locate_eq_ok hroot).2 (locate_eq_ok hx).2 with rfl | ⟨target, ht⟩
    · rw [isDirectoryAt_iff.1 hdir] at hc
      cases hc
    · rw [ht] at hc
      cases hc
  · rw [hstatus] at h
    simp only at h
    split at h
    · cases h
    · next hnone => exact ⟨hnone, (Except.ok.inj h).symm⟩

/-- The listing holds the files that are found from the location of the root. -/
theorem Lists.filesBelow_eq (h : d.Lists root) (hroot : d.locate .follow root = .ok base)
    (hdir : d.isDirectoryAt base = true) : d.filesBelow root = (d.filesFrom d.depth base).map root.below := by
  rw [(files_eq_ok hroot hdir h).2, walk, List.filterMap_cons, filterMap_file?_walkFrom]
  rfl

/-- A directory right below one that can be listed has a path that is short enough. -/
theorem Lists.length_join_lt (h : d.Lists root) (htree : d.IsTree) (hroot : d.locate .follow root = .ok base)
    (hdir : d.isDirectoryAt base = true) {n : Name} (hn : d.entry? (base ++ [n]) = some .directory) :
    (root.join n).bytes.length < maxPath := by
  obtain ⟨hnone, -⟩ := files_eq_ok hroot hdir h
  have hdepth : d.depth ≠ 0 := by
    have := length_le_depth (mem_entries_of_entry_eq_some (by simp) hn)
    rw [List.length_append, List.length_singleton] at this
    omega
  have hvisit : Visit.directory (root.join n) ∈ d.walk root base := by
    obtain ⟨k, hk⟩ := Nat.exists_eq_succ_of_ne_zero hdepth
    rw [walk, hk, walkFrom, List.mem_cons, List.mem_flatMap]
    exact .inr ⟨(n, .directory), htree.mem_sortByName_children.2 hn, List.mem_cons_self⟩
  have hopened := List.findSome?_eq_none_iff.1 hnone _ hvisit
  unfold Visit.unopened? at hopened
  by_contra hlong
  simp only [if_pos (Nat.not_lt.1 hlong)] at hopened
  cases hopened

end Pseudonym.Disk
