import Pseudonym.Disk.Listing
import Pseudonym.Proofs.Following

/-!
# What a disk is without the contents of its files

Where a path leads and what is listed below a directory depend on which entries stand where and of which kind they are, and not on
what the files hold. `Disk.bare` forgets the contents: a path leads to the same location on the bare disk (`locate_bare`) and the
same files are listed (`files_bare`). Overwriting a file that can be read leaves the bare disk as it was (`bare_write`).
-/

namespace Pseudonym

/-- An entry without the content of a file. -/
def Entry.bare : Entry → Entry
  | .file _ => .file []
  | e => e

namespace Disk

/-- A disk without the contents of its files. -/
def bare (d : Disk) : Disk := { d with entries := d.entries.map fun e => (e.1, e.2.bare) }

/-- No two entries stand at one location. -/
def Distinct (d : Disk) : Prop := (d.entries.map (·.1)).Nodup

instance (d : Disk) : Decidable d.Distinct := inferInstanceAs (Decidable (d.entries.map (·.1)).Nodup)

/-- Locations are distinct whatever the files hold. -/
theorem distinct_bare {d : Disk} : d.bare.Distinct ↔ d.Distinct := by
  unfold Distinct bare
  rw [List.map_map]
  rfl

/-- A disk with other contents is as distinct. -/
theorem Distinct.of_bare {d d' : Disk} (h : d.Distinct) (hbare : d'.bare = d.bare) : d'.Distinct :=
  distinct_bare.1 (hbare ▸ distinct_bare.2 h)

variable (d : Disk)

/-! ## Following paths -/

/-- The bare disk has the bare entry. -/
theorem entry?_bare (loc : Location) : d.bare.entry? loc = (d.entry? loc).map Entry.bare := by
  unfold entry? bare
  split
  · rfl
  · induction d.entries with
    | nil => rfl
    | cons e es ih =>
      rw [List.map_cons, List.lookup_cons, List.lookup_cons]
      cases loc == e.1
      · exact ih
      · rfl

/-- A directory does not depend on contents. -/
theorem isDirectoryAt_bare (loc : Location) : d.bare.isDirectoryAt loc = d.isDirectoryAt loc := by
  unfold isDirectoryAt
  rw [entry?_bare]
  rcases d.entry? loc with _ | _ | _ | _ <;> rfl

/-- The way down from a location does not depend on contents. -/
theorem descend_bare (last : LastName) (onLink : Location → List Name → Except DiskError Location) (loc : Location)
    (ns : List Name) : d.bare.descend last onLink loc ns = d.descend last onLink loc ns := by
  induction ns generalizing loc with
  | nil => rfl
  | cons n ns ih =>
    unfold descend
    rw [isDirectoryAt_bare, ih, ih, ih, entry?_bare]
    rcases d.entry? (loc ++ [n]) with _ | _ | _ | _ <;> rfl

/-- The way through links does not depend on contents. -/
theorem follow_bare (last : LastName) (links : Nat) (loc : Location) (ns : List Name) :
    d.bare.follow last links loc ns = d.follow last links loc ns := by
  induction links generalizing loc ns with
  | zero => exact d.descend_bare last _ loc ns
  | succ links ih =>
    have hfollow : d.bare.follow last links = d.follow last links := by
      funext loc ns
      exact ih loc ns
    rw [follow, follow, hfollow, descend_bare]

/-- Where a path leads does not depend on contents. -/
theorem locate_bare (last : LastName) (p : Path) : d.bare.locate last p = d.locate last p := by
  unfold locate
  rw [follow_bare]
  rfl

/-- What a path leads to depends on contents in nothing but the contents. -/
theorem status_bare (last : LastName) (p : Path) :
    d.bare.status last p = (d.status last p).map fun e => (e.1, e.2.bare) := by
  unfold status
  rw [locate_bare]
  rcases d.locate last p with e | loc
  · rfl
  · simp only [bind, Except.bind, entry?_bare]
    rcases d.entry? loc with _ | e <;> rfl

/-- Whether a path leads to a directory does not depend on contents. -/
theorem isDirectory_bare (p : Path) : d.bare.isDirectory p = d.isDirectory p := by
  unfold isDirectory
  rw [status_bare]
  rcases d.status .follow p with e | ⟨loc, _ | _ | _⟩ <;> rfl

/-! ## Listing files -/

/-- The entries of a directory depend on contents in nothing but the contents. -/
theorem children_bare (dir : Location) : d.bare.children dir = (d.children dir).map fun e => (e.1, e.2.bare) := by
  unfold children bare
  rw [List.filterMap_map, List.map_filterMap]
  congr 1
  funext e
  rw [Option.map_map]
  rfl

/-- An entry is put at the place of its name, whatever becomes of its contents. -/
theorem insertByName_map (f : Entry → Entry) (e : Name × Entry) (es : List (Name × Entry)) :
    insertByName (e.1, f e.2) (es.map fun x => (x.1, f x.2)) = (insertByName e es).map fun x => (x.1, f x.2) := by
  induction es with
  | nil => rfl
  | cons x es ih =>
    simp only [List.map_cons, insertByName, ih]
    split <;> rfl

/-- Entries are sorted by their names, whatever becomes of their contents. -/
theorem sortByName_map (f : Entry → Entry) (es : List (Name × Entry)) :
    sortByName (es.map fun x => (x.1, f x.2)) = (sortByName es).map fun x => (x.1, f x.2) := by
  induction es with
  | nil => rfl
  | cons e es ih =>
    unfold sortByName at ih ⊢
    rw [List.map_cons, List.foldr_cons, ih, insertByName_map]
    rfl

/-- A walk of limited depth does not depend on contents. -/
theorem walkFrom_bare (n : Nat) (path : Path) (loc : Location) : d.bare.walkFrom n path loc = d.walkFrom n path loc := by
  induction n generalizing path loc with
  | zero => rfl
  | succ n ih =>
    rw [walkFrom, walkFrom, children_bare, sortByName_map, List.flatMap_map]
    congr 1
    funext ⟨name, e⟩
    cases e with
    | file content => rfl
    | link target => rfl
    | directory => exact congrArg _ (ih _ _)

theorem depth_bare : d.bare.depth = d.depth := by
  unfold depth bare
  rw [List.foldr_map]

/-- A walk does not depend on contents. -/
theorem walk_bare (path : Path) (loc : Location) : d.bare.walk path loc = d.walk path loc := by
  rw [walk, walk, depth_bare, walkFrom_bare]

/-- The listing of a directory does not depend on contents. -/
theorem files_bare (root : Path) : d.bare.files root = d.files root := by
  unfold files
  rw [status_bare, status_bare]
  rcases d.status .keep root with e | ⟨loc, _ | _ | _⟩
  · rfl
  · rfl
  · rcases d.status .follow root with e | ⟨loc, _ | _ | _⟩
    · rfl
    · rfl
    · simp only [Except.map, Entry.bare, walk_bare]
    · rfl
  · rcases d.status .follow root with e | ⟨loc, _ | _ | _⟩
    · rfl
    · rfl
    · simp only [Except.map, Entry.bare, walk_bare]
    · rfl

/-! ## Overwriting a file -/

/-- The path of a file that is there is where a file would be created. -/
theorem locate_create {p : Path} {x y : Location} (hx : d.locate .follow p = .ok x) (hy : d.locate .create p = .ok y) : y = x := by
  unfold locate at hx hy
  rcases hp : checkPath p with e | u
  · rw [hp] at hx
    cases hx
  · rw [hp] at hx hy
    exact follow_create hx hy

variable {d}

/-- What is read is the content of the file that the path leads to. -/
theorem read_eq_ok {p : Path} {content : Bytes} (h : d.read p = .ok content) : ∃ loc,
    d.locate .follow p = .ok loc ∧ d.entry? loc = some (.file content) ∧ d.allow (.read loc) = .ok () := by
  unfold read status at h
  rcases hloc : d.locate .follow p with e | loc
  · rw [hloc] at h
    cases h
  · rw [hloc] at h
    rcases he : d.entry? loc with _ | c | _ | target
    all_goals simp only [bind, Except.bind, he] at h
    · cases h
    · rcases hallow : d.allow (.read loc) with e | u
      · rw [hallow] at h
        cases h
      · rw [hallow] at h
        cases h
        exact ⟨loc, rfl, he, hallow⟩
    · cases h
    · cases h

/-- A file that a path leads to can be read, if reading it is not refused. -/
theorem read_of_locate {p : Path} {loc : Location} {content : Bytes} (hloc : d.locate .follow p = .ok loc)
    (hentry : d.entry? loc = some (.file content)) (hallow : d.allow (.read loc) = .ok ()) : d.read p = .ok content := by
  simp only [read, status, hloc, bind, Except.bind, hentry, hallow]

/-- A file that can be read is overwritten where it stands. -/
theorem write_eq_ok {d' : Disk} {p : Path} {loc : Location} {old new : Bytes} (hloc : d.locate .follow p = .ok loc)
    (hold : d.entry? loc = some (.file old)) (h : d.write p new = .ok d') : d' = d.put loc (.file new) := by
  unfold write at h
  rcases hcreate : d.locate .create p with e | loc'
  · rw [hcreate] at h
    cases h
  · obtain rfl := d.locate_create hloc hcreate
    rw [hcreate] at h
    simp only [bind, Except.bind, hold] at h
    rcases hallow : d.allow (.write loc' new) with e | u
    · rw [hallow] at h
      cases h
    · rw [hallow] at h
      exact (Except.ok.inj h).symm

theorem entry?_of_ne_nil {loc : Location} (h : loc ≠ []) : d.entry? loc = d.entries.lookup loc := by
  unfold entry?
  rw [if_neg (by simpa using h)]

/-- A location with an entry that is no directory is not the root. -/
theorem ne_nil_of_entry_eq_some {loc : Location} {e : Entry} (h : d.entry? loc = some e) (he : e ≠ .directory) : loc ≠ [] := by
  rintro rfl
  exact he (Option.some.inj h).symm

/-- An entry that stands somewhere is changed in its place. -/
theorem put_eq_map {loc : Location} {old new : Entry} (hloc : loc ≠ []) (h : d.entry? loc = some old) :
    d.put loc new = { d with entries := d.entries.map fun x => if x.1 = loc then (loc, new) else x } := by
  unfold put
  rw [entry?_of_ne_nil hloc] at h
  rw [h, Option.isSome_some, if_pos rfl]

/-- An entry that is found is on the disk. -/
theorem mem_entries_of_entry_eq_some {loc : Location} {e : Entry} (hloc : loc ≠ []) (h : d.entry? loc = some e) :
    (loc, e) ∈ d.entries := by
  rw [entry?_of_ne_nil hloc] at h
  obtain ⟨l₁, l₂, he, -⟩ := List.lookup_eq_some_iff.1 h
  rw [he]
  simp

/-- With one entry at each location, the entry that stands there is what the location holds. -/
theorem Distinct.entry?_eq_some_iff (hd : d.Distinct) {loc : Location} {e : Entry} (hloc : loc ≠ []) :
    d.entry? loc = some e ↔ (loc, e) ∈ d.entries := by
  refine ⟨mem_entries_of_entry_eq_some hloc, fun hm => ?_⟩
  obtain ⟨l₁, l₂, he⟩ := List.append_of_mem hm
  rw [entry?_of_ne_nil hloc, he, List.lookup_eq_some_iff]
  refine ⟨l₁, l₂, rfl, fun x hx => ?_⟩
  unfold Distinct at hd
  rw [he, List.map_append, List.map_cons, List.nodup_append] at hd
  simpa using (hd.2.2 x.1 (List.mem_map_of_mem hx) loc (by simp)).symm

/-- A new content leaves the bare disk as it was. -/
theorem bare_put (hd : d.Distinct) {loc : Location} {old new : Bytes} (h : d.entry? loc = some (.file old)) :
    (d.put loc (.file new)).bare = d.bare := by
  have hloc : loc ≠ [] := ne_nil_of_entry_eq_some h (by simp)
  rw [put_eq_map hloc h, bare, bare, List.map_map]
  congr 1
  refine List.map_congr_left fun e he => ?_
  by_cases hl : e.1 = loc
  · have heq : e.2 = .file old := by
      have := (hd.entry?_eq_some_iff (e := e.2) hloc).2 (by rw [← hl]; exact he)
      rw [h] at this
      exact (Option.some.inj this).symm
    simp [hl, heq, Entry.bare]
  · simp [hl]

/-- To write to a file changes its content and nothing else. -/
theorem bare_write (hd : d.Distinct) {d' : Disk} {p : Path} {old new : Bytes} (hold : d.read p = .ok old)
    (h : d.write p new = .ok d') : d'.bare = d.bare := by
  obtain ⟨loc, hloc, hentry, -⟩ := read_eq_ok hold
  rw [write_eq_ok hloc hentry h, bare_put hd hentry]

/-! Two disks that are the same without contents are followed and listed alike. -/

variable {d' : Disk}

/-- Disks that differ in contents only have the same listings. -/
theorem files_of_bare (h : d'.bare = d.bare) (root : Path) : d'.files root = d.files root := by
  rw [← files_bare, h, files_bare]

/-- Disks that differ in contents only have the same directories. -/
theorem isDirectory_of_bare (h : d'.bare = d.bare) (p : Path) : d'.isDirectory p = d.isDirectory p := by
  rw [← isDirectory_bare, h, isDirectory_bare]

theorem entry?_of_bare (h : d'.bare = d.bare) (loc : Location) :
    (d'.entry? loc).map Entry.bare = (d.entry? loc).map Entry.bare := by
  rw [← entry?_bare, h, entry?_bare]

theorem isDirectoryAt_of_bare (h : d'.bare = d.bare) (loc : Location) : d'.isDirectoryAt loc = d.isDirectoryAt loc := by
  rw [← isDirectoryAt_bare, h, isDirectoryAt_bare]

/-- Disks that differ in contents only allow the same. -/
theorem allow_of_bare (h : d'.bare = d.bare) (r : Request) : d'.allow r = d.allow r := by
  have hrefused : d'.bare.refused = d.bare.refused := by
    rw [h]
  unfold allow
  rw [show d'.refused = d.refused from hrefused]

/-- On disks that differ in contents only, paths lead to the same places. -/
theorem locate_of_bare (h : d'.bare = d.bare) (last : LastName) (p : Path) : d'.locate last p = d.locate last p := by
  rw [← locate_bare, h, locate_bare]

/-- A file that can be read can be read whatever it holds. -/
theorem exists_read_of_bare (h : d'.bare = d.bare) {p : Path} (hread : ∃ c, d.read p = .ok c) : ∃ c, d'.read p = .ok c := by
  obtain ⟨c, hc⟩ := hread
  obtain ⟨loc, hloc, hentry, hallow⟩ := read_eq_ok hc
  have hentry' := entry?_of_bare h loc
  rw [hentry] at hentry'
  obtain ⟨e, he, hbare⟩ := Option.map_eq_some_iff.1 hentry'
  cases e with
  | file c' => exact ⟨c', read_of_locate ((locate_of_bare h _ _).trans hloc) he ((allow_of_bare h _).trans hallow)⟩
  | directory => cases hbare
  | link target => cases hbare

end Disk

end Pseudonym
