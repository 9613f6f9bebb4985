import Mathlib.Data.List.Induction
import Pseudonym.Proofs.Bare
import Pseudonym.Proofs.Paths

/-!
# Disks that are trees

A disk of a file system is a tree: one entry at a location, each in a directory, under a name that an entry can have
(`Disk.IsTree`). When a path leads to a directory, the paths below it lead to the locations below that directory, as far as no
link is met on the way and nothing is too long (`Disk.IsTree.locate_below_iff`), however many links have been passed before.
-/

namespace Pseudonym

/-- A name that the operating system takes in a path. -/
structure Name.Fits (n : Name) : Prop where
  noNull : (0 : UInt8) ∉ n
  short : n.length ≤ Disk.maxName

namespace Disk

/-- No two entries stand at one location, and each stands in a directory under a proper name. -/
structure IsTree (d : Disk) : Prop where
  distinct : d.Distinct
  proper : ∀ e ∈ d.entries, e.1 ≠ [] ∧ ∀ n ∈ e.1, n.Proper
  parent : ∀ e ∈ d.entries, d.isDirectoryAt e.1.dropLast = true

instance (d : Disk) : Decidable d.IsTree :=
  decidable_of_iff (d.Distinct ∧ (∀ e ∈ d.entries, e.1 ≠ [] ∧ ∀ n ∈ e.1, n.Proper) ∧
      ∀ e ∈ d.entries, d.isDirectoryAt e.1.dropLast = true)
    ⟨fun h => ⟨h.1, h.2.1, h.2.2⟩, fun h => ⟨h.1, h.2, h.3⟩⟩

variable {d : Disk}

theorem isDirectoryAt_iff {loc : Location} : d.isDirectoryAt loc = true ↔ d.entry? loc = some .directory := beq_iff_eq

/-- Where files get other contents, the entries stand where they stood. -/
theorem exists_mem_of_bare {d' : Disk} (hbare : d'.bare = d.bare) {e : Location × Entry} (he : e ∈ d'.entries) :
    ∃ e' ∈ d.entries, e'.1 = e.1 := by
  have hmem : (e.1, e.2.bare) ∈ d'.bare.entries := List.mem_map_of_mem he
  rw [hbare] at hmem
  obtain ⟨e', he', heq⟩ := List.mem_map.1 hmem
  exact ⟨e', he', (Prod.mk.inj heq).1⟩

/-- A tree whose files get other contents is a tree. -/
theorem IsTree.of_bare (h : d.IsTree) {d' : Disk} (hbare : d'.bare = d.bare) : d'.IsTree := by
  refine ⟨h.distinct.of_bare hbare, ?_, ?_⟩
  · intro e he
    obtain ⟨e', he', heq⟩ := exists_mem_of_bare hbare he
    exact heq ▸ h.proper e' he'
  · intro e he
    obtain ⟨e', he', heq⟩ := exists_mem_of_bare hbare he
    rw [isDirectoryAt_of_bare hbare, ← heq]
    exact h.parent e' he'

/-- Above an entry there are directories. -/
theorem IsTree.ancestor (h : d.IsTree) {loc : Location} {names : List Name} (hne : names ≠ []) {e : Entry}
    (he : d.entry? (loc ++ names) = some e) : d.isDirectoryAt loc = true := by
  induction names using List.reverseRecOn generalizing e with
  | nil => exact absurd rfl hne
  | append_singleton init n ih =>
    have hparent := h.parent _ (mem_entries_of_entry_eq_some (by simp) he)
    rw [← List.append_assoc, List.dropLast_concat] at hparent
    by_cases hinit : init = []
    · rwa [hinit, List.append_nil] at hparent
    · exact ih hinit (isDirectoryAt_iff.1 hparent)

/-- The names that lead to an entry are proper. -/
theorem IsTree.properNames (h : d.IsTree) {loc : Location} {e : Entry} (he : d.entry? loc = some e) :
    ∀ n ∈ loc, n.Proper := by
  by_cases hloc : loc = []
  · simp [hloc]
  · exact (h.proper _ (mem_entries_of_entry_eq_some hloc he)).2

/-! ## Following names in a tree -/

theorem isStep_of_proper {n : Name} (hn : n.Proper) (hlen : n.length ≤ maxName) : IsStep n :=
  ⟨not_or.2 ⟨hn.nonempty, hn.notHere⟩, hn.notAbove, Nat.not_lt.2 hlen⟩

/-- Names that lead to an entry of a tree lead to its location, unless it is a link, and lead anywhere exactly when none of them is
too long. -/
theorem IsTree.descend_names (h : d.IsTree) {last : LastName} {f : Location → List Name → Except DiskError Location}
    {base x : Location} {names : List Name} {e : Entry} (he : d.entry? (base ++ names) = some e)
    (hlink : ∀ target, e ≠ .link target) :
    d.descend last f base names = .ok x ↔ (∀ n ∈ names, n.length ≤ maxName) ∧ x = base ++ names := by
  induction names generalizing base with
  | nil =>
    rw [List.append_nil, descend, Except.ok.injEq, eq_comm]
    simp
  | cons n names ih =>
    have hdir := h.ancestor (List.cons_ne_nil n names) he
    have hproper : ∀ m ∈ n :: names, m.Proper := fun m hm => h.properNames he m (List.mem_append_right _ hm)
    have hn := hproper n List.mem_cons_self
    rw [List.append_cons] at he ⊢
    have hstep : ∃ e, d.entry? (base ++ [n]) = some e ∧ ∀ target, e ≠ .link target := by
      by_cases hnames : names = []
      · subst hnames
        rw [List.append_nil] at he
        exact ⟨e, he, hlink⟩
      · exact ⟨.directory, isDirectoryAt_iff.1 (h.ancestor hnames he), fun target => by simp⟩
    obtain ⟨e', he', hlink'⟩ := hstep
    rw [List.forall_mem_cons, and_assoc, ← ih he]
    by_cases hlen : n.length ≤ maxName
    · have hempty : names ≠ [[]] := by
        rintro rfl
        exact (hproper [] (by simp)).nonempty rfl
      rw [descend_down hdir (isStep_of_proper hn hlen) he' hlink', if_neg fun hc => hempty hc.2, and_iff_right hlen]
    · constructor
      · intro hx
        exact absurd (isStep_of_descend (not_or.2 ⟨hn.nonempty, hn.notHere⟩) hn.notAbove hx).short (by omega)
      · exact fun hx => absurd hx.1 hlen

/-! ## Paths below a directory -/

/-- A path that leads somewhere can be opened, and its names are followed. -/
theorem locate_eq_ok {last : LastName} {p : Path} {x : Location} (h : d.locate last p = .ok x) :
    checkPath p = .ok () ∧ d.follow last maxLinks (origin d.workingDirectory p) (route p) = .ok x := by
  unfold locate at h
  cases hp : checkPath p with
  | error e =>
    rw [hp] at h
    cases h
  | ok u =>
    rw [hp] at h
    exact ⟨rfl, h⟩

/-- A path can be opened if it is not empty, not too long, and holds no zero byte. -/
theorem checkPath_eq_ok {p : Path} : checkPath p = .ok () ↔ 0 ∉ p.bytes ∧ p.bytes ≠ [] ∧ p.bytes.length < maxPath := by
  unfold checkPath
  split
  · simp_all
  · split
    · simp_all
    · split
      · simp_all
      · simp_all

theorem bytes_ne_nil_of_checkPath {p : Path} (h : checkPath p = .ok ()) : p.bytes ≠ [] := (checkPath_eq_ok.1 h).2.1

/-- A path that leads somewhere leads there by its names. -/
theorem follow_components {root : Path} {base : Location} (h : d.locate .follow root = .ok base) :
    d.follow .follow maxLinks (origin d.workingDirectory root) root.components = .ok base := by
  have hroute := (locate_eq_ok h).2
  unfold route at hroute
  split at hroute
  · exact follow_concat_nil hroute
  · exact hroute

variable {root : Path} {base : Location} {names : List Name}

/-- The names of a path to a directory, and names that lead to an entry from there, lead to that entry, unless it is a link. -/
theorem IsTree.follow_below (h : d.IsTree) (hroot : d.locate .follow root = .ok base) (hne : names ≠ []) {e : Entry}
    (he : d.entry? (base ++ names) = some e) (hlink : ∀ target, e ≠ .link target) {last : LastName} {x : Location} :
    d.follow last maxLinks (origin d.workingDirectory root) (root.components ++ names) = .ok x ↔
      (∀ n ∈ names, n.length ≤ maxName) ∧ x = base ++ names := by
  have hproper : ∀ n ∈ names, n.Proper := fun n hn => h.properNames he n (List.mem_append_right _ hn)
  have hempty : names ≠ [[]] := by
    rintro rfl
    exact (hproper [] (by simp)).nonempty rfl
  obtain ⟨k, hk⟩ := follow_append last hne hempty (follow_components hroot)
  rw [hk, follow_eq_descend]
  exact h.descend_names he hlink

/-- The way to a file goes along the names that lead to it. -/
theorem route_below (hroot : root.bytes ≠ []) (hne : names ≠ []) (hproper : ∀ n ∈ names, n.Proper) :
    route (root.below names) = root.components ++ names := by
  rw [route, Path.endsInSlash_below hne hproper, Path.components_below hroot hproper]
  rfl

/-- The way to a file begins where that to its directory does. -/
theorem origin_below (hroot : root.bytes ≠ []) (hproper : ∀ n ∈ names, n.Proper) (start : Location) :
    origin start (root.below names) = origin start root := by
  rw [origin, origin, Path.isAbsolute_below hroot hproper]

/-- The path of a file can be opened if it is not too long and no name holds a zero byte. -/
theorem checkPath_below_iff (hroot : checkPath root = .ok ()) (hproper : ∀ n ∈ names, n.Proper) :
    checkPath (root.below names) = .ok () ↔ (root.below names).bytes.length < maxPath ∧ ∀ n ∈ names, (0 : UInt8) ∉ n := by
  obtain ⟨hnull, hne, -⟩ := checkPath_eq_ok.1 hroot
  rw [checkPath_eq_ok, Path.zero_mem_bytes_below hproper, or_iff_right hnull, and_iff_right (Path.bytes_below_ne_nil hne hproper),
    and_comm]
  simp

/-- A path below a directory leads to the entry below it, unless that is a link, and leads anywhere exactly when the operating system
takes the path and its names. -/
theorem IsTree.locate_below_iff (h : d.IsTree) (hroot : d.locate .follow root = .ok base) (hne : names ≠ []) {e : Entry}
    (he : d.entry? (base ++ names) = some e) (hlink : ∀ target, e ≠ .link target) {last : LastName} {x : Location} :
    d.locate last (root.below names) = .ok x ↔
      (root.below names).bytes.length < maxPath ∧ (∀ n ∈ names, n.Fits) ∧ x = base ++ names := by
  have hcheck := (locate_eq_ok hroot).1
  have hbytes := bytes_ne_nil_of_checkPath hcheck
  have hproper : ∀ n ∈ names, n.Proper := fun n hn => h.properNames he n (List.mem_append_right _ hn)
  have hfollow : d.follow last maxLinks _ _ = .ok x ↔ _ := h.follow_below hroot hne he hlink
  rw [← origin_below hbytes hproper, ← route_below hbytes hne hproper] at hfollow
  constructor
  · intro hx
    obtain ⟨hcheck', hx⟩ := locate_eq_ok hx
    obtain ⟨hshort, hnull⟩ := (checkPath_below_iff hcheck hproper).1 hcheck'
    obtain ⟨hlen, hx⟩ := hfollow.1 hx
    exact ⟨hshort, fun n hn => ⟨hnull n hn, hlen n hn⟩, hx⟩
  · rintro ⟨hshort, hfits, hx⟩
    unfold locate
    rw [(checkPath_below_iff hcheck hproper).2 ⟨hshort, fun n hn => (hfits n hn).noNull⟩]
    exact hfollow.2 ⟨fun n hn => (hfits n hn).short, hx⟩

/-- The path of a file leads to it, if anywhere. -/
theorem IsTree.locate_below (h : d.IsTree) (hroot : d.locate .follow root = .ok base) (hne : names ≠ []) {e : Entry}
    (he : d.entry? (base ++ names) = some e) (hlink : ∀ target, e ≠ .link target) {last : LastName} {x : Location}
    (hx : d.locate last (root.below names) = .ok x) : x = base ++ names :=
  ((h.locate_below_iff hroot hne he hlink).1 hx).2.2

/-- A directory right below a directory is led to by the name, unless the path is too long. -/
theorem IsTree.locate_join (h : d.IsTree) {n : Name} (hroot : d.locate .follow root = .ok base) (hn : n.Fits)
    (he : d.entry? (base ++ [n]) = some .directory) (hshort : (root.join n).bytes.length < maxPath) :
    d.locate .follow (root.join n) = .ok (base ++ [n]) :=
  (h.locate_below_iff hroot (List.cons_ne_nil n []) he fun target => by simp).2 ⟨hshort, by simpa using hn, rfl⟩

end Disk

end Pseudonym
