import Pseudonym.Proofs.Extension
import Pseudonym.Proofs.Listings

/-!
# Moving the files of a tree

A file that is moved takes the place of a link that has its new name. So while files are moved one after the other, the directories
of the disk stay as they are, and of its links some may be lost (`Disk.LosesLinks`): a path that leads to a directory led there at
the beginning. When no file has a new name yet, moving the files comes to one relocation: the links in the way are lost, and each
file stands in its old directory under its new name (`Moved.eq_carry`). The disk is a tree as before (`Disk.IsTree.carry`).
-/

namespace Pseudonym

namespace Codebook

/-- The name that a codebook has for a name that is a text. -/
def newName? (b : Codebook) (n : Name) : Option Name := ((Utf8.decode? n).bind b.get?).map Utf8.encode

/-- The location of an entry that gets the name that a codebook has for its own, if it has one. -/
def newLocation (b : Codebook) (loc : Location) : Location :=
  loc.dropLast ++ (loc.getLast?.map fun n => (b.newName? n).getD n).toList

variable {b : Codebook}

/-- A new location differs in its last name at most. -/
theorem newLocation_concat (b : Codebook) (loc : Location) (n : Name) :
    b.newLocation (loc ++ [n]) = loc ++ [(b.newName? n).getD n] := by
  simp [newLocation]

/-- A new name leaves an entry below the locations that it was below. -/
theorem isPrefixOf_newLocation {base loc : Location} (h : loc ≠ base) (h' : b.newLocation loc ≠ base) :
    base.isPrefixOf (b.newLocation loc) = base.isPrefixOf loc := by
  rcases List.eq_nil_or_concat loc with rfl | ⟨init, n, rfl⟩
  · rfl
  · rw [List.concat_eq_append] at h h' ⊢
    rw [newLocation_concat] at h' ⊢
    rw [Bool.eq_iff_iff, List.isPrefixOf_iff_prefix, List.isPrefixOf_iff_prefix, List.prefix_concat_iff,
      List.prefix_concat_iff, or_iff_right (Ne.symm h), or_iff_right (Ne.symm h')]

/-- A new name is the pseudonym of a name that can be read. -/
theorem newName?_eq_some {n m : Name} (h : b.newName? n = some m) :
    ∃ t p, Utf8.decode? n = some t ∧ (t, p) ∈ b.entries ∧ m = Utf8.encode p := by
  obtain ⟨p, hp, rfl⟩ := Option.map_eq_some_iff.1 h
  obtain ⟨t, ht, hget⟩ := Option.bind_eq_some_iff.1 hp
  exact ⟨t, p, ht, mem_entries_of_get? hget, rfl⟩

/-- With distinct pseudonyms, no two names get the same name. -/
theorem newName?_inj (hnodup : b.pseudonyms.Nodup) {n n' m : Name} (h : b.newName? n = some m) (h' : b.newName? n' = some m) :
    n = n' := by
  obtain ⟨t, p, ht, hp, rfl⟩ := newName?_eq_some h
  obtain ⟨t', p', ht', hp', hencode⟩ := newName?_eq_some h'
  obtain rfl := Utf8.encode_injective hencode
  have hentry : (t, p) = (t', p) := List.inj_on_of_nodup_map hnodup hp hp' rfl
  rw [← Utf8.encode_of_decode? ht, ← Utf8.encode_of_decode? ht', (Prod.mk.inj hentry).1]

end Codebook

namespace Disk

/-! ## The directories and the links of a disk -/

/-- Another disk has the directories of a disk, and of its links perhaps not all. -/
structure LosesLinks (d d' : Disk) : Prop where
  workingDirectory : d'.workingDirectory = d.workingDirectory
  isDirectoryAt : ∀ loc, d'.isDirectoryAt loc = d.isDirectoryAt loc
  link : ∀ loc target, d'.entry? loc = some (.link target) → d.entry? loc = some (.link target)

/-- The same directories and links stand on two disks. -/
structure SameFrame (d d' : Disk) : Prop where
  workingDirectory : d'.workingDirectory = d.workingDirectory
  entry : ∀ loc e, (∀ c, e ≠ .file c) → (d'.entry? loc = some e ↔ d.entry? loc = some e)

variable {d d' d'' : Disk}

theorem LosesLinks.refl (d : Disk) : d.LosesLinks d := ⟨rfl, fun _ => rfl, fun _ _ h => h⟩

/-- Links that are lost stay lost. -/
theorem LosesLinks.trans (h : d.LosesLinks d') (h' : d'.LosesLinks d'') : d.LosesLinks d'' :=
  ⟨h'.workingDirectory.trans h.workingDirectory, fun loc => (h'.isDirectoryAt loc).trans (h.isDirectoryAt loc),
    fun loc target hl => h.link loc target (h'.link loc target hl)⟩

/-- Two disks have each other's frame. -/
theorem SameFrame.symm (h : d.SameFrame d') : d'.SameFrame d :=
  ⟨h.workingDirectory.symm, fun loc e he => (h.entry loc e he).symm⟩

/-- Disks of one frame have the same directories. -/
theorem SameFrame.isDirectoryAt (h : d.SameFrame d') (loc : Location) : d'.isDirectoryAt loc = d.isDirectoryAt loc := by
  rw [Bool.eq_iff_iff, isDirectoryAt_iff, isDirectoryAt_iff]
  exact h.entry loc .directory fun c => by simp

/-- A disk of the same frame loses no link. -/
theorem SameFrame.losesLinks (h : d.SameFrame d') : d.LosesLinks d' :=
  ⟨h.workingDirectory, h.isDirectoryAt, fun loc target hl => (h.entry loc (.link target) fun c => by simp).1 hl⟩

/-- New contents of files change neither directories nor links. -/
theorem SameFrame.of_bare (h : d'.bare = d.bare) : d.SameFrame d' := by
  have hwork : d'.bare.workingDirectory = d.bare.workingDirectory := by
    rw [h]
  refine ⟨hwork, ?_⟩
  intro loc e he
  have hbare {x : Entry} (hx : x.bare = e.bare) : x = e := by
    cases e with
    | file c => exact absurd rfl (he c)
    | directory =>
      cases x <;> cases hx
      rfl
    | link target =>
      cases x <;> cases hx
      rfl
  have hentry := entry?_of_bare h loc
  constructor
  · intro hx
    rw [hx] at hentry
    obtain ⟨x, hx', heq⟩ := Option.map_eq_some_iff.1 hentry.symm
    rw [hx', hbare heq]
  · intro hx
    rw [hx] at hentry
    obtain ⟨x, hx', heq⟩ := Option.map_eq_some_iff.1 hentry
    rw [hx', hbare heq]

/-- No file is passed on the way to a directory. -/
theorem LosesLinks.leads (h : d.LosesLinks d') {f g : Location → List Name → Except DiskError Location} {loc x : Location}
    {ns : List Name} (hf : d'.Leads f loc ns x) (hx : d'.isDirectoryAt x = true)
    (hlink : ∀ l ns, f l ns = .ok x → g l ns = .ok x) : d.Leads g loc ns x := by
  have hsame {l : Location} (hl : d'.isDirectoryAt l = true) : d.isDirectoryAt l = true := (h.isDirectoryAt l).symm.trans hl
  induction hf with
  | arrived => exact .arrived _
  | stay hdir hn _ ih => exact .stay (hsame hdir) hn (ih hx hlink)
  | up hdir _ ih => exact .up (hsame hdir) (ih hx hlink)
  | @down loc x n ns e hdir hn he hne hrest ih =>
    have hdir' : d'.isDirectoryAt (loc ++ [n]) = true := by
      cases hrest with
      | arrived => exact hx
      | stay hdir => exact hdir
      | up hdir => exact hdir
      | down hdir => exact hdir
      | link hdir => exact hdir
    exact .down (hsame hdir) hn (isDirectoryAt_iff.1 (hsame hdir')) (fun target => by simp) (ih hx hlink)
  | link hdir hn he hf => exact .link (hsame hdir) hn (h.link _ _ he) (hlink _ _ hf)

/-- Names that lead to a directory on a disk with fewer links led there before. -/
theorem LosesLinks.follow (h : d.LosesLinks d') {x : Location} (hx : d'.isDirectoryAt x = true) {links : Nat} {loc : Location}
    {ns : List Name} (hf : d'.follow .follow links loc ns = .ok x) : d.follow .follow links loc ns = .ok x := by
  induction links generalizing loc ns with
  | zero =>
    refine leads_iff.2 (h.leads (leads_iff.1 hf) hx ?_)
    intro l ns hl
    cases hl
  | succ links ih => exact leads_iff.2 (h.leads (leads_iff.1 hf) hx fun l ns hl => ih hl)

/-- A path that leads to a directory led there before links were lost. -/
theorem LosesLinks.locate (h : d.LosesLinks d') {root : Path} {base : Location} (hroot : d'.locate .follow root = .ok base)
    (hdir : d'.isDirectoryAt base = true) : d.locate .follow root = .ok base := by
  obtain ⟨hcheck, hfollow⟩ := locate_eq_ok hroot
  rw [h.workingDirectory] at hfollow
  unfold Disk.locate
  rw [hcheck]
  exact h.follow hdir hfollow

/-- A path to a directory leads to it on every disk with the same directories and links. -/
theorem SameFrame.locate (h : d.SameFrame d') {root : Path} {base : Location} (hroot : d.locate .follow root = .ok base)
    (hdir : d.isDirectoryAt base = true) : d'.locate .follow root = .ok base :=
  h.symm.losesLinks.locate hroot hdir

/-! ## Entries at other locations -/

/-- A disk with its entries at other locations. -/
def carry (d : Disk) (h : Location → Location) : Disk := { d with entries := d.entries.map fun x => (h x.1, x.2) }

/-- Entries that are carried twice are carried once. -/
theorem carry_carry (g h : Location → Location) : (d.carry g).carry h = d.carry fun l => h (g l) := by
  unfold carry
  rw [List.map_map]
  rfl

/-- Only where entries stand matters to where they are carried. -/
theorem carry_congr {g h : Location → Location} (hgh : ∀ x ∈ d.entries, g x.1 = h x.1) : d.carry g = d.carry h := by
  unfold carry
  congr 1
  exact List.map_congr_left fun x hx => by rw [hgh x hx]

/-- Entries that are carried nowhere stay. -/
theorem carry_id : d.carry (fun l => l) = d := by
  have hmap : d.entries.map (fun x => (x.1, x.2)) = d.entries := List.map_id d.entries
  unfold carry
  rw [hmap]

/-- What stands on the other disk has been carried there. -/
theorem mem_carry {h : Location → Location} {loc : Location} {e : Entry} :
    (loc, e) ∈ (d.carry h).entries ↔ ∃ l, (l, e) ∈ d.entries ∧ h l = loc := by
  unfold carry
  rw [List.mem_map]
  constructor
  · rintro ⟨x, hx, heq⟩
    obtain ⟨rfl, rfl⟩ := Prod.mk.inj heq
    exact ⟨x.1, hx, rfl⟩
  · rintro ⟨l, hl, rfl⟩
    exact ⟨(l, e), hl, rfl⟩

/-- Locations stay distinct when no two entries are carried to one. -/
theorem Distinct.carry (hd : d.Distinct) {h : Location → Location}
    (hinj : ∀ x ∈ d.entries, ∀ y ∈ d.entries, h x.1 = h y.1 → x.1 = y.1) : (d.carry h).Distinct := by
  have hmap : (d.carry h).entries.map (·.1) = (d.entries.map (·.1)).map h := by
    unfold Disk.carry
    rw [List.map_map, List.map_map]
    rfl
  unfold Distinct
  rw [hmap]
  refine List.Nodup.map_on ?_ hd
  intro l hl l' hl' heq
  obtain ⟨x, hx, rfl⟩ := List.mem_map.1 hl
  obtain ⟨y, hy, rfl⟩ := List.mem_map.1 hl'
  exact hinj x hx y hy heq

/-- A location with another one put for it. -/
def instead (old new loc : Location) : Location := if loc = old then new else loc

/-- To move an entry to where nothing stands is to carry it there. -/
theorem relocate_eq_carry {old new : Location} (hnew : ∀ x ∈ d.entries, x.1 ≠ new) :
    d.relocate old new = d.carry (instead old new) := by
  have hfilter : d.entries.filter (fun e => e.1 != new) = d.entries :=
    List.filter_eq_self.2 fun x hx => by simpa using hnew x hx
  unfold relocate
  split
  · next heq =>
    subst heq
    rw [← d.carry_id, carry_carry]
    refine carry_congr fun x _ => ?_
    unfold instead
    split
    · next h => exact h
    · rfl
  · rw [hfilter, carry]
    congr 1
    refine List.map_congr_left fun x _ => ?_
    unfold instead
    split <;> rfl

/-- Where only files come to other locations, the directories and the links are as they were. -/
theorem Distinct.sameFrame_carry (hd : d.Distinct) {h : Location → Location} (hd' : (d.carry h).Distinct)
    (hh : ∀ x ∈ d.entries, (∀ c, x.2 ≠ .file c) → h x.1 = x.1) : d.SameFrame (d.carry h) := by
  refine ⟨rfl, ?_⟩
  intro loc e he
  by_cases hloc : loc = []
  · subst hloc
    exact Iff.rfl
  rw [hd'.entry?_eq_some_iff hloc, hd.entry?_eq_some_iff hloc, mem_carry]
  constructor
  · rintro ⟨l, hl, rfl⟩
    rwa [hh _ hl he]
  · exact fun hl => ⟨loc, hl, hh _ hl he⟩

/-- A file that is moved to a free location leaves the directories and the links as they were. -/
theorem Distinct.carry_instead (hd : d.Distinct) {old new : Location} {c : Bytes} (hold : d.entry? old = some (.file c))
    (hne : new ≠ []) (hnew : d.entry? new = none) :
    d.relocate old new = d.carry (instead old new) ∧ (d.carry (instead old new)).Distinct ∧
      d.SameFrame (d.carry (instead old new)) := by
  have hfree : ∀ x ∈ d.entries, x.1 ≠ new := by
    rintro ⟨l, e⟩ hx rfl
    rw [(hd.entry?_eq_some_iff hne).2 hx] at hnew
    cases hnew
  have hold' : old ≠ [] := ne_nil_of_entry_eq_some hold (by simp)
  have hd' : (d.carry (instead old new)).Distinct := by
    refine hd.carry fun x hx y hy heq => ?_
    unfold instead at heq
    split at heq
    · next hxold =>
      split at heq
      · next hyold => rw [hxold, hyold]
      · exact absurd heq.symm (hfree y hy)
    · split at heq
      · exact absurd heq (hfree x hx)
      · exact heq
  refine ⟨relocate_eq_carry hfree, hd', hd.sameFrame_carry hd' ?_⟩
  rintro ⟨l, e⟩ hx he
  refine if_neg ?_
  rintro rfl
  rw [(hd.entry?_eq_some_iff hold').2 hx] at hold
  exact he c (Option.some.inj hold)

/-! ## Links that are lost -/

/-- A disk without the links at some locations. -/
def unlink (d : Disk) (locs : List Location) : Disk :=
  { d with entries := d.entries.filter fun x => !(x.2 matches .link _) || !locs.contains x.1 }

section Unlink

variable {locs : List Location}

/-- What is not a link at one of the locations stays. -/
theorem mem_unlink {x : Location × Entry} :
    x ∈ (d.unlink locs).entries ↔ x ∈ d.entries ∧ ∀ target, x.2 = .link target → x.1 ∉ locs := by
  unfold unlink
  rw [List.mem_filter]
  obtain ⟨l, _ | _ | _⟩ := x <;> simp

/-- A disk without some links is as distinct. -/
theorem Distinct.unlink (hd : d.Distinct) (locs : List Location) : (d.unlink locs).Distinct :=
  (List.filter_sublist.map _).nodup hd

/-- What is found without some links was found before and is none of them. -/
theorem Distinct.entry?_unlink (hd : d.Distinct) {loc : Location} {e : Entry} : entry? (d.unlink locs) loc = some e ↔
    d.entry? loc = some e ∧ ∀ target, e = .link target → loc ∉ locs := by
  by_cases hloc : loc = []
  · subst hloc
    constructor
    · intro h
      cases h
      exact ⟨rfl, fun target h => by cases h⟩
    · exact And.left
  · rw [(hd.unlink locs).entry?_eq_some_iff hloc, hd.entry?_eq_some_iff hloc, mem_unlink]

/-- A disk without some links has lost links only. -/
theorem Distinct.losesLinks_unlink (hd : d.Distinct) (locs : List Location) : d.LosesLinks (d.unlink locs) where
  workingDirectory := rfl
  isDirectoryAt := by
    intro loc
    rw [Bool.eq_iff_iff, isDirectoryAt_iff, isDirectoryAt_iff, hd.entry?_unlink]
    exact and_iff_left fun target h => by cases h
  link := fun _ _ h => (hd.entry?_unlink.1 h).1

/-- A tree without some links is a tree. -/
theorem IsTree.unlink (h : d.IsTree) (locs : List Location) : (d.unlink locs).IsTree where
  distinct := h.distinct.unlink locs
  proper := fun x hx => h.proper x (mem_unlink.1 hx).1
  parent := by
    intro x hx
    rw [(h.distinct.losesLinks_unlink locs).isDirectoryAt]
    exact h.parent x (mem_unlink.1 hx).1

/-- Which links are lost depends only on where links stand. -/
theorem unlink_congr {locs' : List Location} (h : ∀ l target, (l, .link target) ∈ d.entries → (l ∈ locs ↔ l ∈ locs')) :
    d.unlink locs = d.unlink locs' := by
  unfold Disk.unlink
  congr 1
  refine List.filter_congr ?_
  rintro ⟨l, c | _ | target⟩ hx
  · rfl
  · rfl
  · simp [h l target hx]

/-- Where no link stands, none is lost. -/
theorem unlink_eq_self (h : ∀ l ∈ locs, ∀ target, (l, .link target) ∉ d.entries) : d.unlink locs = d := by
  have hall : d.entries.filter (fun x => !(x.2 matches .link _) || !locs.contains x.1) = d.entries := by
    refine List.filter_eq_self.2 ?_
    rintro ⟨l, c | _ | target⟩ hx
    · rfl
    · rfl
    · simpa using fun hl => h l hl target hx
  unfold Disk.unlink
  rw [hall]

/-- Links are lost one after the other or at once. -/
theorem unlink_unlink (locs locs' : List Location) : (d.unlink locs).unlink locs' = d.unlink (locs ++ locs') := by
  unfold Disk.unlink
  rw [List.filter_filter]
  congr 1
  refine List.filter_congr ?_
  rintro ⟨l, c | _ | target⟩ -
  · rfl
  · rfl
  · simp [Bool.and_comm]

/-- Links that stay in their places can be lost before the other entries are moved. -/
theorem unlink_carry {h : Location → Location} (hlink : ∀ l target, (l, .link target) ∈ d.entries → h l = l) :
    (d.carry h).unlink locs = (d.unlink locs).carry h := by
  unfold Disk.unlink carry
  rw [List.filter_map]
  congr 2
  refine List.filter_congr ?_
  rintro ⟨l, c | _ | target⟩ hx
  · rfl
  · rfl
  · simp [hlink l target hx]

/-- An entry that is moved takes the place of a link. -/
theorem relocate_unlink {old new : Location} (hne : old ≠ new) : (d.unlink [new]).relocate old new = d.relocate old new := by
  unfold relocate
  rw [if_neg hne, if_neg hne, Disk.unlink, List.filter_filter]
  congr 2
  refine List.filter_congr ?_
  rintro ⟨l, c | _ | target⟩ - <;> simp

end Unlink

/-! ## One move -/

/-- What a move that succeeds has found, and what it leaves. -/
theorem move_eq_ok {old new : Path} (h : d.move old new = .ok d') : ∃ oldDir oldName newDir newName,
    checkPath old = .ok () ∧ d.splitLast old = .ok (oldDir, oldName) ∧ d.splitLast new = .ok (newDir, newName) ∧
    oldName.length ≤ maxName ∧ (∃ e, d.entry? (oldDir ++ [oldName]) = some e ∧ e ≠ .directory) ∧
    d.isDirectoryAt (newDir ++ [newName]) = false ∧ d' = d.relocate (oldDir ++ [oldName]) (newDir ++ [newName]) := by
  unfold move at h
  cases hold : checkPath old with
  | error e =>
    rw [hold] at h
    cases h
  | ok u =>
    cases hnew : checkPath new with
    | error e =>
      rw [hold, hnew] at h
      cases h
    | ok v =>
      cases hs : d.splitLast old with
      | error e =>
        rw [hold, hnew, hs] at h
        cases h
      | ok r =>
        cases hs' : d.splitLast new with
        | error e =>
          rw [hold, hnew, hs, hs'] at h
          cases h
        | ok r' =>
          rw [hold, hnew, hs, hs'] at h
          simp only [bind, Except.bind] at h
          split at h
          · cases h
          split at h
          · cases h
          next hlen =>
          split at h
          · cases h
          · cases h
          · next e hdir he =>
            split at h
            · cases h
            split at h
            · cases h
            split at h
            · cases h
            split at h
            · cases h
            next hfree =>
            split at h
            · cases h
            · exact ⟨r.1, r.2, r'.1, r'.2, rfl, rfl, rfl, Nat.not_lt.1 hlen, ⟨e, he, hdir⟩, by simpa using hfree,
                (Except.ok.inj h).symm⟩

/-- A path is split before its last name, at a directory. -/
theorem splitLast_eq_ok {p : Path} {ns : List Name} {n : Name} (hp : p.components = ns ++ [n]) {dir : Location} {name : Name}
    (h : d.splitLast p = .ok (dir, name)) :
    name = n ∧ d.follow .follow maxLinks (origin d.workingDirectory p) ns = .ok dir ∧ d.isDirectoryAt dir = true := by
  have hlast : p.components.getLast? = some n := by
    rw [hp, List.getLast?_concat]
  have hdrop : p.components.dropLast = ns := by
    rw [hp, List.dropLast_concat]
  unfold splitLast at h
  cases hcheck : checkPath p with
  | error e =>
    rw [hcheck] at h
    cases h
  | ok u =>
    rw [hcheck, hlast, hdrop] at h
    simp only [bind, Except.bind] at h
    cases hf : d.follow .follow maxLinks (origin d.workingDirectory p) ns with
    | error e =>
      rw [hf] at h
      cases h
    | ok loc =>
      simp only [hf] at h
      split at h
      · next hdir =>
        cases h
        exact ⟨rfl, rfl, hdir⟩
      · cases h

variable {root : Path} {base : Location}

/-- The directory of a path below a directory of a tree, on a disk that has lost some links. -/
theorem IsTree.splitLast_below (h : d.IsTree) (hframe : d.LosesLinks d') (hroot : d.locate .follow root = .ok base)
    {init : List Name} (hdir : d.isDirectoryAt (base ++ init) = true) {n : Name} (hn : n.Proper)
    {dir : Location} {name : Name} (hs : d'.splitLast (root.below (init ++ [n])) = .ok (dir, name)) :
    name = n ∧ dir = base ++ init := by
  have hbytes := bytes_ne_nil_of_checkPath (locate_eq_ok hroot).1
  have hinit := h.properNames (isDirectoryAt_iff.1 hdir)
  have hproper : ∀ m ∈ init ++ [n], m.Proper := by
    intro m hm
    rcases List.mem_append.1 hm with hm | hm
    · exact hinit m (List.mem_append_right _ hm)
    · exact List.mem_singleton.1 hm ▸ hn
  have hcomponents : (root.below (init ++ [n])).components = (root.components ++ init) ++ [n] := by
    rw [Path.components_below hbytes hproper, List.append_assoc]
  obtain ⟨hname, hfollow, hd⟩ := splitLast_eq_ok hcomponents hs
  rw [origin_below hbytes hproper, hframe.workingDirectory] at hfollow
  have hfollow' := hframe.follow hd hfollow
  refine ⟨hname, ?_⟩
  by_cases hne : init = []
  · subst hne
    rw [List.append_nil] at hfollow' ⊢
    exact Except.ok.inj (hfollow'.symm.trans (follow_components hroot))
  · exact ((h.follow_below hroot hne (isDirectoryAt_iff.1 hdir) fun target => by simp).1 hfollow').2

/-- A file below a directory of a tree is moved within its own directory. -/
theorem IsTree.move_below (h : d.IsTree) (hframe : d.LosesLinks d') (hroot : d.locate .follow root = .ok base)
    {init : List Name} (hdir : d.isDirectoryAt (base ++ init) = true) {n m : Name} (hn : n.Proper) (hm : m.Proper)
    (hmove : d'.move (root.below (init ++ [n])) (root.below (init ++ [m])) = .ok d'') :
    (∃ e, d'.entry? (base ++ (init ++ [n])) = some e ∧ e ≠ .directory) ∧
      d'.isDirectoryAt (base ++ (init ++ [m])) = false ∧
      d'' = d'.relocate (base ++ (init ++ [n])) (base ++ (init ++ [m])) := by
  obtain ⟨oldDir, oldName, newDir, newName, -, hold, hnew, -, he, hfree, rfl⟩ := move_eq_ok hmove
  obtain ⟨rfl, rfl⟩ := h.splitLast_below hframe hroot hdir hn hold
  obtain ⟨rfl, rfl⟩ := h.splitLast_below hframe hroot hdir hm hnew
  rw [List.append_assoc] at he hfree
  exact ⟨he, hfree, by rw [List.append_assoc, List.append_assoc]⟩

/-- A tree in which entries are moved within their directories is a tree, as long as no two of them come to one location. -/
theorem IsTree.carry (h : d.IsTree) {f : Location → Location} (hd : (d.carry f).Distinct) (hframe : d.LosesLinks (d.carry f))
    (hf : ∀ x ∈ d.entries, ∃ n, Name.Proper n ∧ f x.1 = x.1.dropLast ++ [n]) : (d.carry f).IsTree where
  distinct := hd
  proper := by
    rintro ⟨loc, e⟩ he
    obtain ⟨l, hl, rfl⟩ := mem_carry.1 he
    obtain ⟨n, hn, hfl⟩ := hf _ hl
    simp only at hfl ⊢
    rw [hfl]
    refine ⟨by simp, ?_⟩
    intro m hm
    rcases List.mem_append.1 hm with hm | hm
    · exact (h.proper _ hl).2 m (List.dropLast_subset _ hm)
    · exact List.mem_singleton.1 hm ▸ hn
  parent := by
    rintro ⟨loc, e⟩ he
    obtain ⟨l, hl, rfl⟩ := mem_carry.1 he
    obtain ⟨n, -, hfl⟩ := hf _ hl
    simp only at hfl ⊢
    rw [hfl, List.dropLast_concat, hframe.isDirectoryAt]
    exact h.parent _ hl

/-- A file is carried to its new location. -/
theorem IsTree.entry?_carry_unlink {d : Disk} {lost : List Location} {h : Location → Location}
    (ht : ((d.unlink lost).carry h).IsTree) {loc : Location} {c : Bytes} (hfile : d.entry? loc = some (.file c)) :
    entry? ((d.unlink lost).carry h) (h loc) = some (.file c) := by
  have hkept : (loc, Entry.file c) ∈ (d.unlink lost).entries :=
    mem_unlink.2 ⟨mem_entries_of_entry_eq_some (ne_nil_of_entry_eq_some hfile (by simp)) hfile, fun target h => by cases h⟩
  have hcarried : (h loc, Entry.file c) ∈ ((d.unlink lost).carry h).entries := mem_carry.2 ⟨loc, hkept, rfl⟩
  exact (ht.distinct.entry?_eq_some_iff (ht.proper _ hcarried).1).2 hcarried

end Disk

/-! ## All moves -/

namespace ImagePass

variable {root : Path}

/-- The name of a file is the last of the names that lead to it. -/
theorem leaf?_below (hroot : root.bytes ≠ []) {names : List Name} (hne : names ≠ []) (hnames : ∀ n ∈ names, n.Proper) :
    leaf? (root.below names) = names.getLast?.bind Utf8.decode? := by
  rw [leaf?, Path.fileName?_below hroot hne hnames]

/-- The path of a file that is renamed differs in its last name. -/
theorem renamed_below (hroot : root.bytes ≠ []) (hends : root.endsInSlash = false) {init : List Name} {n : Name}
    (hnames : ∀ m ∈ init ++ [n], m.Proper) (p : Text) :
    renamed (root.below (init ++ [n])) p = root.below (init ++ [Utf8.encode p]) := by
  rw [renamed, Path.withFileName_below hroot hends hnames, Path.below_concat]

end ImagePass

/-- Of images that have been moved, each that has a new name has been moved to it. -/
theorem Moved.exists_move {o : Options} (hdry : o.dryRun = false) {b : Codebook} {paths : List Path} {d d' : Disk}
    (h : Moved o b paths d d') {path : Path} (hpath : path ∈ paths) {name p : Text}
    (hleaf : ImagePass.leaf? path = some name) (hp : b.get? name = some p) :
    ∃ d₀ d₁ : Disk, d₀.move path (ImagePass.renamed path p) = .ok d₁ := by
  induction h with
  | nil d => cases hpath
  | skip hnone _ ih =>
    rcases List.mem_cons.1 hpath with rfl | hpath
    · rw [hleaf] at hnone
      cases hnone
    · exact ih hpath
  | @move _ _ _ _ d d₁ _ hsome hget hmove _ ih =>
    rcases List.mem_cons.1 hpath with rfl | hpath
    · rw [hleaf] at hsome
      obtain rfl := Option.some.inj hsome
      rw [hp] at hget
      obtain rfl := Option.some.inj hget
      rw [hdry, if_neg (by simp)] at hmove
      exact ⟨d, d₁, hmove⟩
    · exact ih hpath

/-- Where an entry stands when those at some locations have got the names that a codebook has for theirs. -/
def Codebook.place (b : Codebook) (locs : List Location) (loc : Location) : Location :=
  if loc ∈ locs then b.newLocation loc else loc

/-- Moving files below a location, each to its new name in its own directory. -/
def moveAll (b : Codebook) (base : Location) (files : List (List Name)) : Location → Location :=
  b.place (files.map (base ++ ·))

section MoveAll

variable {b : Codebook} {base : Location} {names : List Name} {files : List (List Name)}

/-- A file that is moved gets its new location. -/
theorem moveAll_append (h : names ∈ files) : moveAll b base files (base ++ names) = b.newLocation (base ++ names) :=
  if_pos (List.mem_map_of_mem h)

/-- A file that is not moved stays. -/
theorem moveAll_of_not_mem (h : names ∉ files) : moveAll b base files (base ++ names) = base ++ names := by
  refine if_neg fun hm => ?_
  obtain ⟨ns, hns, heq⟩ := List.mem_map.1 hm
  rw [List.append_cancel_left heq] at hns
  exact h hns

/-- The first of the files makes no difference to other locations. -/
theorem moveAll_of_ne {loc : Location} (h : loc ≠ base ++ names) :
    moveAll b base (names :: files) loc = moveAll b base files loc := by
  unfold moveAll Codebook.place
  rw [List.map_cons]
  simp [h]

end MoveAll

/-- Where files below a location are moved to. -/
def newLocations (b : Codebook) (base : Location) (files : List (List Name)) : List Location :=
  files.map fun names => b.newLocation (base ++ names)

/-- Files below a location of a tree that are still to be moved, on a disk that has lost some links of the tree. No pseudonym is the
name of one of them, and where one is to be moved to, there is no file. -/
structure Movable (b : Codebook) (t : Disk) (base : Location) (files : List (List Name)) (d : Disk) : Prop where
  distinct : d.Distinct
  frame : t.LosesLinks d
  nodup : files.Nodup
  file : ∀ names ∈ files, names ≠ [] ∧ ∃ c, t.entry? (base ++ names) = some (.file c)
  fresh : ∀ names ∈ files, ∀ p ∈ b.pseudonyms, names.getLast? ≠ some (Utf8.encode p)
  free : ∀ init n m, init ++ [n] ∈ files → b.newName? n = some m → ∀ c, d.entry? (base ++ (init ++ [m])) ≠ some (.file c)

namespace Movable

variable {b : Codebook} {t d d' : Disk} {root : Path} {base : Location} {names : List Name} {files : List (List Name)}

/-- When the first file has been moved, the others are still to be moved. -/
theorem tail (h : Movable b t base (names :: files) d) : Movable b t base files d where
  distinct := h.distinct
  frame := h.frame
  nodup := (List.nodup_cons.1 h.nodup).2
  file := fun ns hns => h.file ns (List.mem_cons_of_mem _ hns)
  fresh := fun ns hns => h.fresh ns (List.mem_cons_of_mem _ hns)
  free := fun init n m hm => h.free init n m (List.mem_cons_of_mem _ hm)

/-- The file that comes next has a name, and stands in a directory. -/
theorem exists_concat (h : Movable b t base (names :: files) d) (ht : t.IsTree) : ∃ init n, names = init ++ [n] ∧
    (∀ m ∈ init ++ [n], m.Proper) ∧ t.isDirectoryAt (base ++ init) = true := by
  obtain ⟨hne, c, hc⟩ := h.file names List.mem_cons_self
  refine ⟨names.dropLast, names.getLast hne, (List.dropLast_concat_getLast hne).symm, ?_, ?_⟩
  · rw [List.dropLast_concat_getLast]
    exact fun m hm => ht.properNames hc m (List.mem_append_right _ hm)
  · rw [← List.dropLast_concat_getLast hne, ← List.append_assoc] at hc
    exact ht.ancestor (List.cons_ne_nil _ []) hc

/-- Where the file that comes next stood on the tree, there is no link. -/
theorem not_link (h : Movable b t base (names :: files) d) (target : Path) : (base ++ names, .link target) ∉ d.entries := by
  obtain ⟨hne, c, hc⟩ := h.file names List.mem_cons_self
  intro hm
  have hlink := h.frame.link _ _ ((h.distinct.entry?_eq_some_iff (by simp [hne])).2 hm)
  rw [hc] at hlink
  cases hlink

/-- A move takes the file that comes next to its new location, where a link may be lost, and the files behind it can still be
moved. -/
theorem step (hnodup : b.pseudonyms.Nodup) {init : List Name} {n m : Name}
    (h : Movable b t base ((init ++ [n]) :: files) d) (hnew : b.newName? n = some m)
    (hentry : ∃ e, d.entry? (base ++ (init ++ [n])) = some e ∧ e ≠ .directory)
    (hnodir : d.isDirectoryAt (base ++ (init ++ [m])) = false) :
    d.relocate (base ++ (init ++ [n])) (base ++ (init ++ [m])) =
        (d.unlink [base ++ (init ++ [m])]).carry (Disk.instead (base ++ (init ++ [n])) (base ++ (init ++ [m]))) ∧
      Movable b t base files
        ((d.unlink [base ++ (init ++ [m])]).carry (Disk.instead (base ++ (init ++ [n])) (base ++ (init ++ [m])))) := by
  have hunlinked := h.distinct.unlink [base ++ (init ++ [m])]
  have hframe := h.frame.trans (h.distinct.losesLinks_unlink [base ++ (init ++ [m])])
  -- what is moved is the file, and where it is moved to there is nothing once the link is lost
  obtain ⟨c, hold⟩ : ∃ c, d.entry? (base ++ (init ++ [n])) = some (.file c) := by
    obtain ⟨e, he, hne⟩ := hentry
    cases e with
    | file c => exact ⟨c, he⟩
    | directory => exact absurd rfl hne
    | link target => exact absurd (Disk.mem_entries_of_entry_eq_some (by simp) he) (h.not_link target)
  have hold' : Disk.entry? (d.unlink [base ++ (init ++ [m])]) (base ++ (init ++ [n])) = some (.file c) :=
    h.distinct.entry?_unlink.2 ⟨hold, fun target he => by cases he⟩
  have hnone : Disk.entry? (d.unlink [base ++ (init ++ [m])]) (base ++ (init ++ [m])) = none := by
    cases hm : Disk.entry? (d.unlink [base ++ (init ++ [m])]) (base ++ (init ++ [m])) with
    | none => rfl
    | some e =>
      obtain ⟨he, hlost⟩ := h.distinct.entry?_unlink.1 hm
      cases e with
      | file c => exact absurd he (h.free init n m List.mem_cons_self hnew c)
      | directory =>
        rw [Disk.isDirectoryAt_iff.2 he] at hnodir
        cases hnodir
      | link target => exact absurd List.mem_cons_self (hlost target rfl)
  have hne : base ++ (init ++ [n]) ≠ base ++ (init ++ [m]) := by
    intro heq
    rw [heq] at hold
    exact h.free init n m List.mem_cons_self hnew c hold
  obtain ⟨hcarry, hdistinct, hsame⟩ := hunlinked.carry_instead hold' (by simp) hnone
  rw [Disk.relocate_unlink hne] at hcarry
  refine ⟨hcarry, { h.tail with distinct := hdistinct, frame := hframe.trans hsame.losesLinks, free := ?_ }⟩
  intro init' n' m' hm' hnew' c' he
  rw [hdistinct.entry?_eq_some_iff (by simp), Disk.mem_carry] at he
  obtain ⟨l, hl, hlm⟩ := he
  unfold Disk.instead at hlm
  split at hlm
  · -- two files would be moved to one location
    obtain ⟨rfl, hlast⟩ := List.append_inj' (List.append_cancel_left hlm) rfl
    obtain rfl : m = m' := (List.cons.inj hlast).1
    obtain rfl := Codebook.newName?_inj hnodup hnew hnew'
    exact absurd hm' (List.nodup_cons.1 h.nodup).1
  · subst hlm
    refine h.free init' n' m' (List.mem_cons_of_mem _ hm') hnew' c' ?_
    exact (h.distinct.entry?_eq_some_iff (by simp)).2 (Disk.mem_unlink.1 hl).1

end Movable

/-- Files that are moved one after the other, each to the name that a codebook has for it, are all moved at once, and the links that
stood where they are moved to are lost. -/
theorem Moved.eq_carry {o : Options} (hdry : o.dryRun = false) {b : Codebook} (hnodup : b.pseudonyms.Nodup)
    (hproper : ∀ p ∈ b.pseudonyms, Name.Proper (Utf8.encode p)) {t : Disk} (ht : t.IsTree) {root : Path} {base : Location}
    (hroot : t.locate .follow root = .ok base) (hends : root.endsInSlash = false) {files : List (List Name)} {d d' : Disk}
    (hd : Movable b t base files d) (h : Moved o b (files.map root.below) d d') :
    d' = (d.unlink (newLocations b base files)).carry (moveAll b base files) ∧ d'.Distinct ∧ t.LosesLinks d' := by
  have hbytes := Disk.bytes_ne_nil_of_checkPath (Disk.locate_eq_ok hroot).1
  induction files generalizing d with
  | nil =>
    cases h
    refine ⟨?_, hd.distinct, hd.frame⟩
    rw [Disk.unlink_eq_self (by simp [newLocations])]
    exact Disk.carry_id.symm
  | cons names files ih =>
    obtain ⟨init, n, rfl, hnames, hdir⟩ := hd.exists_concat ht
    have hleaf := ImagePass.leaf?_below hbytes (by simp) hnames
    rw [List.getLast?_concat, Option.bind_some] at hleaf
    have hself : b.newLocation (base ++ (init ++ [n])) = base ++ (init ++ [(b.newName? n).getD n]) := by
      rw [← List.append_assoc, Codebook.newLocation_concat, List.append_assoc]
    have hmoved : moveAll b base ((init ++ [n]) :: files) (base ++ (init ++ [n])) =
        base ++ (init ++ [(b.newName? n).getD n]) := by
      rw [moveAll_append List.mem_cons_self, hself]
    have hlocations : newLocations b base ((init ++ [n]) :: files) =
        (base ++ (init ++ [(b.newName? n).getD n])) :: newLocations b base files := by
      rw [newLocations, List.map_cons, hself]
      rfl
    rw [List.map_cons] at h
    cases h with
    | skip hnone hrest =>
      -- a name that is no text stays, so that this file is not moved
      rw [hleaf] at hnone
      have hnew : b.newName? n = none := by
        rw [Codebook.newName?, hnone]
        rfl
      obtain ⟨rfl, hd'⟩ := ih hd.tail hrest
      refine ⟨?_, hd'⟩
      have hunlink : d.unlink (newLocations b base ((init ++ [n]) :: files)) = d.unlink (newLocations b base files) := by
        refine Disk.unlink_congr fun l target hl => ?_
        rw [hlocations, hnew, Option.getD_none, List.mem_cons]
        refine or_iff_right ?_
        rintro rfl
        exact hd.not_link target hl
      rw [hunlink]
      refine Disk.carry_congr fun x _ => ?_
      by_cases hx : x.1 = base ++ (init ++ [n])
      · rw [hx, hmoved, hnew, moveAll_of_not_mem (List.nodup_cons.1 hd.nodup).1]
        rfl
      · exact (moveAll_of_ne hx).symm
    | @move _ name p _ _ d₁ _ hsome hget hmove hrest =>
      rw [hleaf] at hsome
      rw [hdry, if_neg (by simp)] at hmove
      have hnew : b.newName? n = some (Utf8.encode p) := by
        rw [Codebook.newName?, hsome, Option.bind_some, hget]
        rfl
      have hp : p ∈ b.pseudonyms := List.mem_map_of_mem (Codebook.mem_entries_of_get? hget)
      rw [ImagePass.renamed_below hbytes hends hnames] at hmove
      obtain ⟨hentry, hnodir, rfl⟩ := ht.move_below hd.frame hroot hdir (hnames n (by simp)) (hproper p hp) hmove
      obtain ⟨hcarry, hd₁⟩ := hd.step hnodup hnew hentry hnodir
      rw [hcarry] at hrest
      obtain ⟨rfl, hd'⟩ := ih hd₁ hrest
      refine ⟨?_, hd'⟩
      rw [Disk.unlink_carry, Disk.unlink_unlink, hlocations, hnew, Option.getD_some, List.singleton_append, Disk.carry_carry]
      · refine Disk.carry_congr fun x _ => ?_
        unfold Disk.instead
        split
        · next hx =>
          have hnot : init ++ [Utf8.encode p] ∉ files := fun hm => hd.tail.fresh _ hm p hp (List.getLast?_concat ..)
          rw [hx, hmoved, hnew, moveAll_of_not_mem hnot]
          rfl
        · next hx => exact (moveAll_of_ne hx).symm
      · intro l target hl
        refine if_neg ?_
        rintro rfl
        exact hd.not_link target (Disk.mem_unlink.1 hl).1

end Pseudonym
