import Pseudonym.Proofs.Listings

/-!
# Rewriting the files of a tree

Rewriting files one after the other comes to one edit of the disk: the content of each file is changed where it stands, all at
once (`Rewritten.eq_edit`). When the text files below a directory are rewritten, the change of a content depends on its
location only: whether it lies below the directory, and the language that the last name tells (`Rewritten.eq_editTexts`).
-/

namespace Pseudonym

/-- An entry with the content of a file changed. -/
def Entry.edit (g : Bytes → Bytes) : Entry → Entry
  | .file c => .file (g c)
  | e => e

/-- A disk with the content of each file changed, in a way that may depend on where it stands. -/
def Disk.edit (d : Disk) (g : Location → Bytes → Bytes) : Disk :=
  { d with entries := d.entries.map fun x => (x.1, x.2.edit (g x.1)) }

/-- What a rewriter makes of the bytes of a file. -/
def Rewriter.apply (r : Rewriter) (bytes : Bytes) : Bytes :=
  match r.rename (Charset.decode bytes).1 with
  | none => bytes
  | some new => (Charset.decode bytes).2.encode new

/-- The language that a file's name tells by its extension. -/
def Language.ofName? (n : Name) : Option Language :=
  match (Path.extensionOf n).bind Utf8.decode? with
  | some ext => all.find? fun l => sameIgnoringCase ext l.extension
  | none => none

/-- The language of the file at a location. -/
def languageAt (loc : Location) : Option Language := loc.getLast?.bind Language.ofName?

namespace Disk

variable {d : Disk}

/-- An edit changes contents and nothing else. -/
theorem bare_edit (g : Location → Bytes → Bytes) : (d.edit g).bare = d.bare := by
  unfold edit bare
  rw [List.map_map]
  congr 1
  refine List.map_congr_left fun x _ => ?_
  obtain ⟨l, _ | _ | _⟩ := x <;> rfl

/-- The entry at a location is edited for this location. -/
theorem entry?_edit (g : Location → Bytes → Bytes) (loc : Location) :
    entry? (d.edit g) loc = (d.entry? loc).map (Entry.edit (g loc)) := by
  unfold entry? edit
  split
  · rfl
  · induction d.entries with
    | nil => rfl
    | cons x es ih =>
      rw [List.map_cons, List.lookup_cons, List.lookup_cons]
      by_cases hloc : loc = x.1
      · simp [hloc]
      · rw [beq_eq_false_iff_ne.2 hloc]
        exact ih

/-- Two edits are one. -/
theorem edit_edit (g h : Location → Bytes → Bytes) : (d.edit g).edit h = d.edit fun l c => h l (g l c) := by
  unfold edit
  rw [List.map_map]
  congr 1
  refine List.map_congr_left fun x _ => ?_
  obtain ⟨l, _ | _ | _⟩ := x <;> rfl

/-- Edits that agree on the files of a disk are the same. -/
theorem edit_congr {g h : Location → Bytes → Bytes} (hgh : ∀ l c, (l, .file c) ∈ d.entries → g l c = h l c) :
    d.edit g = d.edit h := by
  unfold edit
  congr 1
  refine List.map_congr_left fun x hx => ?_
  obtain ⟨l, c | _ | target⟩ := x
  · exact congrArg (fun c => (l, Entry.file c)) (hgh l c hx)
  · rfl
  · rfl

/-- An edit that changes no content changes nothing. -/
theorem edit_id : d.edit (fun _ c => c) = d := by
  have hmap : d.entries.map (fun x => (x.1, x.2.edit fun c => c)) = d.entries := by
    rw [List.map_congr_left (g := id), List.map_id]
    rintro ⟨l, _ | _ | _⟩ - <;> rfl
  unfold edit
  rw [hmap]

/-- A new content at one location is an edit. -/
theorem Distinct.put_eq_edit (hd : d.Distinct) {loc : Location} {old : Bytes} (h : d.entry? loc = some (.file old))
    {g : Bytes → Bytes} : d.put loc (.file (g old)) = d.edit fun l c => if l = loc then g c else c := by
  have hloc : loc ≠ [] := ne_nil_of_entry_eq_some h (by simp)
  rw [put_eq_map hloc h, edit]
  congr 1
  refine List.map_congr_left fun x hx => ?_
  obtain ⟨l, e⟩ := x
  by_cases hl : l = loc
  · subst hl
    have he := (hd.entry?_eq_some_iff hloc).2 hx
    rw [h] at he
    cases he
    simp [Entry.edit]
  · cases e <;> simp [Entry.edit, hl]

end Disk

/-- A file that is rewritten is edited where its path leads. -/
theorem Rewriter.Writes.eq_edit {o : Options} {path : Path} {r : Rewriter} {d d' : Disk} (hdry : o.dryRun = false)
    (hd : d.Distinct) (h : r.Writes o path d d') : ∃ loc, d.locate .follow path = .ok loc ∧
      d' = d.edit fun l c => if l = loc then r.apply c else c := by
  obtain ⟨bytes, hread, hwrite⟩ := h
  obtain ⟨loc, hloc, hentry, -⟩ := Disk.read_eq_ok hread
  refine ⟨loc, hloc, ?_⟩
  rcases hwrite with ⟨hnone, rfl⟩ | ⟨new, hnew, hwrite⟩
  · rw [← d'.edit_id, Disk.edit_edit]
    refine Disk.edit_congr fun l c hc => ?_
    split
    · next hl =>
      subst hl
      have hc' := (hd.entry?_eq_some_iff (Disk.ne_nil_of_entry_eq_some hentry (by simp))).2 hc
      rw [hentry] at hc'
      cases hc'
      rw [Rewriter.apply, hnone]
    · rfl
  · rw [hdry, if_neg (by simp)] at hwrite
    rw [← hd.put_eq_edit hentry, Rewriter.apply, hnew]
    exact Disk.write_eq_ok hloc hentry hwrite

/-- The edit that rewriting files comes to, each given by the names that lead to it from a location. -/
def editsOf (base : Location) (files : List (List Name × Rewriter)) (loc : Location) (c : Bytes) : Bytes :=
  files.foldl (fun c f => if loc = base ++ f.1 then f.2.apply c else c) c

/-- Files that are rewritten one after the other are edited all at once. -/
theorem Rewritten.eq_edit {o : Options} (hdry : o.dryRun = false) {root : Path} {base : Location}
    {files : List (List Name × Rewriter)} {d d' : Disk} (hd : d.Distinct)
    (hloc : ∀ f ∈ files, ∀ x, d.locate .follow (root.below f.1) = .ok x → x = base ++ f.1)
    (h : Rewritten o (files.map fun f => (root.below f.1, f.2)) d d') : d' = d.edit (editsOf base files) := by
  induction files generalizing d with
  | nil =>
    cases h
    exact Disk.edit_id.symm
  | cons f files ih =>
    rw [List.map_cons] at h
    cases h with
    | @cons _ _ _ _ d₁ _ hwrites hrest =>
      obtain ⟨loc, hlead, rfl⟩ := hwrites.eq_edit hdry hd
      obtain rfl := hloc f List.mem_cons_self loc hlead
      have hbare := Disk.bare_edit (d := d) fun l c => if l = base ++ f.1 then f.2.apply c else c
      rw [ih (hd.of_bare hbare) ?_ hrest, Disk.edit_edit]
      · rfl
      · intro f' hf' x hx
        rw [Disk.locate_of_bare hbare] at hx
        exact hloc f' (List.mem_cons_of_mem _ hf') x hx

/-! ## The text files below a directory -/

/-- The language of a path is that of its file name. -/
theorem Language.ofPath?_eq (p : Path) : Language.ofPath? p = p.fileName?.bind Language.ofName? := by
  unfold Language.ofPath? Path.extension?
  cases p.fileName? <;> rfl

/-- The language at a location is that of the last name. -/
theorem languageAt_append {base : Location} {names : List Name} (hne : names ≠ []) :
    languageAt (base ++ names) = names.getLast?.bind Language.ofName? := by
  rw [languageAt, List.getLast?_append, List.getLast?_eq_some_getLast hne, Option.some_or]

/-- A path below a directory has the language of the location it leads to. -/
theorem Path.ofPath?_below {root : Path} {base : Location} {names : List Name} (hroot : root.bytes ≠ []) (hne : names ≠ [])
    (h : ∀ n ∈ names, n.Proper) : Language.ofPath? (root.below names) = languageAt (base ++ names) := by
  rw [Language.ofPath?_eq, fileName?_below hroot hne h, languageAt_append hne]

/-- In a listing of text files, each file has its language. -/
theorem tagged?_all (p : Path) : Pass.tagged? Language.all p = (Language.ofPath? p).map fun l => (p, l) := by
  unfold Pass.tagged?
  rcases Language.ofPath? p with _ | _ | _ | _ <;> rfl

/-- What the rewriting of the text files below a location makes of the content at another one. -/
def editTexts (base : Location) (rewriter : Language → Rewriter) (loc : Location) (c : Bytes) : Bytes :=
  if base.isPrefixOf loc then
    match languageAt loc with
    | some l => (rewriter l).apply c
    | none => c
  else c

/-- A location that is not among the files is not edited. -/
theorem editsOf_of_not_mem {base : Location} {files : List (List Name × Rewriter)} {loc : Location}
    (h : ∀ f ∈ files, loc ≠ base ++ f.1) (c : Bytes) : editsOf base files loc c = c := by
  unfold editsOf
  induction files with
  | nil => rfl
  | cons f files ih =>
    rw [List.foldl_cons, if_neg (h f List.mem_cons_self)]
    exact ih fun f' hf' => h f' (List.mem_cons_of_mem _ hf')

/-- Of files that are listed once each, the edit at a location is that of the file there. -/
theorem editsOf_append {base : Location} {files : List (List Name × Rewriter)} (hnodup : (files.map (·.1)).Nodup)
    {names : List Name} {r : Rewriter} (h : (names, r) ∈ files) (c : Bytes) :
    editsOf base files (base ++ names) c = r.apply c := by
  induction files generalizing c with
  | nil => cases h
  | cons f files ih =>
    rw [List.map_cons, List.nodup_cons] at hnodup
    obtain ⟨hfirst, hrest⟩ := hnodup
    show editsOf base files (base ++ names) (if base ++ names = base ++ f.1 then f.2.apply c else c) = _
    rcases List.mem_cons.1 h with rfl | h
    · rw [if_pos rfl]
      refine editsOf_of_not_mem ?_ _
      intro f hf heq
      exact hfirst (List.mem_map.2 ⟨f, hf, (List.append_cancel_left heq).symm⟩)
    · rw [if_neg, ih hrest h]
      intro heq
      exact hfirst (List.mem_map.2 ⟨(names, r), h, List.append_cancel_left heq⟩)

/-- The text files below a location, by the names that lead to them, each with the rewriter for its language. -/
def textFiles (d : Disk) (base : Location) (rewriter : Language → Rewriter) : List (List Name × Rewriter) :=
  (d.filesFrom d.depth base).filterMap fun names => (languageAt (base ++ names)).map fun l => (names, rewriter l)

section TextFiles

variable {d : Disk} {root : Path} {base : Location} {rewriter : Language → Rewriter}

/-- The text files are those that are found and have a language. -/
theorem mem_textFiles {names : List Name} {r : Rewriter} : (names, r) ∈ textFiles d base rewriter ↔
    names ∈ d.filesFrom d.depth base ∧ ∃ l, languageAt (base ++ names) = some l ∧ r = rewriter l := by
  unfold textFiles
  rw [List.mem_filterMap]
  constructor
  · rintro ⟨names', hnames, h⟩
    obtain ⟨l, hl, he⟩ := Option.map_eq_some_iff.1 h
    obtain ⟨rfl, rfl⟩ := Prod.mk.inj he
    exact ⟨hnames, l, hl, rfl⟩
  · rintro ⟨hnames, l, hl, rfl⟩
    exact ⟨names, hnames, by rw [hl]; rfl⟩

/-- No text file is found twice. -/
theorem nodup_textFiles (ht : d.IsTree) (base : Location) (rewriter : Language → Rewriter) :
    ((textFiles d base rewriter).map (·.1)).Nodup := by
  unfold textFiles
  rw [List.map_filterMap]
  refine (ht.nodup_filesFrom d.depth base).filterMap ?_
  intro names names' x hx hx'
  simp only [Option.map_map, Option.mem_def, Option.map_eq_some_iff, Function.comp_apply] at hx hx'
  obtain ⟨-, -, rfl⟩ := hx
  obtain ⟨-, -, rfl⟩ := hx'
  rfl

/-- The text files that are listed are those that stand there. -/
theorem map_textsBelow (ht : d.IsTree) (hroot : d.locate .follow root = .ok base) (hdir : d.isDirectoryAt base = true)
    (hlists : d.Lists root) : (textsBelow d root).map (fun f => (f.1, rewriter f.2)) =
      (textFiles d base rewriter).map fun f => (root.below f.1, f.2) := by
  have hbytes := Disk.bytes_ne_nil_of_checkPath (Disk.locate_eq_ok hroot).1
  unfold textFiles
  rw [textsBelow, hlists.filesBelow_eq hroot hdir, List.filterMap_map, List.map_filterMap, List.map_filterMap]
  refine List.filterMap_congr ?_
  intro names hnames
  obtain ⟨hne, c, hc⟩ := ht.mem_filesFrom_depth.1 hnames
  have hproper : ∀ n ∈ names, n.Proper := fun n hn => ht.properNames hc n (List.mem_append_right _ hn)
  rw [Function.comp_apply, tagged?_all, Path.ofPath?_below hbytes hne hproper]
  cases languageAt (base ++ names) <;> rfl

/-- The edit that rewriting the text files comes to, at a file of the tree. -/
theorem editsOf_textFiles (ht : d.IsTree) (hdir : d.isDirectoryAt base = true) {loc : Location} {c : Bytes}
    (hfile : (loc, .file c) ∈ d.entries) :
    editsOf base (textFiles d base rewriter) loc c = editTexts base rewriter loc c := by
  unfold editTexts
  split
  · next hbelow =>
    obtain ⟨names, rfl⟩ := List.isPrefixOf_iff_prefix.1 hbelow
    have hc := (ht.distinct.entry?_eq_some_iff (ht.proper _ hfile).1).2 hfile
    have hne : names ≠ [] := by
      rintro rfl
      rw [List.append_nil, Disk.isDirectoryAt_iff.1 hdir] at hc
      cases hc
    have hnames := ht.mem_filesFrom_depth.2 ⟨hne, c, hc⟩
    split
    · next l hl => exact editsOf_append (nodup_textFiles ht base rewriter) (mem_textFiles.2 ⟨hnames, l, hl, rfl⟩) c
    · next hl =>
      refine editsOf_of_not_mem ?_ c
      intro f hf heq
      obtain ⟨-, l, hl', -⟩ := mem_textFiles.1 hf
      rw [heq, hl'] at hl
      cases hl
  · next hbelow =>
    refine editsOf_of_not_mem ?_ c
    intro f hf heq
    rw [heq] at hbelow
    exact hbelow (List.isPrefixOf_iff_prefix.2 (List.prefix_append _ _))

end TextFiles

/-- The text files below a directory are rewritten by language, each where it stands. -/
theorem Rewritten.eq_editTexts {o : Options} (hdry : o.dryRun = false) {root : Path} {base : Location} {d d' : Disk}
    (ht : d.IsTree) (hroot : d.locate .follow root = .ok base) (hdir : d.isDirectoryAt base = true)
    (hlists : d.Lists root) {rewriter : Language → Rewriter}
    (h : Rewritten o ((textsBelow d root).map fun f => (f.1, rewriter f.2)) d d') :
    d' = d.edit (editTexts base rewriter) := by
  rw [map_textsBelow ht hroot hdir hlists] at h
  rw [Rewritten.eq_edit hdry ht.distinct ?_ h]
  · exact Disk.edit_congr fun loc c hc => editsOf_textFiles ht hdir hc
  · intro f hf x hx
    obtain ⟨hne, c, hc⟩ := ht.mem_filesFrom_depth.1 (mem_textFiles.1 hf).1
    exact ht.locate_below hroot hne hc (fun target => by simp) hx

/-- A text file that can be read is read as it was edited. -/
theorem Disk.IsTree.read_editTexts {root : Path} {base : Location} {d : Disk} (ht : d.IsTree)
    (hroot : d.locate .follow root = .ok base) (hdir : d.isDirectoryAt base = true) (hlists : d.Lists root)
    {rewriter : Language → Rewriter} {path : Path} {l : Language} {c : Bytes} (hpath : path ∈ d.filesBelow root)
    (hlanguage : Language.ofPath? path = some l) (hread : d.read path = .ok c) :
    (d.edit (editTexts base rewriter)).read path = .ok ((rewriter l).apply c) := by
  rw [hlists.filesBelow_eq hroot hdir] at hpath
  obtain ⟨names, hnames, rfl⟩ := List.mem_map.1 hpath
  obtain ⟨hne, c', hc'⟩ := ht.mem_filesFrom_depth.1 hnames
  obtain ⟨loc, hloc, hentry, hallow⟩ := read_eq_ok hread
  obtain rfl := ht.locate_below hroot hne hc' (fun target => by simp) hloc
  have hproper : ∀ n ∈ names, n.Proper := fun n hn => ht.properNames hc' n (List.mem_append_right _ hn)
  have hkind : Language.ofPath? (root.below names) = languageAt (base ++ names) :=
    Path.ofPath?_below (bytes_ne_nil_of_checkPath (locate_eq_ok hroot).1) hne hproper
  rw [hkind] at hlanguage
  have hloc' : (d.edit (editTexts base rewriter)).locate .follow (root.below names) = .ok (base ++ names) := by
    rw [locate_of_bare (bare_edit _), hloc]
  refine read_of_locate hloc' ?_ ((allow_of_bare (bare_edit _) _).trans hallow)
  rw [entry?_edit, hentry, Option.map_some, Entry.edit, editTexts,
    if_pos (List.isPrefixOf_iff_prefix.2 (List.prefix_append _ _)), hlanguage]

/-! ## Rewriters that change nothing -/

/-- What a rewriter writes is encoded as it was read. -/
theorem Rewriter.apply_eq (r : Rewriter) (c : Bytes) : r.apply c =
    (Charset.decode c).2.encode ((r.rename (Charset.decode c).1).getD (Charset.decode c).1) := by
  unfold apply
  cases r.rename (Charset.decode c).1 with
  | none => exact (Charset.encode_decode c).symm
  | some t => rfl

/-- Rewriters that change nothing edit nothing. -/
theorem Disk.edit_editTexts_of_rename {d : Disk} {base : Location} {rewriter : Language → Rewriter}
    (h : ∀ l t, (rewriter l).rename t = none) : d.edit (editTexts base rewriter) = d := by
  rw [edit_congr (h := fun _ c => c), edit_id]
  intro loc c _
  unfold editTexts
  split
  · cases languageAt loc with
    | none => rfl
    | some l => exact ((rewriter l).apply_eq c).trans (by rw [h, Option.getD_none, Charset.encode_decode])
  · rfl

end Pseudonym
