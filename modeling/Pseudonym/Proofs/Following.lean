import Pseudonym.Disk.Basic

/-!
# Following a path, name by name

Each name on the way of a path does one of five things, and `Disk.Leads` says what: the way ends where there are no names left, a
name may stand for the directory itself or for the one above it, or it leads down to an entry or on through a link. It is the
same as following the names (`leads_iff`), and an induction on it has one case for each of these. So it is seen that names lead
on from where the names before them lead (`follow_append`), and where a path leads when its last name is not followed
(`follow_keep`) or when it may be missing (`follow_create`).
-/

namespace Pseudonym.Disk

/-- A name that leads down from a directory, to an entry if there is one. -/
structure IsStep (n : Name) : Prop where
  notHere : ¬(n = [] ∨ n = Path.here)
  notAbove : n ≠ Path.above
  short : ¬maxName < n.length

/-- Names lead from a location to another one; `onLink` says how to go on when a name is a link. -/
inductive Leads (d : Disk) (onLink : Location → List Name → Except DiskError Location) :
    Location → List Name → Location → Prop where
  | arrived (loc : Location) : Leads d onLink loc [] loc
  | stay {loc x : Location} {n : Name} {ns : List Name} : d.isDirectoryAt loc = true → n = [] ∨ n = Path.here →
      Leads d onLink loc ns x → Leads d onLink loc (n :: ns) x
  | up {loc x : Location} {ns : List Name} : d.isDirectoryAt loc = true → Leads d onLink loc.dropLast ns x →
      Leads d onLink loc (Path.above :: ns) x
  | down {loc x : Location} {n : Name} {ns : List Name} {e : Entry} : d.isDirectoryAt loc = true → IsStep n →
      d.entry? (loc ++ [n]) = some e → (∀ target, e ≠ .link target) → Leads d onLink (loc ++ [n]) ns x →
      Leads d onLink loc (n :: ns) x
  | link {loc x : Location} {n : Name} {ns : List Name} {target : Path} : d.isDirectoryAt loc = true → IsStep n →
      d.entry? (loc ++ [n]) = some (.link target) → onLink (origin loc target) (route target ++ ns) = .ok x →
      Leads d onLink loc (n :: ns) x

variable {d : Disk} {last : LastName} {f g : Location → List Name → Except DiskError Location}

/-! ## One name -/

section Descend

variable {loc : Location} {n : Name} {ns : List Name}

/-- An empty name and a dot lead nowhere else. -/
theorem descend_stay (hdir : d.isDirectoryAt loc = true) (hn : n = [] ∨ n = Path.here) :
    d.descend last f loc (n :: ns) = d.descend last f loc ns := by
  rw [descend, hdir, if_neg (by simp), if_pos hn]

/-- Two dots lead up. -/
theorem descend_up (hdir : d.isDirectoryAt loc = true) :
    d.descend last f loc (Path.above :: ns) = d.descend last f loc.dropLast ns := by
  rw [descend, hdir, if_neg (by simp), if_neg (by decide), if_pos rfl]

/-- A name leads down to an entry that is no link. -/
theorem descend_down (hdir : d.isDirectoryAt loc = true) (hn : IsStep n) {e : Entry} (he : d.entry? (loc ++ [n]) = some e)
    (hlink : ∀ target, e ≠ .link target) : d.descend last f loc (n :: ns) =
      if last = .create ∧ ns = [[]] then .error .isDirectory else d.descend last f (loc ++ [n]) ns := by
  rw [descend, hdir, if_neg (by simp), if_neg hn.notHere, if_neg hn.notAbove, if_neg hn.short, he]
  cases e with
  | file c => rfl
  | directory => rfl
  | link target => exact absurd rfl (hlink target)

/-- At a link the way goes on along its target, unless the link itself is asked for. -/
theorem descend_link (hdir : d.isDirectoryAt loc = true) (hn : IsStep n) {target : Path}
    (he : d.entry? (loc ++ [n]) = some (.link target)) : d.descend last f loc (n :: ns) =
      if last = .create ∧ ns = [[]] then .error .isDirectory
      else if last = .keep ∧ ns = [] then .ok (loc ++ [n])
      else f (origin loc target) (route target ++ ns) := by
  rw [descend, hdir, if_neg (by simp), if_neg hn.notHere, if_neg hn.notAbove, if_neg hn.short, he]

/-- A name that no entry bears leads nowhere. -/
theorem descend_none (hdir : d.isDirectoryAt loc = true) (hn : IsStep n) (he : d.entry? (loc ++ [n]) = none) :
    d.descend .follow f loc (n :: ns) = .error .noEntry := by
  rw [descend, hdir, if_neg (by simp), if_neg hn.notHere, if_neg hn.notAbove, if_neg (by simp), if_neg hn.short, he]
  exact if_neg (by simp)

/-- Names lead on from directories only. -/
theorem isDirectoryAt_of_descend {x : Location} (h : d.descend last f loc (n :: ns) = .ok x) :
    d.isDirectoryAt loc = true := by
  cases hdir : d.isDirectoryAt loc with
  | true => rfl
  | false =>
    rw [descend, hdir, if_pos (by simp)] at h
    cases h

/-- A name that leads somewhere, and does not stand for a directory, leads down. -/
theorem isStep_of_descend (hhere : ¬(n = [] ∨ n = Path.here)) (habove : n ≠ Path.above) {x : Location}
    (h : d.descend last f loc (n :: ns) = .ok x) : IsStep n := by
  refine ⟨hhere, habove, fun hlen => ?_⟩
  rw [descend, isDirectoryAt_of_descend h, if_neg (by simp), if_neg hhere, if_neg habove, if_pos hlen] at h
  split at h <;> cases h

end Descend

/-- Following names is the relation. -/
theorem leads_iff {loc x : Location} {ns : List Name} : d.descend .follow f loc ns = .ok x ↔ d.Leads f loc ns x := by
  constructor
  · intro h
    induction ns generalizing loc with
    | nil =>
      cases h
      exact .arrived x
    | cons n ns ih =>
      have hdir := isDirectoryAt_of_descend h
      by_cases hhere : n = [] ∨ n = Path.here
      · rw [descend_stay hdir hhere] at h
        exact .stay hdir hhere (ih h)
      by_cases habove : n = Path.above
      · subst habove
        rw [descend_up hdir] at h
        exact .up hdir (ih h)
      have hn := isStep_of_descend hhere habove h
      cases he : d.entry? (loc ++ [n]) with
      | none =>
        rw [descend_none hdir hn he] at h
        cases h
      | some e =>
        by_cases hlink : ∃ target, e = .link target
        · obtain ⟨target, rfl⟩ := hlink
          rw [descend_link hdir hn he, if_neg (by simp), if_neg (by simp)] at h
          exact .link hdir hn he h
        · rw [not_exists] at hlink
          rw [descend_down hdir hn he hlink, if_neg (by simp)] at h
          exact .down hdir hn he hlink (ih h)
  · intro h
    induction h with
    | arrived => rfl
    | stay hdir hn _ ih => rw [descend_stay hdir hn, ih]
    | up hdir _ ih => rw [descend_up hdir, ih]
    | down hdir hn he hlink _ ih => rw [descend_down hdir hn he hlink, if_neg (by simp), ih]
    | link hdir hn he hf => rw [descend_link hdir hn he, if_neg (by simp), if_neg (by simp), hf]

/-! ## Links -/

/-- How a path goes on at a link, with a number of links left. -/
def onLink (d : Disk) (last : LastName) : Nat → Location → List Name → Except DiskError Location
  | 0 => fun _ _ => .error .tooManyLinks
  | links + 1 => d.follow last links

/-- To follow names is to descend along them, link by link. -/
theorem follow_eq_descend (last : LastName) (links : Nat) : d.follow last links = d.descend last (d.onLink last links) := by
  cases links <;> rfl

/-! ## The last name -/

/-- A path that leads to something leads there too when a file may be made, if it then leads anywhere. -/
theorem Leads.create {loc x : Location} {ns : List Name} (h : d.Leads f loc ns x)
    (hlink : ∀ l ns x, f l ns = .ok x → ∀ y, g l ns = .ok y → y = x) {y : Location}
    (hy : d.descend .create g loc ns = .ok y) : y = x := by
  induction h with
  | arrived =>
    cases hy
    rfl
  | stay hdir hn _ ih =>
    rw [descend_stay hdir hn] at hy
    exact ih hy
  | up hdir _ ih =>
    rw [descend_up hdir] at hy
    exact ih hy
  | down hdir hn he hne _ ih =>
    rw [descend_down hdir hn he hne] at hy
    split at hy
    · cases hy
    · exact ih hy
  | link hdir hn he hf =>
    rw [descend_link hdir hn he] at hy
    split at hy
    · cases hy
    · rw [if_neg (by simp)] at hy
      exact hlink _ _ _ hf _ hy

/-- Where names lead to something, it is no new file that they would create. -/
theorem follow_create {links : Nat} {loc x y : Location} {ns : List Name} (hx : d.follow .follow links loc ns = .ok x)
    (hy : d.follow .create links loc ns = .ok y) : y = x := by
  induction links generalizing loc ns x y with
  | zero =>
    refine (leads_iff.1 hx).create ?_ hy
    intro l ns x hl
    cases hl
  | succ links ih => exact (leads_iff.1 hx).create (fun l ns x hl y hy => ih hl hy) hy

/-- Where a path leads when its last name is followed and where it leads when that is kept is the same, unless it is a link. -/
theorem Leads.keep {loc x : Location} {ns : List Name} (h : d.Leads f loc ns x)
    (hlink : ∀ l ns x, f l ns = .ok x → ∀ y, g l ns = .ok y → y = x ∨ ∃ target, d.entry? y = some (.link target))
    {y : Location} (hy : d.descend .keep g loc ns = .ok y) : y = x ∨ ∃ target, d.entry? y = some (.link target) := by
  induction h with
  | arrived =>
    cases hy
    exact .inl rfl
  | stay hdir hn _ ih =>
    rw [descend_stay hdir hn] at hy
    exact ih hy
  | up hdir _ ih =>
    rw [descend_up hdir] at hy
    exact ih hy
  | down hdir hn he hne _ ih =>
    rw [descend_down hdir hn he hne, if_neg (by simp)] at hy
    exact ih hy
  | link hdir hn he hf =>
    rw [descend_link hdir hn he, if_neg (by simp)] at hy
    split at hy
    · cases hy
      exact .inr ⟨_, he⟩
    · exact hlink _ _ _ hf _ hy

/-- When the last link is kept, names lead where they lead else, or to a link. -/
theorem follow_keep {links : Nat} {loc x y : Location} {ns : List Name} (hx : d.follow .follow links loc ns = .ok x)
    (hy : d.follow .keep links loc ns = .ok y) : y = x ∨ ∃ target, d.entry? y = some (.link target) := by
  induction links generalizing loc ns x y with
  | zero =>
    refine (leads_iff.1 hx).keep ?_ hy
    intro l ns x hl
    cases hl
  | succ links ih => exact (leads_iff.1 hx).keep (fun l ns x hl y hy => ih hl hy) hy

/-- A slash at the end of a path to a directory makes no difference. -/
theorem Leads.of_concat_nil {loc x : Location} {ns : List Name} (h : d.Leads f loc (ns ++ [[]]) x)
    (hlink : ∀ l ns, f l (ns ++ [[]]) = .ok x → g l ns = .ok x) : d.Leads g loc ns x := by
  induction ns generalizing loc with
  | nil =>
    cases h with
    | stay _ _ h =>
      cases h
      exact .arrived x
    | down _ hn => exact absurd (.inl rfl) hn.notHere
    | link _ hn => exact absurd (.inl rfl) hn.notHere
  | cons n ns ih =>
    rw [List.cons_append] at h
    cases h with
    | stay hdir hn h => exact .stay hdir hn (ih h)
    | up hdir h => exact .up hdir (ih h)
    | down hdir hn he hne h => exact .down hdir hn he hne (ih h)
    | link hdir hn he hf =>
      rw [← List.append_assoc] at hf
      exact .link hdir hn he (hlink _ _ hf)

/-- A slash at the end makes no difference to what names lead to. -/
theorem follow_concat_nil {links : Nat} {loc x : Location} {ns : List Name}
    (h : d.follow .follow links loc (ns ++ [[]]) = .ok x) : d.follow .follow links loc ns = .ok x := by
  induction links generalizing loc ns with
  | zero =>
    refine leads_iff.2 ((leads_iff.1 h).of_concat_nil ?_)
    intro l ns hl
    cases hl
  | succ links ih => exact leads_iff.2 ((leads_iff.1 h).of_concat_nil fun l ns hl => ih hl)

/-! ## More names -/

/-- Names behind those that lead to a location lead where they lead from there. -/
theorem Leads.descend_append {loc x : Location} {xs ys : List Name} (h : d.Leads f loc xs x) (hys : ys ≠ [])
    (hys' : ys ≠ [[]]) {links : Nat}
    (hlink : ∀ l ns, f l ns = .ok x → ∃ k, d.onLink last links l (ns ++ ys) = d.follow last k x ys) :
    ∃ k, d.follow last links loc (xs ++ ys) = d.follow last k x ys := by
  have hmore (ns : List Name) : ns ++ ys ≠ [] := fun hnil => hys (List.append_eq_nil_iff.1 hnil).2
  have hmore' (ns : List Name) : ns ++ ys ≠ [[]] := by
    intro hnil
    cases ns with
    | nil => exact hys' hnil
    | cons n ns => exact hmore ns (List.cons.inj hnil).2
  rw [follow_eq_descend]
  induction h with
  | arrived => exact ⟨links, by rw [follow_eq_descend, List.nil_append]⟩
  | stay hdir hn _ ih =>
    rw [List.cons_append, descend_stay hdir hn]
    exact ih hlink
  | up hdir _ ih =>
    rw [List.cons_append, descend_up hdir]
    exact ih hlink
  | down hdir hn he hne _ ih =>
    rw [List.cons_append, descend_down hdir hn he hne, if_neg fun hc => hmore' _ hc.2]
    exact ih hlink
  | link hdir hn he hf =>
    rw [List.cons_append, descend_link hdir hn he, if_neg fun hc => hmore' _ hc.2, if_neg fun hc => hmore _ hc.2,
      ← List.append_assoc]
    exact hlink _ _ hf

/-- Names behind others are followed from where those lead to. -/
theorem follow_append (last : LastName) {loc x : Location} {xs ys : List Name} (hys : ys ≠ []) (hys' : ys ≠ [[]])
    {links : Nat} (h : d.follow .follow links loc xs = .ok x) :
    ∃ k, d.follow last links loc (xs ++ ys) = d.follow last k x ys := by
  induction links generalizing loc xs with
  | zero =>
    refine (leads_iff.1 h).descend_append hys hys' ?_
    intro l ns hl
    cases hl
  | succ links ih => exact (leads_iff.1 h).descend_append hys hys' fun l ns hl => ih hl

end Pseudonym.Disk
