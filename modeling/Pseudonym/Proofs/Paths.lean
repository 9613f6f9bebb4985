import Pseudonym.Disk.Basic

/-!
# Paths below a path

A walk makes the path of a file by joining one name after the other to the path that it starts from (`Path.below`). For names
that an entry can have (`Name.Proper`), such a path leads along the names of the path it started from and those that were
joined (`components_below`), its file name is the last of them (`fileName?_below`), and another file name takes the place of
the last one (`withFileName_below`).
-/

namespace Pseudonym

/-- A name that an entry can have: it is not empty, holds no slash, and does not stand for a directory. -/
structure Name.Proper (n : Name) : Prop where
  nonempty : n ≠ []
  noSlash : Path.slash ∉ n
  notHere : n ≠ Path.here
  notAbove : n ≠ Path.above

instance (n : Name) : Decidable (Name.Proper n) :=
  decidable_of_iff (n ≠ [] ∧ Path.slash ∉ n ∧ n ≠ Path.here ∧ n ≠ Path.above)
    ⟨fun h => ⟨h.1, h.2.1, h.2.2.1, h.2.2.2⟩, fun h => ⟨h.1, h.2, h.3, h.4⟩⟩

namespace Path

/-- The path of a file below another path, by the names that lead to it. -/
def below (p : Path) (names : List Name) : Path := names.foldl join p

/-! ## Stretches between slashes -/

/-- There is a stretch at least. -/
theorem stretches_ne_nil (bs : Bytes) : stretches bs ≠ [] := by
  cases bs with
  | nil => exact List.cons_ne_nil _ _
  | cons b bs =>
    rw [stretches]
    split
    · exact List.cons_ne_nil _ _
    · split <;> exact List.cons_ne_nil _ _

/-- A slash between two texts is a border between their stretches. -/
theorem stretches_append_slash (a b : Bytes) : stretches (a ++ slash :: b) = stretches a ++ stretches b := by
  induction a with
  | nil => simp [stretches]
  | cons c a ih =>
    rw [List.cons_append, stretches, stretches, ih]
    split
    · rfl
    · cases ha : stretches a with
      | nil => exact absurd ha (stretches_ne_nil a)
      | cons s ss => rfl

/-- Without a slash there is one stretch. -/
theorem stretches_of_not_mem {n : Bytes} (h : slash ∉ n) : stretches n = [n] := by
  induction n with
  | nil => rfl
  | cons b n ih =>
    rw [List.mem_cons, not_or] at h
    rw [stretches, if_neg (Ne.symm h.1), ih h.2]

/-- Slashes at the end of a path change nothing about what it is made of. -/
theorem components_append_slashes (bs : Bytes) (n : Nat) : components ⟨bs ++ List.replicate n slash⟩ = components ⟨bs⟩ := by
  induction n with
  | zero => rw [List.replicate_zero, List.append_nil]
  | succ n ih =>
    rw [← ih, List.replicate_succ', ← List.append_assoc, components, components, stretches_append_slash, List.filter_append]
    exact List.append_nil _

/-! ## One name more -/

section Join

variable {p : Path} {n : Name}

/-- A name is joined to a path by a slash, unless there is one. -/
theorem join_eq (hn : n.Proper) :
    p.join n = if p.bytes.isEmpty || p.endsInSlash then ⟨p.bytes ++ n⟩ else ⟨p.bytes ++ slash :: n⟩ := by
  have habsolute : (Path.mk n).isAbsolute = false := by
    obtain ⟨hne, hslash, -, -⟩ := hn
    cases n with
    | nil => exact absurd rfl hne
    | cons b n =>
      rw [List.mem_cons, not_or] at hslash
      simpa [isAbsolute] using Ne.symm hslash.1
  rw [join, habsolute]
  rfl

/-- Behind a slash the name is put as it stands. -/
theorem bytes_join_of_endsInSlash (hends : p.endsInSlash = true) (hn : n.Proper) : (p.join n).bytes = p.bytes ++ n := by
  rw [join_eq hn, hends, Bool.or_true, if_pos rfl]

/-- The name that is joined is the last component. -/
theorem components_join (hp : p.bytes ≠ []) (hn : n.Proper) : (p.join n).components = p.components ++ [n] := by
  have hone : [n].filter (fun s => !s.isEmpty) = [n] := by
    simpa using hn.nonempty
  rw [join_eq hn, List.isEmpty_eq_false_iff.2 hp, Bool.false_or]
  split
  · next hends =>
    obtain ⟨q, hq⟩ := List.getLast?_eq_some_iff.1 (beq_iff_eq.1 hends)
    rw [components, components, hq, List.append_assoc, List.singleton_append, stretches_append_slash,
      stretches_append_slash, stretches_of_not_mem hn.noSlash, List.filter_append, List.filter_append, hone]
    simp [stretches]
  · rw [components, components, stretches_append_slash, stretches_of_not_mem hn.noSlash, List.filter_append, hone]

/-- A proper name does not end in a slash. -/
theorem getLast?_append_proper (hn : n.Proper) (a : Bytes) : (a ++ n).getLast? ≠ some slash := by
  rw [List.getLast?_append, List.getLast?_eq_some_getLast hn.nonempty, Option.some_or]
  exact fun h => hn.noSlash (Option.some.inj h ▸ List.getLast_mem hn.nonempty)

/-- A path to which a name is joined does not end in a slash. -/
theorem endsInSlash_join (hn : n.Proper) : (p.join n).endsInSlash = false := by
  rw [join_eq hn]
  unfold endsInSlash
  split
  · exact beq_false_of_ne (getLast?_append_proper hn _)
  · have := getLast?_append_proper hn (p.bytes ++ [slash])
    rw [List.append_assoc] at this
    exact beq_false_of_ne this

/-- A path to which a name is joined is not empty. -/
theorem bytes_join_ne_nil (hn : n.Proper) : (p.join n).bytes ≠ [] := by
  rw [join_eq hn]
  split <;> simp [hn.nonempty]

/-- To join a name leaves an absolute path absolute, and a relative one relative. -/
theorem isAbsolute_join (hp : p.bytes ≠ []) (hn : n.Proper) : (p.join n).isAbsolute = p.isAbsolute := by
  rw [join_eq hn]
  unfold isAbsolute
  split <;> rw [List.head?_append, List.head?_eq_some_head hp, Option.some_or]

/-- The name that is joined is the file name. -/
theorem fileName?_join (hp : p.bytes ≠ []) (hn : n.Proper) : (p.join n).fileName? = some n := by
  have hlast : ((p.components ++ [n]).filter (· != here)).getLast? = some n := by
    rw [List.filter_append, List.filter_cons_of_pos (by simpa using hn.notHere)]
    simp
  rw [fileName?, components_join hp hn, hlast]
  exact if_neg hn.notAbove

/-- The path above a name that was joined to a path without a slash at its end is that path. -/
theorem parent_join (hp : p.bytes ≠ []) (hends : p.endsInSlash = false) (hn : n.Proper) : (p.join n).parent = p := by
  have hdrop : (p.bytes ++ slash :: n).reverse.dropWhile (· != slash) = slash :: p.bytes.reverse := by
    rw [List.reverse_append, List.reverse_cons, List.append_assoc, List.dropWhile_append_of_pos]
    · simp
    · intro b hb
      have : b ≠ slash := by
        rintro rfl
        exact hn.noSlash (List.mem_reverse.1 hb)
      simpa using this
  rw [join_eq hn, List.isEmpty_eq_false_iff.2 hp, hends, if_neg (by simp), parent, hdrop]
  simp

end Join

/-! ## All names -/

section Below

variable {p : Path} {names : List Name}

@[simp] theorem below_nil : p.below [] = p := rfl

theorem below_cons (n : Name) : p.below (n :: names) = (p.join n).below names := rfl

/-- Names behind others lead on from where those lead. -/
theorem below_append (more : List Name) : p.below (names ++ more) = (p.below names).below more := by
  rw [below, below, below, List.foldl_append]

/-- The last name is joined to the path of its directory. -/
theorem below_concat (n : Name) : p.below (names ++ [n]) = (p.below names).join n := by
  rw [below_append]
  rfl

/-- The path of a file below another path is not empty. -/
theorem bytes_below_ne_nil (hp : p.bytes ≠ []) (h : ∀ n ∈ names, n.Proper) : (p.below names).bytes ≠ [] := by
  induction names generalizing p with
  | nil => exact hp
  | cons n names ih =>
    exact ih (bytes_join_ne_nil (h n List.mem_cons_self)) fun m hm => h m (List.mem_cons_of_mem _ hm)

/-- A path holds a null byte exactly when what it is made of does. -/
theorem zero_mem_bytes_below (h : ∀ n ∈ names, n.Proper) :
    0 ∈ (p.below names).bytes ↔ 0 ∈ p.bytes ∨ ∃ n ∈ names, (0 : UInt8) ∈ n := by
  induction names generalizing p with
  | nil => simp
  | cons n names ih =>
    have hjoin : 0 ∈ (p.join n).bytes ↔ 0 ∈ p.bytes ∨ (0 : UInt8) ∈ n := by
      rw [join_eq (h n List.mem_cons_self)]
      split <;> simp [slash]
    rw [below_cons, ih fun m hm => h m (List.mem_cons_of_mem _ hm), hjoin, or_assoc]
    simp

/-- The names that lead to a file are its last components. -/
theorem components_below (hp : p.bytes ≠ []) (h : ∀ n ∈ names, n.Proper) :
    (p.below names).components = p.components ++ names := by
  induction names generalizing p with
  | nil => rw [List.append_nil, below_nil]
  | cons n names ih =>
    have hn := h n List.mem_cons_self
    rw [below_cons, ih (bytes_join_ne_nil hn) fun m hm => h m (List.mem_cons_of_mem _ hm), components_join hp hn,
      List.append_assoc, List.singleton_append]

/-- The path of a file below an absolute path is absolute, and below a relative one relative. -/
theorem isAbsolute_below (hp : p.bytes ≠ []) (h : ∀ n ∈ names, n.Proper) :
    (p.below names).isAbsolute = p.isAbsolute := by
  induction names generalizing p with
  | nil => rfl
  | cons n names ih =>
    have hn := h n List.mem_cons_self
    rw [below_cons, ih (bytes_join_ne_nil hn) fun m hm => h m (List.mem_cons_of_mem _ hm), isAbsolute_join hp hn]

/-- The path of a file below another path does not end in a slash. -/
theorem endsInSlash_below (hne : names ≠ []) (h : ∀ n ∈ names, n.Proper) : (p.below names).endsInSlash = false := by
  obtain ⟨init, n, rfl⟩ : ∃ init n, names = init ++ [n] := ⟨_, _, (List.dropLast_concat_getLast hne).symm⟩
  rw [below_concat]
  exact endsInSlash_join (h n (by simp))

/-- The last of the names is the file name. -/
theorem fileName?_below (hp : p.bytes ≠ []) (hne : names ≠ []) (h : ∀ n ∈ names, n.Proper) :
    (p.below names).fileName? = names.getLast? := by
  obtain ⟨init, n, rfl⟩ : ∃ init n, names = init ++ [n] := ⟨_, _, (List.dropLast_concat_getLast hne).symm⟩
  rw [below_concat, fileName?_join (bytes_below_ne_nil hp fun m hm => h m (by simp [hm])) (h n (by simp))]
  simp

/-- Another file name takes the place of the last name. -/
theorem withFileName_below (hp : p.bytes ≠ []) (hends : p.endsInSlash = false) {init : List Name} {n m : Name}
    (h : ∀ x ∈ init ++ [n], x.Proper) : (p.below (init ++ [n])).withFileName m = (p.below init).join m := by
  have hinit : ∀ x ∈ init, x.Proper := fun x hx => h x (List.mem_append_left _ hx)
  have hends' : (p.below init).endsInSlash = false := by
    by_cases hne : init = []
    · rw [hne]
      exact hends
    · exact endsInSlash_below hne hinit
  rw [below_concat, withFileName, parent_join (bytes_below_ne_nil hp hinit) hends' (h n (by simp))]

end Below

end Path

end Pseudonym
