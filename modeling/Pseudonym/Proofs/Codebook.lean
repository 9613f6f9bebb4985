import Pseudonym.Codebook

/-!
# What a codebook says of a name

With distinct names a codebook's answer is membership among its entries (`get?_eq_some_iff`), whatever their order (`get?_perm`).
Names that have no entry are `missing`; each that is entered is missing no more, and the others stay in their order
(`missing_cons_of_notMem`).
-/

namespace Pseudonym.Codebook

/-- A name has no pseudonym if it is not listed. -/
theorem get?_eq_none_iff {b : Codebook} {n : Text} : b.get? n = none ↔ n ∉ b.names := by
  rw [← contains_iff_mem_names, ← isSome_get?]
  simp

/-- What is answered stands among the entries. -/
theorem mem_entries_of_get? {b : Codebook} {n p : Text} (h : b.get? n = some p) : (n, p) ∈ b.entries := by
  obtain ⟨l₁, l₂, he, -⟩ := List.lookup_eq_some_iff.1 h
  rw [he]
  simp

/-- A name that is listed has a pseudonym. -/
theorem exists_get?_of_mem_names {b : Codebook} {n : Text} (h : n ∈ b.names) : ∃ p, b.get? n = some p := by
  rw [← Option.isSome_iff_exists, Option.isSome_iff_ne_none]
  exact fun hnone => get?_eq_none_iff.1 hnone h

/-- The pseudonym of a name is listed. -/
theorem mem_pseudonyms_of_get? {b : Codebook} {n p : Text} (h : b.get? n = some p) : p ∈ b.pseudonyms :=
  List.mem_map_of_mem (mem_entries_of_get? h)

/-- With distinct names, the answer is the entry. -/
theorem get?_eq_some_iff {b : Codebook} (h : b.names.Nodup) {n p : Text} : b.get? n = some p ↔ (n, p) ∈ b.entries := by
  refine ⟨mem_entries_of_get?, ?_⟩
  obtain ⟨es⟩ := b
  simp only [get?, names] at h ⊢
  intro hm
  obtain ⟨l₁, l₂, rfl⟩ := List.append_of_mem hm
  rw [List.lookup_eq_some_iff]
  refine ⟨l₁, l₂, rfl, ?_⟩
  intro e he
  rw [List.map_append, List.map_cons, List.nodup_append] at h
  simpa using (h.2.2 e.1 (List.mem_map_of_mem he) n (by simp)).symm

/-- The answers do not depend on the order of the entries. -/
theorem get?_perm {b b' : Codebook} (h : b.names.Nodup) (hp : b'.entries.Perm b.entries) (n : Text) : b'.get? n = b.get? n := by
  have h' : b'.names.Nodup := (hp.map _).nodup_iff.2 h
  apply Option.ext
  intro p
  rw [get?_eq_some_iff h, get?_eq_some_iff h', hp.mem_iff]

/-- There is one empty codebook. -/
theorem eq_empty_of_isEmpty {b : Codebook} (h : b.isEmpty = true) : b = .empty := by
  obtain ⟨entries⟩ := b
  exact congrArg Codebook.mk (List.isEmpty_iff.1 h)

/-! ## Names without an entry -/

/-- The names of a list that have no entry, in the order of their first occurrence. -/
def missing (b : Codebook) (names : List Text) : List Text := (names.filter (· ∉ b.names)).eraseDups

/-- A name with a pseudonym is not missing. -/
theorem missing_cons_of_mem {b : Codebook} {n : Text} (h : n ∈ b.names) (ns : List Text) : b.missing (n :: ns) = b.missing ns := by
  rw [missing, List.filter_cons_of_neg (by simpa using h), missing]

/-- An entry that is appended brings its name. -/
theorem names_append (b : Codebook) (n p : Text) : (b.append n p).names = b.names ++ [n] := by
  simp [append, names]

/-- A name that is missing comes first, and no more once it has been entered. -/
theorem missing_cons_of_notMem {b : Codebook} {n : Text} (h : n ∉ b.names) (p : Text) (ns : List Text) :
    b.missing (n :: ns) = n :: (b.append n p).missing ns := by
  rw [missing, missing, names_append, List.filter_cons_of_pos (by simpa using h), List.eraseDups_cons, List.filter_filter]
  congr 3
  funext m
  simp [and_comm, Bool.beq_eq_decide_eq]

/-- The empty codebook misses every name. -/
theorem missing_empty (ns : List Text) : empty.missing ns = ns.eraseDups :=
  congrArg List.eraseDups (List.filter_eq_self.2 fun n _ => by simp [empty, names])

end Pseudonym.Codebook
