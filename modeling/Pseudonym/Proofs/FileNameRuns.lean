import Mathlib.Data.List.TakeWhile
import Pseudonym.Proofs.Exchange
import Pseudonym.Reference

/-!
# The file names that stand in a text

A text falls into its maximal runs of file-name characters and the characters between them. A run begins with the name that is
referred to, which ends before the first dot that no identifier character follows; so the dot that ends a sentence is no part of
it. `nameCut` cuts a text at these names, and `onePass` exchanges them all at once.

`run_induction` is the induction on the runs of a text. A file name in the sense of `IsFileName` leads its run whole, and a cut is
found again in the text with its names exchanged, as long as their images are file names (`nameCut_exchange`).
-/

namespace Pseudonym.Reference

/-- Does a text begin with a character of a file name? -/
def beginsInName (t : Text) : Bool := t.head?.any isFileNameChar

/-- The name at the beginning of a run of file-name characters: it ends before the first dot that no identifier character follows. -/
def leadName : Text → Text
  | [] => []
  | c :: t => if c == '.' && !t.head?.any isIdentChar then [] else c :: leadName t

/-- A text cut into its maximal runs of file-name characters and the characters between them. -/
def runs : Text → List Piece
  | [] => []
  | c :: t =>
    if isFileNameChar c then
      match runs t with
      | .name n :: ps => .name (c :: n) :: ps
      | ps => .name [c] :: ps
    else .fixed [c] :: runs t

/-- A run cut behind the name that it begins with. -/
def runPieces : Piece → List Piece
  | .fixed t => [.fixed t]
  | .name r => [.name (leadName r), .fixed (r.drop (leadName r).length)]

/-- A text cut at the names that its runs begin with. -/
def nameCut (t : Text) : List Piece := (runs t).flatMap runPieces

/-- A text with all file names of a codebook exchanged in one pass, or nothing when no run begins with one of them. -/
def onePass (b : Codebook) (t : Text) : Option Text := Piece.exchange? b.get? (nameCut t)

/-- A run of file-name characters, with something else or nothing behind it. -/
structure IsRun (w t : Text) : Prop where
  nonempty : w ≠ []
  chars : ∀ c ∈ w, isFileNameChar c = true
  ends : beginsInName t = false

/-- A file name that can be referred to: it is made of file-name characters, and an identifier character follows each of its
dots. -/
structure IsFileName (n : Text) : Prop where
  nonempty : n ≠ []
  chars : ∀ c ∈ n, isFileNameChar c = true
  dots : ∀ s t, n = s ++ '.' :: t → t.head?.any isIdentChar = true

namespace RunsAux

/-- But for the dot, the characters of a file name are those of an identifier. -/
theorem isIdentChar_of_ne_dot {c : Char} (h : isFileNameChar c = true) (hc : c ≠ '.') : isIdentChar c = true := by
  simpa [isFileNameChar, hc] using h

/-- Behind the first character, dots are followed as before. -/
theorem dots_tail {c : Char} {n : Text} (h : ∀ s t, c :: n = s ++ '.' :: t → t.head?.any isIdentChar = true) :
    ∀ s t, n = s ++ '.' :: t → t.head?.any isIdentChar = true := by
  intro s t e
  exact h (c :: s) t (by rw [e, List.cons_append])

/-- A name whose dots lead on stands at the beginning of its run, with what the rest of the run leads with behind it. -/
theorem leadName_append_of_dots {n : Text} (h : ∀ s t, n = s ++ '.' :: t → t.head?.any isIdentChar = true) (r : Text) :
    leadName (n ++ r) = n ++ leadName r := by
  induction n with
  | nil => rfl
  | cons c n ih =>
    have hlead : (c == '.' && !(n ++ r).head?.any isIdentChar) = false := by
      by_cases hc : c = '.'
      · subst hc
        have h1 := h [] n rfl
        cases n with
        | nil => simp at h1
        | cons d n => simpa using h1
      · simp [hc]
    rw [List.cons_append, leadName, if_neg (by rw [hlead]; decide), ih (dots_tail h), List.cons_append]

/-- A text without dots stands at the beginning of its run. -/
theorem leadName_append_of_not_mem {n : Text} (h : '.' ∉ n) (r : Text) : leadName (n ++ r) = n ++ leadName r :=
  leadName_append_of_dots (fun s t e => absurd (by rw [e]; simp) h) r

end RunsAux

open RunsAux

/-! ## The name that leads a run -/

/-- The name at the beginning of a run begins it. -/
theorem leadName_begins (w : Text) : leadName w <+: w := by
  induction w with
  | nil => exact List.prefix_refl _
  | cons c w ih =>
    unfold leadName
    split
    · exact List.nil_prefix
    · exact (List.prefix_cons_inj c).2 ih

/-- A dot belongs to the name if an identifier character follows. -/
theorem leadName_dot (t : Text) : leadName ('.' :: t) = if t.head?.any isIdentChar then '.' :: leadName t else [] := by
  cases h : t.head?.any isIdentChar <;> simp [leadName, h]

/-- The name and what is behind it are the run. -/
theorem leadName_append_drop (w : Text) : leadName w ++ w.drop (leadName w).length = w :=
  List.prefix_iff_eq_append.1 (leadName_begins w)

/-- A file name is part of the name that a run begins with, if it begins the run. -/
theorem IsFileName.leadName_append {n : Text} (h : IsFileName n) (r : Text) : leadName (n ++ r) = n ++ leadName r :=
  leadName_append_of_dots h.dots r

/-- A file name is all of the name that it begins with. -/
theorem IsFileName.leadName_eq {n : Text} (h : IsFileName n) : leadName n = n := by
  simpa [leadName] using h.leadName_append []

/-- A file name is what leads itself: the definition by its dots, as a computation. -/
theorem isFileName_iff {n : Text} : IsFileName n ↔ n ≠ [] ∧ n.all isFileNameChar = true ∧ leadName n = n := by
  rw [List.all_eq_true]
  constructor
  · exact fun h => ⟨h.nonempty, h.chars, h.leadName_eq⟩
  · rintro ⟨hne, hc, hl⟩
    refine ⟨hne, hc, ?_⟩
    clear hne hc
    induction n with
    | nil => simp
    | cons c n ih =>
      unfold leadName at hl
      split at hl
      · cases hl
      · next hdot =>
        intro s t e
        cases s with
        | nil =>
          obtain ⟨rfl, rfl⟩ := List.cons.inj e
          simpa using hdot
        | cons d s => exact ih (List.cons.inj hl).2 s t (List.cons.inj e).2

instance (n : Text) : Decidable (IsFileName n) := decidable_of_iff' _ isFileName_iff

/-- What a run holds behind its name leads with no name. -/
theorem leadName_drop (w : Text) : leadName (w.drop (leadName w).length) = [] := by
  induction w with
  | nil => rfl
  | cons c w ih =>
    rw [leadName]
    split
    · next h => simp [leadName, h]
    · simpa using ih

/-! ## The runs of a text -/

/-- A character that is in no file name is in no run. -/
theorem runs_of_not_fileNameChar {c : Char} (h : isFileNameChar c = false) (t : Text) : runs (c :: t) = .fixed [c] :: runs t := by
  simp [runs, h]

/-- Where no file name begins, the runs do not begin with one. -/
theorem runs_ne_name {t : Text} (h : beginsInName t = false) (n : Text) (ps : List Piece) : runs t ≠ .name n :: ps := by
  cases t with
  | nil => simp [runs]
  | cons c t =>
    rw [runs_of_not_fileNameChar (by simpa [beginsInName] using h)]
    simp

/-- A run is one piece. -/
theorem runs_append {w t : Text} (h : IsRun w t) : runs (w ++ t) = .name w :: runs t := by
  obtain ⟨hne, hw, ht⟩ := h
  induction w with
  | nil => exact absurd rfl hne
  | cons c w ih =>
    have hc : isFileNameChar c = true := hw c List.mem_cons_self
    rw [List.cons_append, runs, if_pos hc]
    cases w with
    | nil =>
      have hn := runs_ne_name ht
      split
      · next n ps hr => exact absurd hr (hn n ps)
      · rfl
    | cons d w => rw [ih (by simp) (fun x hx => hw x (List.mem_cons_of_mem _ hx))]

/-- The run at the beginning of a text, if there is one, and the text behind it. -/
theorem exists_run (t : Text) : ∃ w r, t = w ++ r ∧ (∀ c ∈ w, isFileNameChar c = true) ∧ beginsInName r = false := by
  refine ⟨t.takeWhile isFileNameChar, t.dropWhile isFileNameChar, List.takeWhile_append_dropWhile.symm,
    fun c hc => List.mem_takeWhile_imp hc, ?_⟩
  have hends := List.head?_dropWhile_not isFileNameChar t
  rw [beginsInName]
  cases hhead : (t.dropWhile isFileNameChar).head? with
  | none => rfl
  | some c => simpa [hhead] using hends

/-- An induction on the runs of a text. -/
theorem run_induction {P : Text → Prop} (nil : P []) (char : ∀ c t, isFileNameChar c = false → P t → P (c :: t))
    (run : ∀ w t, IsRun w t → P t → P (w ++ t)) (t : Text) : P t := by
  generalize hn : t.length = n
  induction n using Nat.strongRecOn generalizing t with
  | ind n ih =>
    obtain ⟨w, r, rfl, hchars, hends⟩ := exists_run t
    by_cases hne : w = []
    · subst hne
      cases r with
      | nil => exact nil
      | cons c r => exact char c r (by simpa [beginsInName] using hends) (ih r.length (by simp [← hn]) r rfl)
    · have := List.length_pos_iff.2 hne
      exact run w r ⟨hne, hchars, hends⟩ (ih r.length (by rw [← hn, List.length_append]; omega) r rfl)

/-! ## The cut at the names of the runs -/

/-- A character that is in no file name is in no name. -/
theorem nameCut_of_not_fileNameChar {c : Char} (h : isFileNameChar c = false) (t : Text) :
    nameCut (c :: t) = .fixed [c] :: nameCut t := by
  simp [nameCut, runs_of_not_fileNameChar h, runPieces]

/-- A run is cut behind the name at its beginning. -/
theorem nameCut_append {w t : Text} (h : IsRun w t) :
    nameCut (w ++ t) = .name (leadName w) :: .fixed (w.drop (leadName w).length) :: nameCut t := by
  simp [nameCut, runs_append h, runPieces]

/-- The cut loses nothing. -/
theorem join_nameCut (t : Text) : Piece.join (nameCut t) = t := by
  induction t using run_induction with
  | nil => rfl
  | char c t hc ih => simp [nameCut_of_not_fileNameChar hc, ih]
  | run w t h ih => simp [nameCut_append h, ih, ← List.append_assoc, leadName_append_drop]

/-- A text is cut apart where no run goes on. -/
theorem nameCut_append_of_ends {u : Text} (h : u.getLast?.any isFileNameChar = false) (v : Text) :
    nameCut (u ++ v) = nameCut u ++ nameCut v := by
  induction u using run_induction with
  | nil => rfl
  | char c t hc ih =>
    rw [List.cons_append, nameCut_of_not_fileNameChar hc, nameCut_of_not_fileNameChar hc, List.cons_append]
    cases t with
    | nil => rfl
    | cons d t => rw [ih (by simpa [List.getLast?_cons_cons] using h)]
  | run w t hw ih =>
    have ht : t ≠ [] := by
      rintro rfl
      obtain ⟨c, hc⟩ := List.getLast?_isSome.2 hw.nonempty |> Option.isSome_iff_exists.1
      rw [List.append_nil, hc, Option.any_some, hw.chars c (List.mem_of_getLast? hc)] at h
      cases h
    have hends : beginsInName (t ++ v) = false := by
      obtain ⟨c, t, rfl⟩ := List.exists_cons_of_ne_nil ht
      exact hw.ends
    rw [List.append_assoc, nameCut_append hw, nameCut_append ⟨hw.nonempty, hw.chars, hends⟩,
      ih (by rwa [List.getLast?_append, Option.or_of_isSome (by simpa using ht)] at h)]
    rfl

/-- The names that a text is cut at are those that its runs begin with. -/
theorem mem_names_nameCut {t n : Text} : n ∈ Piece.names (nameCut t) ↔ ∃ r, .name r ∈ runs t ∧ leadName r = n := by
  unfold nameCut
  induction runs t with
  | nil => simp
  | cons p ps ih => cases p <;> simp [runPieces, ih, or_and_right, exists_or, eq_comm]

/-- An exchange changes nothing about where a text begins in a file name, if that is nowhere. -/
theorem beginsInName_exchange {f : Text → Option Text} {t : Text} (h : beginsInName t = false) :
    beginsInName (Piece.exchange f (nameCut t)) = false := by
  cases t with
  | nil => rfl
  | cons c t =>
    rw [nameCut_of_not_fileNameChar (by simpa [beginsInName] using h)]
    simpa [Piece.exchange, beginsInName] using h

/-- A run whose name is exchanged for a file name is a run again, and leads with that name. -/
theorem isRun_exchanged {f : Text → Option Text} (hf : ∀ n p, f n = some p → IsFileName p) {w t u : Text} (h : IsRun w t)
    (hu : beginsInName u = false) :
    IsRun (Piece.imageOf f (leadName w) ++ w.drop (leadName w).length) u ∧
      leadName (Piece.imageOf f (leadName w) ++ w.drop (leadName w).length) = Piece.imageOf f (leadName w) := by
  cases hp : f (leadName w) with
  | none =>
    rw [Piece.imageOf, hp, Option.getD_none, leadName_append_drop]
    exact ⟨⟨h.nonempty, h.chars, hu⟩, rfl⟩
  | some p =>
    have hname := hf _ _ hp
    rw [Piece.imageOf, hp, Option.getD_some, hname.leadName_append, leadName_drop, List.append_nil]
    refine ⟨⟨by simp [hname.nonempty], ?_, hu⟩, rfl⟩
    intro c hc
    rcases List.mem_append.1 hc with hc | hc
    · exact hname.chars c hc
    · exact h.chars c (List.mem_of_mem_drop hc)

/-- The text with its names exchanged is cut at their images. -/
theorem nameCut_exchange {f : Text → Option Text} (hf : ∀ n p, f n = some p → IsFileName p) (t : Text) :
    nameCut (Piece.exchange f (nameCut t)) = Piece.swap f (nameCut t) := by
  induction t using run_induction with
  | nil => rfl
  | char c t hc ih =>
    rw [nameCut_of_not_fileNameChar hc, Piece.swap_fixed, ← ih]
    exact nameCut_of_not_fileNameChar hc _
  | run w t h ih =>
    obtain ⟨hrun, hlead⟩ := isRun_exchanged hf h (beginsInName_exchange (f := f) h.ends)
    rw [nameCut_append h, Piece.swap_name, Piece.swap_fixed, ← ih]
    have key := nameCut_append hrun
    rw [hlead, List.drop_left' rfl] at key
    rw [← key, Piece.exchange, Piece.exchange, List.append_assoc, Piece.imageOf]

end Pseudonym.Reference
