import Pseudonym.Piece

/-!
# Exchanging the names among pieces

Statements about `exchange` and `exchanged` that hold of every cut. `swap` is the exchange made on the pieces themselves: it joins
to the exchanged text (`join_swap`), and a second exchange sees its images as names (`exchange_swap`).
-/

namespace Pseudonym.Piece

/-- The image of a name under `f`, or the name where it has none. -/
def imageOf (f : Text → Option Text) (n : Text) : Text := (f n).getD n

/-- The pieces with each name replaced by its image, where it has one. -/
def swap (f : Text → Option Text) : List Piece → List Piece := List.map fun
  | .fixed t => .fixed t
  | .name n => .name (imageOf f n)

variable {f g : Text → Option Text}

@[simp] theorem swap_nil : swap f [] = [] := rfl

@[simp] theorem swap_fixed (t : Text) (ps : List Piece) : swap f (.fixed t :: ps) = .fixed t :: swap f ps := rfl

@[simp] theorem swap_name (n : Text) (ps : List Piece) : swap f (.name n :: ps) = .name (imageOf f n) :: swap f ps := rfl

@[simp] theorem names_nil : names [] = [] := rfl

@[simp] theorem names_fixed (t : Text) (ps : List Piece) : names (.fixed t :: ps) = names ps := rfl

@[simp] theorem names_name (n : Text) (ps : List Piece) : names (.name n :: ps) = n :: names ps := rfl

/-- The names among pieces come in their order. -/
@[simp] theorem names_append (ps qs : List Piece) : names (ps ++ qs) = names ps ++ names qs := by
  simp [names]

@[simp] theorem text_fixed (t : Text) : (Piece.fixed t).text = t := rfl

@[simp] theorem text_name (n : Text) : (Piece.name n).text = n := rfl

/-- The names that are exchanged are counted piece by piece. -/
@[simp] theorem exchanged_append (ps qs : List Piece) : exchanged f (ps ++ qs) = exchanged f ps + exchanged f qs := by
  simp [exchanged]

/-- Where names are swapped for others, these are the names. -/
theorem names_swap (ps : List Piece) : names (swap f ps) = (names ps).map (imageOf f) := by
  induction ps with
  | nil => rfl
  | cons p ps ih => cases p <;> simp [ih]

/-- What holds of the names in every match holds of the names in a cut. -/
theorem names_cut {m : Matcher} {P : Text → Prop}
    (h : ∀ before t ps k, m before t = some (ps, k) → ∀ n ∈ names ps, P n) (t : Text) : ∀ n ∈ names (cut m t), P n := by
  have key (k : Nat) (before : Option Char) : ∀ n ∈ names (search m k before t), P n := by
    induction t generalizing k before with
    | nil =>
      cases k with
      | zero =>
        rw [search]
        cases hm : m before [] with
        | none => simp
        | some r => exact h _ _ _ _ hm
      | succ k => simp [search]
    | cons c t ih =>
      cases k with
      | succ k => exact ih k (some c)
      | zero =>
        rw [search]
        split
        · exact ih 0 (some c)
        · next ps hm =>
          intro n hn
          rw [names_append, names_fixed, List.mem_append] at hn
          exact hn.elim (h _ _ _ _ hm n) (ih 0 (some c) n)
        · next ps k hm =>
          intro n hn
          rw [names_append, List.mem_append] at hn
          exact hn.elim (h _ _ _ _ hm n) (ih k (some c) n)
  exact key 0 none

/-- The exchanged pieces join to the exchanged text. -/
theorem join_swap (ps : List Piece) : join (swap f ps) = exchange f ps := by
  induction ps with
  | nil => rfl
  | cons p ps ih => cases p <;> simp [exchange, ih, imageOf]

/-- An exchange is determined by the images of the names. -/
theorem exchange_congr {ps : List Piece} (h : ∀ n ∈ names ps, imageOf f n = imageOf g n) : exchange f ps = exchange g ps := by
  induction ps with
  | nil => rfl
  | cons p ps ih =>
    cases p with
    | fixed t => simp [exchange, ih h]
    | name n =>
      simp only [names_name, List.mem_cons, forall_eq_or_imp, imageOf] at h
      simp [exchange, ih h.2, h.1]

/-- Pieces without a name stay as they are. -/
theorem exchange_of_names_eq_nil {ps : List Piece} (h : names ps = []) : exchange f ps = join ps := by
  rw [← exchange_none ps]
  exact exchange_congr (by simp [h])

/-- What holds of the characters of a text holds of those of the exchanged text, if it passes on from each name to its image. -/
theorem forall_mem_exchange {P : Char → Prop} {ps : List Piece}
    (hf : ∀ n ∈ names ps, ∀ p, f n = some p → (∀ c ∈ n, P c) → ∀ c ∈ p, P c) (hps : ∀ c ∈ join ps, P c) :
    ∀ c ∈ exchange f ps, P c := by
  induction ps with
  | nil => exact hps
  | cons p ps ih =>
    obtain ⟨hfirst, hrest⟩ := List.forall_mem_append.1 hps
    cases p with
    | fixed t => exact List.forall_mem_append.2 ⟨hfirst, ih hf hrest⟩
    | name n =>
      rw [names_name, List.forall_mem_cons] at hf
      refine List.forall_mem_append.2 ⟨?_, ih hf.2 hrest⟩
      cases hn : f n with
      | none => exact hfirst
      | some p => exact hf.1 p hn hfirst

/-- A second exchange sees the images that the first one wrote. -/
theorem exchange_swap (ps : List Piece) : exchange g (swap f ps) = exchange (fun n => some (imageOf g (imageOf f n))) ps := by
  induction ps with
  | nil => rfl
  | cons p ps ih => cases p <;> simp [exchange, ih, imageOf]

/-- Nothing is exchanged if no name has a pseudonym. -/
theorem exchanged_eq_zero_iff {ps : List Piece} : exchanged f ps = 0 ↔ ∀ n ∈ names ps, f n = none := by
  simp [exchanged, List.countP_eq_zero]

/-- There is no new text exactly if no name has a pseudonym. -/
theorem exchange?_eq_none_iff {ps : List Piece} : exchange? f ps = none ↔ ∀ n ∈ names ps, f n = none := by
  rw [← exchanged_eq_zero_iff]
  unfold exchange?
  split <;> simp [*]

/-- There is one if some name has a pseudonym, and it is the pieces with all of these exchanged. -/
theorem exchange?_eq_some_iff {ps : List Piece} {t : Text} :
    exchange? f ps = some t ↔ (∃ n ∈ names ps, f n ≠ none) ∧ exchange f ps = t := by
  have hz : (∃ n ∈ names ps, f n ≠ none) ↔ exchanged f ps ≠ 0 := by
    simp [exchanged_eq_zero_iff]
  rw [hz]
  unfold exchange?
  split <;> simp [*]

/-- When no name has an image, the text stays as it was. -/
theorem exchange_of_exchanged_eq_zero {ps : List Piece} (h : exchanged f ps = 0) : exchange f ps = join ps := by
  rw [← exchange_none ps]
  exact exchange_congr fun n hn => congrArg (Option.getD · n) (exchanged_eq_zero_iff.1 h n hn)

/-- Whether anything was exchanged or not, the text afterwards is the exchanged one. -/
theorem getD_exchange? (ps : List Piece) : (exchange? f ps).getD (join ps) = exchange f ps := by
  unfold exchange?
  split
  · next h => exact (exchange_of_exchanged_eq_zero h).symm
  · rfl

/-- Names are exchanged from left to right: what leads from a text to the one with the next name exchanged, and goes on from there,
leads to the text with all of them exchanged. -/
theorem exchange?_trans {R : Text → Text → Prop} (htrans : ∀ s t u, R s t → R t u → R s u) {ps : List Piece} {out : Text}
    (h : ∀ qs n rs, ps = qs ++ .name n :: rs → ∀ p, f n = some p →
      R (exchange f qs ++ (n ++ join rs)) (exchange f qs ++ (p ++ join rs)))
    (hout : exchange? f ps = some out) : R (join ps) out := by
  obtain ⟨hex, rfl⟩ := exchange?_eq_some_iff.1 hout
  have key (rs : List Piece) : ∀ qs, ps = qs ++ rs → (∃ n ∈ names rs, f n ≠ none) →
      R (exchange f qs ++ join rs) (exchange f ps) := by
    induction rs with
    | nil => simp
    | cons r rs ih =>
      intro qs hps hex
      -- the pieces up to this one have had their turn
      have hnext (w : Text) (hw : exchange f [r] = w) (hex : ∃ n ∈ names rs, f n ≠ none) :
          R (exchange f qs ++ (w ++ join rs)) (exchange f ps) := by
        have := ih (qs ++ [r]) (by rw [hps, List.append_assoc, List.singleton_append]) hex
        rwa [exchange_append, hw, List.append_assoc] at this
      cases r with
      | fixed t => exact hnext t (List.append_nil t) hex
      | name n =>
        rw [join_cons, text_name]
        cases hn : f n with
        | none =>
          have hrest : ∃ m ∈ names rs, f m ≠ none := by simpa [hn] using hex
          exact hnext n (by simp [exchange, hn]) hrest
        | some p =>
          have hfirst := h qs n rs hps p hn
          by_cases hrest : ∃ m ∈ names rs, f m ≠ none
          · exact htrans _ _ _ hfirst (hnext p (by simp [exchange, hn]) hrest)
          · have hnone : exchanged f rs = 0 := exchanged_eq_zero_iff.2 (by simpa using hrest)
            rwa [hps, exchange_append, exchange, hn, Option.getD_some, exchange_of_exchanged_eq_zero hnone]
  exact key ps [] rfl hex

/-- An exchange asks for the names of the pieces only. -/
theorem exchange?_congr {ps : List Piece} (h : ∀ n ∈ names ps, f n = g n) : exchange? f ps = exchange? g ps := by
  have hz : exchanged f ps = 0 ↔ exchanged g ps = 0 := by
    simp only [exchanged_eq_zero_iff]
    exact forall₂_congr fun n hn => by rw [h n hn]
  unfold exchange?
  by_cases h0 : exchanged f ps = 0
  · rw [if_pos h0, if_pos (hz.1 h0)]
  · rw [if_neg h0, if_neg (mt hz.2 h0), exchange_congr fun n hn => congrArg (Option.getD · n) (h n hn)]

end Pseudonym.Piece
