import Pseudonym.Text.Basic

/-!
# Slices

A text is cut by the numbers of its bytes, and a cut has to fall in front of a character or behind the last one. A slice that ends
before it begins, or with an end at any other byte, is refused.
-/

namespace Pseudonym.Text

/-- Does a byte's number lie in front of a character, or behind all characters? -/
def IsBoundary (t : Text) (n : Nat) : Prop := ∃ before after, t = before ++ after ∧ before.utf8Size = n

/-- The text behind its first bytes. -/
def from? : Text → Nat → Option Text
  | t, 0 => some t
  | [], _ + 1 => none
  | c :: t, n + 1 => if c.utf8Size ≤ n + 1 then from? t (n + 1 - c.utf8Size) else none

/-- The text of the first bytes. -/
def upTo? : Text → Nat → Option Text
  | _, 0 => some []
  | [], _ + 1 => none
  | c :: t, n + 1 => if c.utf8Size ≤ n + 1 then (upTo? t (n + 1 - c.utf8Size)).map (c :: ·) else none

/-- The text from one byte to another. -/
def slice? (t : Text) (begin stop : Nat) : Option Text :=
  if begin ≤ stop then (from? t begin).bind (upTo? · (stop - begin)) else none

/-- The first byte at which a text holds another one. -/
def find? : Text → Text → Option Nat
  | [], needle => if needle.isEmpty then some 0 else none
  | c :: t, needle => if needle.isPrefixOf (c :: t) then some 0 else (find? t needle).map (c.utf8Size + ·)

/-- The slice behind a text begins there. -/
theorem from?_append (s t : Text) : (s ++ t).from? s.utf8Size = some t := by
  induction s with
  | nil => cases t <;> rfl
  | cons c s ih =>
    obtain ⟨k, hk⟩ := Nat.exists_eq_succ_of_ne_zero (Nat.ne_of_gt c.utf8Size_pos)
    have hsize : k + utf8Size s + 1 - (k + 1) = utf8Size s := by omega
    rw [utf8Size, hk, Nat.succ_add, List.cons_append, from?, if_pos (by omega), hk, hsize, ih]

/-- The slice up to a text's end is the text. -/
theorem upTo?_append (s t : Text) : (s ++ t).upTo? s.utf8Size = some s := by
  induction s with
  | nil => cases t <;> rfl
  | cons c s ih =>
    obtain ⟨k, hk⟩ := Nat.exists_eq_succ_of_ne_zero (Nat.ne_of_gt c.utf8Size_pos)
    have hsize : k + utf8Size s + 1 - (k + 1) = utf8Size s := by omega
    rw [utf8Size, hk, Nat.succ_add, List.cons_append, upTo?, if_pos (by omega), hk, hsize, ih]
    rfl

/-- Between two others a text is the slice from its first byte to the one behind its last. -/
theorem slice?_append (s t u : Text) : (s ++ (t ++ u)).slice? s.utf8Size (s.utf8Size + t.utf8Size) = some t := by
  rw [slice?, if_pos (Nat.le_add_right _ _), from?_append, Option.bind_some, Nat.add_sub_cancel_left, upTo?_append]

/-- A slice that is not refused begins between two characters. -/
theorem eq_append_of_from? {t v : Text} {n : Nat} (h : t.from? n = some v) : ∃ u, t = u ++ v ∧ u.utf8Size = n := by
  fun_induction from? t n with
  | case1 t => exact ⟨[], Option.some.inj h, rfl⟩
  | case2 => cases h
  | case3 c t n hle ih =>
    obtain ⟨u, rfl, hu⟩ := ih h
    exact ⟨c :: u, rfl, by rw [utf8Size, hu]; omega⟩
  | case4 => cases h

/-- A slice that is not refused ends between two characters. -/
theorem eq_append_of_upTo? {t u : Text} {n : Nat} (h : t.upTo? n = some u) : ∃ v, t = u ++ v ∧ u.utf8Size = n := by
  fun_induction upTo? t n generalizing u with
  | case1 t =>
    cases h
    exact ⟨t, rfl, rfl⟩
  | case2 => cases h
  | case3 c t n hle ih =>
    obtain ⟨u, hu, rfl⟩ := Option.map_eq_some_iff.1 h
    obtain ⟨v, rfl, hsize⟩ := ih hu
    exact ⟨v, rfl, by rw [utf8Size, hsize]; omega⟩
  | case4 => cases h

end Pseudonym.Text
