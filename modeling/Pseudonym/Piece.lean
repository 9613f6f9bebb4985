import Pseudonym.Text.Basic

/-!
# Pieces: a text cut at the names it holds

A text is cut into pieces, the names that may be exchanged and what stands fixed around them. A cut is a search from left to
right, resumed after each match: at every character outside an earlier match a matcher sees the character before and the text
from there on, and says which pieces the match falls into and how many characters it takes. What no match takes stays fixed,
so a matcher that only splits what it takes loses nothing (`join_cut`).
-/

namespace Pseudonym

/-- A piece of a text: a name that may be exchanged, or text that stands. -/
inductive Piece where
  | fixed (t : Text)
  | name (n : Text)
  deriving DecidableEq, Repr

namespace Piece

/-- The characters of a piece. -/
def text : Piece → Text
  | .fixed t => t
  | .name n => n

/-- The name a piece is, if it is one. -/
def name? : Piece → Option Text
  | .fixed _ => none
  | .name n => some n

/-- The text that was cut. -/
def join (ps : List Piece) : Text := ps.flatMap text

/-- The names among the pieces, in order and with repeats. -/
def names (ps : List Piece) : List Text := ps.filterMap name?

/-- A matcher sees the character before, if there is one, and the text from there on; a match is the pieces it falls into and
the number of characters it takes. -/
abbrev Matcher := Option Char → Text → Option (List Piece × Nat)

/-- The search with `skip` characters of the last match still to pass over. An empty match takes no character, and the search
goes on behind the next one. -/
def search (m : Matcher) : Nat → Option Char → Text → List Piece
  | 0, before, [] => ((m before []).map (·.1)).getD []
  | _ + 1, _, [] => []
  | 0, before, c :: t =>
    match m before (c :: t) with
    | none => .fixed [c] :: search m 0 (some c) t
    | some (ps, 0) => ps ++ .fixed [c] :: search m 0 (some c) t
    | some (ps, k + 1) => ps ++ search m k (some c) t
  | k + 1, _, c :: t => search m k (some c) t

/-- The pieces of a text under a matcher. -/
def cut (m : Matcher) (t : Text) : List Piece := search m 0 none t

/-- The matcher of one literal text. -/
def literal (needle : Text) : Matcher := fun _ t =>
  if needle.isPrefixOf t then some ([.name needle], needle.length) else none

/-- Each name exchanged for its image under `f`, where it has one. -/
def exchange (f : Text → Option Text) : List Piece → Text
  | [] => []
  | .fixed t :: ps => t ++ exchange f ps
  | .name n :: ps => (f n).getD n ++ exchange f ps

/-- How many of the pieces are names with an image under `f`. -/
def exchanged (f : Text → Option Text) (ps : List Piece) : Nat := (names ps).countP fun n => (f n).isSome

/-- The text with each name exchanged, or nothing when no name has an image. -/
def exchange? (f : Text → Option Text) (ps : List Piece) : Option Text :=
  if exchanged f ps = 0 then none else some (exchange f ps)

/-- A matcher that only splits what it takes. -/
def Matcher.Splits (m : Matcher) : Prop :=
  ∀ before t ps k, m before t = some (ps, k) → join ps = t.take k ∧ k ≤ t.length

@[simp] theorem join_nil : join [] = [] := rfl

@[simp] theorem join_cons (p : Piece) (ps : List Piece) : join (p :: ps) = p.text ++ join ps := rfl

/-- Pieces that are put together give their texts put together. -/
@[simp] theorem join_append (ps qs : List Piece) : join (ps ++ qs) = join ps ++ join qs := by
  simp [join]

/-- An exchange goes piece by piece. -/
@[simp] theorem exchange_append (f : Text → Option Text) (ps qs : List Piece) :
    exchange f (ps ++ qs) = exchange f ps ++ exchange f qs := by
  induction ps with
  | nil => rfl
  | cons p ps ih => cases p <;> simp [exchange, ih]

/-- With no image for any name, the text stays as it was. -/
theorem exchange_none (ps : List Piece) : exchange (fun _ => none) ps = join ps := by
  induction ps with
  | nil => rfl
  | cons p ps ih => cases p <;> simp [exchange, text, ih]

/-- A search loses nothing of the text behind what it skips. -/
theorem join_search {m : Matcher} (h : m.Splits) :
    ∀ (k : Nat) (before : Option Char) (t : Text), join (search m k before t) = t.drop k := by
  intro k before t
  induction t generalizing k before with
  | nil =>
    cases k with
    | zero =>
      rw [search]
      cases hm : m before [] with
      | none => rfl
      | some r => simpa using (h before [] r.1 r.2 hm).1
    | succ k => simp [search]
  | cons c t ih =>
    cases k with
    | zero =>
      rw [search]
      split
      · simp [text, ih]
      · next ps hm => simp [text, ih, (h _ _ _ _ hm).1]
      · next ps k hm => simp [ih, (h _ _ _ _ hm).1]
    | succ k => simp [search, ih]

/-- A cut loses nothing. -/
theorem join_cut {m : Matcher} (h : m.Splits) (t : Text) : join (cut m t) = t :=
  (join_search h 0 none t).trans (by simp)

/-- An occurrence of a literal is taken from the text as a whole. -/
theorem splits_literal (needle : Text) : Matcher.Splits (literal needle) := by
  intro before t ps k h
  simp only [literal] at h
  split at h
  · next hp =>
    obtain ⟨s, rfl⟩ := List.isPrefixOf_iff_prefix.1 hp
    cases h
    simp [text]
  · cases h

end Piece

end Pseudonym
