import Pseudonym.Text.Basic

/-!
# Codebooks: which name stands for which

A codebook lists the names met so far, each with its pseudonym, in the order in which they were entered. It is write-once: a name
that has an entry keeps its pseudonym, and a pseudonym is asked for only when the name has none.
-/

namespace Pseudonym

/-- A list of names with their pseudonyms, oldest entry first. -/
structure Codebook where
  entries : List (Text × Text) := []
  deriving DecidableEq, Repr

namespace Codebook

/-- The codebook with no entry. -/
def empty : Codebook := {}

/-- The place of a name among the entries. -/
def index? (b : Codebook) (name : Text) : Option Nat := b.entries.findIdx? fun e => e.1 == name

/-- The pseudonym of a name. -/
def get? (b : Codebook) (name : Text) : Option Text := b.entries.lookup name

/-- Has the name an entry? -/
def contains (b : Codebook) (name : Text) : Bool := b.entries.any fun e => e.1 == name

/-- The names with an entry, oldest first. -/
def names (b : Codebook) : List Text := b.entries.map (·.1)

/-- The pseudonyms, oldest first. -/
def pseudonyms (b : Codebook) : List Text := b.entries.map (·.2)

/-- The number of entries. -/
def size (b : Codebook) : Nat := b.entries.length

def isEmpty (b : Codebook) : Bool := b.entries.isEmpty

/-- The codebook with one entry more, whatever it held. -/
def append (b : Codebook) (name pseudonym : Text) : Codebook := ⟨b.entries ++ [(name, pseudonym)]⟩

/-- The pseudonym of a name, made and entered at first sight. -/
def enter (b : Codebook) (name : Text) (make : Unit → Text) : Text × Codebook :=
  match b.get? name with
  | some p => (p, b)
  | none => let p := make (); (p, b.append name p)

/-- The pseudonym of a name, made at first sight by an action that may fail; a failure enters nothing. -/
def tryEnter {μ : Type → Type} [Monad μ] (b : Codebook) (name : Text) (make : μ Text) : μ (Text × Codebook) :=
  match b.get? name with
  | some p => pure (p, b)
  | none => do let p ← make; pure (p, b.append name p)

/-- The codebook of a list of pairs; of two entries for one name the first stays. -/
def ofList (pairs : List (Text × Text)) : Codebook :=
  pairs.foldl (fun b e => (b.enter e.1 fun _ => e.2).2) empty

@[simp] theorem get?_empty (name : Text) : empty.get? name = none := rfl

/-- An entry that is appended is found unless an earlier one bears its name. -/
theorem get?_append (b : Codebook) (name pseudonym other : Text) :
    (b.append name pseudonym).get? other = (b.get? other).or (if other = name then some pseudonym else none) := by
  simp only [get?, append, List.lookup_append]
  congr 1
  by_cases h : other = name
  · simp [h]
  · simp [List.lookup_cons, h, beq_eq_false_iff_ne.2 h]

/-- A codebook contains the names that it lists. -/
theorem contains_iff_mem_names {b : Codebook} {name : Text} : b.contains name = true ↔ name ∈ b.names := by
  simp [contains, names]

/-- A name has a pseudonym exactly if the codebook contains it. -/
theorem isSome_get? (b : Codebook) (name : Text) : (b.get? name).isSome = b.contains name := by
  obtain ⟨es⟩ := b
  induction es with
  | nil => rfl
  | cons e es ih =>
    obtain ⟨n, p⟩ := e
    simp only [get?, contains, List.lookup_cons, List.any_cons] at ih ⊢
    by_cases h : n = name
    · simp [h]
    · simpa [beq_eq_false_iff_ne.2 h, beq_eq_false_iff_ne.2 (Ne.symm h)] using ih

end Codebook

end Pseudonym
