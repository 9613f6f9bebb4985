import Std.Data.HashMap
import Pseudonym.Codebook

/-!
# Codebooks with an index

An indexed codebook keeps, beside its entries, a table of the places at which names stand, so that a name is found without a search.
The two are changed one after the other: an entry is pushed, and then the table is told its place. A place that the table gives
is read without a second look, which stops the work if no entry stands there (`Overrun`).
-/

namespace Pseudonym

/-- The hash of a text, from the numbers of its characters. -/
instance : Hashable Text where
  hash t := t.foldl (fun h c => mixHash h c.val.toUInt64) 7

/-- A list of names with their pseudonyms, oldest entry first, and the place of each name in it. -/
structure IndexedCodebook where
  entries : Array (Text × Text) := #[]
  index : Std.HashMap Text Nat := {}

namespace IndexedCodebook

/-- The codebook with no entry. -/
def empty : IndexedCodebook := {}

/-- A read at a place past the last entry. -/
structure Overrun where
  place : Nat
  size : Nat
  deriving DecidableEq, Repr

/-- The pseudonym at a place. -/
def read (b : IndexedCodebook) (i : Nat) : Except Overrun Text :=
  match b.entries[i]? with
  | some e => .ok e.2
  | none => .error { place := i, size := b.entries.size }

/-- The pseudonym of a name. -/
def get? (b : IndexedCodebook) (name : Text) : Except Overrun (Option Text) :=
  match b.index[name]? with
  | some i => some <$> b.read i
  | none => .ok none

/-- Has the name an entry? -/
def contains (b : IndexedCodebook) (name : Text) : Bool := b.index.contains name

/-- The number of entries. -/
def size (b : IndexedCodebook) : Nat := b.entries.size

def isEmpty (b : IndexedCodebook) : Bool := b.entries.isEmpty

/-- The entries alone. -/
def toCodebook (b : IndexedCodebook) : Codebook := ⟨b.entries.toList⟩

/-- Work on an indexed codebook, next to a state of its own in which pseudonyms are made. -/
abbrev Work (τ : Type) := ExceptT Overrun (StateM (IndexedCodebook × τ))

variable {τ ε α : Type}

/-- The codebook as it is now. -/
def current : Work τ IndexedCodebook := return (← get).1

/-- Lets a pseudonym be made. -/
def outside (make : StateM τ α) : Work τ α :=
  modifyGet fun (b, t) => let (a, t) := make.run t; (a, b, t)

/-- Puts an entry after the last one. -/
def push (name pseudonym : Text) : Work τ Unit :=
  modify fun (b, t) => ({ b with entries := b.entries.push (name, pseudonym) }, t)

/-- Has the table say that a name stands at a place. -/
def point (name : Text) (i : Nat) : Work τ Unit :=
  modify fun (b, t) => ({ b with index := b.index.insert name i }, t)

/-- The pseudonym of a name, made and entered at first sight. -/
def enter (name : Text) (make : StateM τ Text) : Work τ Text := do
  let i ← match (← current).index[name]? with
    | some i => pure i
    | none =>
      push name (← outside make)
      let i := (← current).size - 1
      point name i
      pure i
  (← current).read i

/-- The pseudonym of a name, made at first sight by an action that may fail. -/
def tryEnter (name : Text) (make : StateM τ (Except ε Text)) : Work τ (Except ε Text) := do
  if !(← current).contains name then
    match ← outside make with
    | .error e => return .error e
    | .ok p =>
      push name p
      point name ((← current).size - 1)
  return .ok ((← (← current).get? name).getD [])

end IndexedCodebook

end Pseudonym
