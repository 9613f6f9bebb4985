import Pseudonym.Token

/-!
# The mint: tokens that were never seen before

A mint makes random tokens and remembers every token it has handed out and every name that was reserved. A token that is taken
already is drawn anew, up to a number of times; then the mint gives up and has learnt nothing new. A class token of no
characters is refused outright.
-/

namespace Pseudonym

/-- A source of random words with the names that are taken, latest first. -/
structure Mint (σ : Type) where
  source : σ
  taken : List Text := []

/-- Why the mint hands out no token. -/
inductive MintError where
  /-- A class token of no characters was asked for. -/
  | emptyClassName
  /-- Every candidate was taken. -/
  | exhausted (kind : TokenKind)
  deriving DecidableEq, Repr

/-- How many candidates in a row may be taken before the mint gives up. -/
def Mint.maxAttempts : Nat := 10000

/-- The text of the error. -/
def MintError.message : MintError → String
  | .emptyClassName => "Invalid options: class name length must be at least 1"
  | .exhausted kind =>
    "Name space exhausted: no unused " ++ kind.label ++ " left after " ++ toString Mint.maxAttempts ++ " attempts"

namespace Mint

variable {σ : Type}

/-- Is a name taken? -/
def isTaken (m : Mint σ) (name : Text) : Bool := m.taken.contains name

/-- The mint that has a name taken. -/
def reserve (m : Mint σ) (name : Text) : Mint σ :=
  if m.isTaken name then m else { m with taken := name :: m.taken }

/-- The mint that has each name of a list taken. -/
def reserveAll (m : Mint σ) (names : List Text) : Mint σ := names.foldl reserve m

/-- What came of asking for a token: the token or why there is none, the candidates that were taken, and the mint afterwards. -/
structure Strike (σ : Type) where
  token : Except MintError Text
  collisions : List Text := []
  mint : Mint σ

/-- The first of a number of candidates that is not taken. -/
def strikeWithin (kind : TokenKind) (make : σ → Text × σ) : Nat → Mint σ → Strike σ
  | 0, m => { token := .error (.exhausted kind), mint := m }
  | n + 1, m =>
    let (candidate, s) := make m.source
    if m.isTaken candidate then
      let r := strikeWithin kind make n { m with source := s }
      { r with collisions := candidate :: r.collisions }
    else { token := .ok candidate, mint := { source := s, taken := candidate :: m.taken } }

variable [WordSource σ]

/-- A class token of a length that was never seen before. -/
def className (length : Nat) (m : Mint σ) : Strike σ :=
  if length = 0 then { token := .error .emptyClassName, mint := m }
  else strikeWithin .className (Token.className length) maxAttempts m

/-- A file token with an extension that was never seen before. -/
def fileName (extension : Option Text) (m : Mint σ) : Strike σ :=
  strikeWithin .fileName (Token.fileName extension) maxAttempts m

omit [WordSource σ] in
/-- The mint knows the names that are taken. -/
theorem isTaken_iff_mem {m : Mint σ} {name : Text} : m.isTaken name = true ↔ name ∈ m.taken := by
  simp [isTaken]

omit [WordSource σ] in
/-- To reserve a name takes this name and no other. -/
theorem mem_taken_reserve {m : Mint σ} {name other : Text} :
    other ∈ (m.reserve name).taken ↔ other = name ∨ other ∈ m.taken := by
  unfold reserve
  split
  · next h => exact ⟨Or.inr, fun ho => ho.elim (fun e => e ▸ isTaken_iff_mem.1 h) id⟩
  · simp

end Mint

end Pseudonym
