import Pseudonym.Text.Basic

/-!
# UTF-8

Bytes are read as UTF-8 one chunk after the other: a chunk is a character in its shortest form, or a stretch of bytes that is none.
Such a stretch is the longest one that begins a character's form and does not complete it, or else a single byte. A text is
recovered from bytes that hold characters only (`decode?`), or from any bytes with a replacement character for each
stretch (`decodeLossy`).
-/

namespace Pseudonym.Utf8

/-- The bytes of a character. -/
def encodeChar (c : Char) : Bytes :=
  let n := c.toNat
  if n < 0x80 then [n.toUInt8]
  else if n < 0x800 then [(0xC0 + n / 64).toUInt8, (0x80 + n % 64).toUInt8]
  else if n < 0x10000 then [(0xE0 + n / 4096).toUInt8, (0x80 + n / 64 % 64).toUInt8, (0x80 + n % 64).toUInt8]
  else
    [(0xF0 + n / 262144).toUInt8, (0x80 + n / 4096 % 64).toUInt8, (0x80 + n / 64 % 64).toUInt8, (0x80 + n % 64).toUInt8]

/-- The bytes of a text. -/
def encode (t : Text) : Bytes := t.flatMap encodeChar

/-- A character, or bytes that are none. -/
inductive Chunk where
  | char (c : Char)
  | broken (bytes : Bytes)
  deriving DecidableEq, Repr

/-- A character whose form has begun: its bytes so far, the number they stand for, how many bytes are owed, and between which
bounds the next one lies. -/
structure Begun where
  bytes : Bytes
  value : Nat
  owed : Nat
  low : UInt8 := 0x80
  high : UInt8 := 0xBF

/-- What a chunk's first byte says: the chunk is complete, or a form has begun. -/
def first (b : UInt8) : Chunk ⊕ Begun :=
  let n := b.toNat
  if n < 0x80 then .inl (.char (Char.ofNat n))
  else if n < 0xC2 then .inl (.broken [b])
  else if n < 0xE0 then .inr { bytes := [b], value := n - 0xC0, owed := 1 }
  else if n = 0xE0 then .inr { bytes := [b], value := 0, owed := 2, low := 0xA0 }
  else if n = 0xED then .inr { bytes := [b], value := 0xD, owed := 2, high := 0x9F }
  else if n < 0xF0 then .inr { bytes := [b], value := n - 0xE0, owed := 2 }
  else if n = 0xF0 then .inr { bytes := [b], value := 0, owed := 3, low := 0x90 }
  else if n < 0xF4 then .inr { bytes := [b], value := n - 0xF0, owed := 3 }
  else if n = 0xF4 then .inr { bytes := [b], value := 4, owed := 3, high := 0x8F }
  else .inl (.broken [b])

/-- What the next byte makes of a form that has begun: a character, a longer form, or nothing. -/
def Begun.next (p : Begun) (b : UInt8) : Option (Chunk ⊕ Begun) :=
  if p.low ≤ b ∧ b ≤ p.high then
    let value := p.value * 64 + b.toNat % 64
    if p.owed = 1 then some (.inl (.char (Char.ofNat value)))
    else some (.inr { bytes := p.bytes ++ [b], value, owed := p.owed - 1 })
  else none

/-- The chunks of bytes, a form having begun or not. -/
def chunksFrom : Option Begun → Bytes → List Chunk
  | none, [] => []
  | some p, [] => [.broken p.bytes]
  | none, b :: bs =>
    match first b with
    | .inl u => u :: chunksFrom none bs
    | .inr p => chunksFrom (some p) bs
  | some p, b :: bs =>
    match p.next b with
    | some (.inl u) => u :: chunksFrom none bs
    | some (.inr p) => chunksFrom (some p) bs
    | none =>
      .broken p.bytes ::
        match first b with
        | .inl u => u :: chunksFrom none bs
        | .inr p => chunksFrom (some p) bs

/-- The chunks of bytes. -/
def chunks (bytes : Bytes) : List Chunk := chunksFrom none bytes

/-- The text of chunks that are all characters. -/
def text? : List Chunk → Option Text
  | [] => some []
  | .char c :: us => (text? us).map (c :: ·)
  | .broken _ :: _ => none

/-- The text that bytes are the UTF-8 form of, if they are one. -/
def decode? (bytes : Bytes) : Option Text := text? (chunks bytes)

/-- The text of bytes, with U+FFFD for each stretch that is no character. -/
def decodeLossy (bytes : Bytes) : Text :=
  (chunks bytes).map fun
    | .char c => c
    | .broken _ => '\uFFFD'

/-- A character takes as many bytes as its size says. -/
theorem length_encodeChar (c : Char) : (encodeChar c).length = c.utf8Size := by
  have e : c.toNat = c.val.toNat := rfl
  simp only [encodeChar, Char.utf8Size, UInt32.le_iff_toNat_le, UInt32.toNat_ofNatLT, e]
  repeat' split
  all_goals simp only [List.length_cons, List.length_nil]
  all_goals omega

/-- A text takes as many bytes as its size says. -/
theorem length_encode (t : Text) : (encode t).length = t.utf8Size := by
  induction t with
  | nil => rfl
  | cons c t ih => simp [encode, Text.utf8Size, length_encodeChar] at ih ⊢; simpa using ih

end Pseudonym.Utf8
