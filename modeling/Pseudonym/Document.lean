import Pseudonym.Text.Utf8

/-!
# Documents: a file's bytes as text

Bytes that are UTF-8 are read as such. Other bytes are read one by one, each as the character of its number, so that ASCII names
are found and every other byte survives; they are written back likewise, and a character that has no byte is written in UTF-8.
-/

namespace Pseudonym

/-- How a file's bytes stand for its text. -/
inductive Charset where
  | utf8
  | bytewise
  deriving DecidableEq, Repr

namespace Charset

/-- The byte of a character, or its UTF-8 form when no byte has its number. -/
def byteOf (c : Char) : Bytes := if c.toNat < 256 then [c.toNat.toUInt8] else Utf8.encodeChar c

/-- The bytes of a text. -/
def encode : Charset → Text → Bytes
  | .utf8, t => Utf8.encode t
  | .bytewise, t => t.flatMap byteOf

/-- The text of bytes, and how they stand for it. -/
def decode (bytes : Bytes) : Text × Charset :=
  match Utf8.decode? bytes with
  | some t => (t, .utf8)
  | none => (bytes.map fun b => Char.ofNat b.toNat, .bytewise)

end Charset

end Pseudonym
