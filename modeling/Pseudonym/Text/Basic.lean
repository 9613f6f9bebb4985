/-!
# Texts and bytes

A text is a list of characters and a file's content a list of bytes, so that every definition on them is by recursion on a list.
The character classes the library asks for are here: white space, the characters of an identifier and those of a file name.
-/

namespace Pseudonym

/-- A text, character by character. -/
abbrev Text := List Char

/-- A sequence of bytes: a file's content, a file's name, an argument. -/
abbrev Bytes := List UInt8

/-- The characters with the property `White_Space`. -/
def isBlank (c : Char) : Bool :=
  let n := c.toNat
  (0x09 ≤ n && n ≤ 0x0D) || n == 0x20 || n == 0x85 || n == 0xA0 || n == 0x1680 || (0x2000 ≤ n && n ≤ 0x200A) ||
    n == 0x2028 || n == 0x2029 || n == 0x202F || n == 0x205F || n == 0x3000

/-- The characters of an identifier: the ASCII letters and digits, the underscore and the hyphen. -/
def isIdentChar (c : Char) : Bool := c.isAlphanum || c == '_' || c == '-'

/-- The characters of a file name that stands in running text: those of an identifier and the dot. -/
def isFileNameChar (c : Char) : Bool := isIdentChar c || c == '.'

/-- An identifier can stand in the name of a file. -/
theorem isFileNameChar_of_isIdentChar {c : Char} (h : isIdentChar c = true) : isFileNameChar c = true := by
  simp [isFileNameChar, h]

namespace Text

/-- The length of a text's UTF-8 form, in bytes. -/
def utf8Size : Text → Nat
  | [] => 0
  | c :: t => c.utf8Size + utf8Size t

/-- The size of a text is that of its parts. -/
@[simp] theorem utf8Size_append (s t : Text) : utf8Size (s ++ t) = utf8Size s + utf8Size t := by
  induction s with
  | nil => simp [utf8Size]
  | cons c s ih => simp [utf8Size, ih, Nat.add_assoc]

/-- Only the empty text takes no byte. -/
theorem utf8Size_pos {t : Text} (h : t ≠ []) : 0 < utf8Size t := by
  cases t with
  | nil => exact absurd rfl h
  | cons c t => have := c.utf8Size_pos; simp only [utf8Size]; omega

/-- The first line, without the line feed that ends it and a carriage return in front of that. -/
def firstLine (t : Text) : Text :=
  let line := t.takeWhile (· != '\n')
  if line.length < t.length && line.getLast? == some '\r' then line.dropLast else line

/-- The text without the white space it begins with. -/
def trimLeft (t : Text) : Text := t.dropWhile isBlank

end Text

end Pseudonym
