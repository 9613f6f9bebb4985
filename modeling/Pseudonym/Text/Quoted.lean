import Pseudonym.Text.Unprintable
import Pseudonym.Text.Utf8

/-!
# Quotations

Bytes that name a file are shown in double quotes. A double quote and a backslash in them are led in by a backslash; the tab, the
line feed, the carriage return and the null character have a letter of their own; every other unprintable character is shown by
its number, and every byte that belongs to no character by its value.
-/

namespace Pseudonym.Quoted

/-- A number in base sixteen with small letters. -/
def hex (n : Nat) : Text := Nat.toDigits 16 n

/-- The digit of a number below sixteen, in capital letters. -/
def hexDigit (n : Nat) : Char := "0123456789ABCDEF".toList.getD n '0'

/-- A character as it stands in a quotation. -/
def char (c : Char) : Text :=
  if c = '\x00' then ['\\', '0']
  else if c = '\t' then ['\\', 't']
  else if c = '\n' then ['\\', 'n']
  else if c = '\r' then ['\\', 'r']
  else if c = '\\' ∨ c = '"' then ['\\', c]
  else if isUnprintable c then ['\\', 'u', '\x7b'] ++ hex c.toNat ++ ['\x7d']
  else [c]

/-- A byte that belongs to no character. -/
def byte (b : UInt8) : Text := ['\\', 'x', hexDigit (b.toNat / 16), hexDigit (b.toNat % 16)]

/-- Bytes in quotes. -/
def quote (bytes : Bytes) : Text :=
  '"' :: (Utf8.chunks bytes).flatMap (fun
    | .char c => char c
    | .broken bs => bs.flatMap byte) ++ ['"']

end Pseudonym.Quoted
