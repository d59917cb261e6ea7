/-
  Engram.Text.Quoted — a text in double quotes, with escapes.

  A quote and a backslash are written after a backslash, the four common controls as a letter
  or a zero after a backslash, and any other unseen character by its number in hexadecimal
  digits between braces. All else stands for itself, the single quote included.
-/

import Engram.Text.Unseen

namespace Engram.Text

/-- A number in lower-case hexadecimal digits. -/
def hex (n : Nat) : String := String.ofList (Nat.toDigits 16 n)

/-- How a character is written between the quotes. -/
def escape (c : Char) : String :=
  if c = '"' then "\\\""
  else if c = '\\' then "\\\\"
  else if c = '\n' then "\\n"
  else if c = '\r' then "\\r"
  else if c = '\t' then "\\t"
  else if c = '\x00' then "\\0"
  else if isUnseen c then "\\u\x7b" ++ hex c.toNat ++ "\x7d"
  else String.singleton c

def quoted (s : String) : String := "\"" ++ String.join (s.toList.map escape) ++ "\""

end Engram.Text
