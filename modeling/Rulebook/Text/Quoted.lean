/-
  Text/Quoted.lean --- text between quotation marks, for messages.

  A quoted text shows what a reader could mistake: the quotation mark, the
  backslash and the common control characters have short escapes, every other
  character that is not printable stands as its code point in hexadecimal.
-/
import Rulebook.Text.Printable

set_option autoImplicit false

namespace Rulebook.Text

/-- The digits of a number in base sixteen, in lower case. -/
def hexDigits (n : Nat) : List Char := Nat.toDigits 16 n

/-- The escape of a code point: `u`, and the hexadecimal digits in braces. -/
def codePointEscape (c : Char) : List Char :=
  ['\\', 'u', '\x7b'] ++ hexDigits c.toNat ++ ['\x7d']

/-- How one character stands in a quoted text. -/
def quoteChar (c : Char) : List Char :=
  if c = '\x00' then ['\\', '0']
  else if c = '\t' then ['\\', 't']
  else if c = '\r' then ['\\', 'r']
  else if c = '\n' then ['\\', 'n']
  else if c = '\\' then ['\\', '\\']
  else if c = '\"' then ['\\', '\"']
  else if isPrintable c then [c]
  else codePointEscape c

/-- The text in quotation marks with everything ambiguous escaped. -/
def quoted (s : String) : String :=
  String.ofList ('\"' :: s.toList.flatMap quoteChar ++ ['\"'])

end Rulebook.Text
