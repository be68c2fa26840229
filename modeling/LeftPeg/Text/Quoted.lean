import LeftPeg.Text.Hidden

/-!
# Quoted text

A piece of text in quotation marks, on one line and with every character to be seen. Quotation
marks and backslashes in it stand behind a backslash. Line breaks, tabs and the character NUL have
a letter or digit of their own, and any other character that does not show is written as its code
point.
-/

namespace LeftPeg

namespace Text

/-- A code point in hexadecimal digits, without leading zeros. -/
def codePoint (c : Char) : List Char :=
  ['\\', 'u', '\x7b'] ++ Nat.toDigits 16 c.toNat ++ ['\x7d']

/-- How a character is written between quotation marks. -/
def escape : Char → List Char
  | '"' => ['\\', '"']
  | '\\' => ['\\', '\\']
  | '\n' => ['\\', 'n']
  | '\r' => ['\\', 'r']
  | '\t' => ['\\', 't']
  | '\x00' => ['\\', '0']
  | c => if isHidden c then codePoint c else [c]

/-- The text in quotation marks. -/
def quoted (text : String) : String :=
  String.ofList ('"' :: text.toList.flatMap escape ++ ['"'])

end Text

end LeftPeg
