import Arbor.Text.Printable

/-!
This module contains the quoted form of texts and characters: the form that shows every character, with
escapes for those that would not be seen or would be misread.
-/

namespace Arbor.Text

def codePointEscape (c : Char) : List Char :=
  '\\' :: 'u' :: '\x7b' :: Nat.toDigits 16 c.toNat ++ ['\x7d']

/--
The quoted form of one character inside the given quote. Backslash, the quote itself, NUL, tab and the
line ends have short escapes; an ASCII character that prints is kept; any other character is kept if it
prints and stands on its own, and is written as its code point otherwise.
-/
def quoteChar (quote c : Char) : List Char :=
  if c = '\x00' then ['\\', '0']
  else if c = '\t' then ['\\', 't']
  else if c = '\r' then ['\\', 'r']
  else if c = '\n' then ['\\', 'n']
  else if c = '\\' then ['\\', '\\']
  else if c = quote then ['\\', quote]
  else if 0x20 ≤ c.toNat ∧ c.toNat < 0x7f then [c]
  else if isExtending c || !isPrintable c then codePointEscape c
  else [c]

def quoted (s : String) : String :=
  String.ofList ('"' :: s.toList.flatMap (quoteChar '"') ++ ['"'])

def quotedChar (c : Char) : String :=
  String.ofList ('\'' :: quoteChar '\'' c ++ ['\''])

end Arbor.Text
