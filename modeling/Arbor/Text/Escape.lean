/-!
This module contains the escapes of string literals: a tree holds the raw text between the quotes, and
`unescape` computes the text it stands for.
-/

namespace Arbor.Text

/--
Read a backslash before `n`, `t`, `"` or another backslash as the character it stands for, in one pass
from left to right. Any other backslash stands for itself.
-/
def unescapeList : List Char → List Char
  | '\\' :: 'n' :: rest => '\n' :: unescapeList rest
  | '\\' :: 't' :: rest => '\t' :: unescapeList rest
  | '\\' :: '"' :: rest => '"' :: unescapeList rest
  | '\\' :: '\\' :: rest => '\\' :: unescapeList rest
  | c :: rest => c :: unescapeList rest
  | [] => []

def unescape (raw : String) : String :=
  String.ofList (unescapeList raw.toList)

end Arbor.Text
