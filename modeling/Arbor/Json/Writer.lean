import Arbor.Json.Basic
import Arbor.Decimal.Text

/-!
This module contains the text of a JSON value, without white space.
-/

namespace Arbor.Json

def escapeChar (c : Char) : String :=
  if c = '"' then "\\\""
  else if c = '\\' then "\\\\"
  else if c = '\n' then "\\n"
  else if c = '\t' then "\\t"
  else if c = '\r' then "\\r"
  else if c = '\x08' then "\\b"
  else if c = '\x0c' then "\\f"
  else if c.toNat < 0x20 then
    let digits := Nat.toDigits 16 c.toNat
    "\\u" ++ String.ofList (List.replicate (4 - digits.length) '0' ++ digits)
  else c.toString

def writeString (out s : String) : String :=
  (s.foldl (fun out c => out ++ escapeChar c) (out.push '"')).push '"'

def Number.text : Number → String
  | .integer n => toString n
  | .real x => if x.isFinite then Decimal.FloatForm.marked.text x else "null"

mutual

def write (out : String) : Json → String
  | .null | .unusable => out ++ "null"
  | .bool b => out ++ (if b then "true" else "false")
  | .number n => out ++ n.text
  | .string s => writeString out s
  | .array [] => out ++ "[]"
  | .array (x :: xs) => (writeItems (write (out.push '[') x) xs).push ']'
  | .object [] => out.push '\x7b' |>.push '\x7d'
  | .object ((key, x) :: rest) =>
    (writeFields (write ((writeString (out.push '\x7b') key).push ':') x) rest).push '\x7d'

def writeItems (out : String) : List Json → String
  | [] => out
  | x :: xs => writeItems (write (out.push ',') x) xs

def writeFields (out : String) : List (String × Json) → String
  | [] => out
  | (key, x) :: rest => writeFields (write ((writeString (out.push ',') key).push ':') x) rest

end

def render (j : Json) : String :=
  write "" j

end Arbor.Json
