import Arbor.Json.Reader

/-!
This module contains the reading of the smallest parts of TOML documents: blanks, comments and line ends, strings,
and keys.
-/

namespace Arbor.Toml

def isBlank (c : Char) : Bool :=
  c == ' ' || c == '\t'

def skipBlanks (cs : List Char) : List Char :=
  cs.dropWhile isBlank

def isText (c : Char) : Bool :=
  c == '\t' || 0x20 ≤ c.toNat && c.toNat != 0x7f

def newline? : List Char → Option (List Char)
  | '\n' :: rest => some rest
  | '\r' :: '\n' :: rest => some rest
  | _ => none

def skipLines : List Char → List Char
  | ' ' :: rest => skipLines rest
  | '\t' :: rest => skipLines rest
  | '\n' :: rest => skipLines rest
  | '\r' :: '\n' :: rest => skipLines rest
  | cs => cs

def skipGap (cs : List Char) : List Char :=
  go false cs
where
  /-- Skip on, inside a comment or outside. -/
  go : Bool → List Char → List Char
    | _, '\n' :: rest => go false rest
    | _, '\r' :: '\n' :: rest => go false rest
    | true, c :: rest => if isText c then go true rest else c :: rest
    | false, '#' :: rest => go true rest
    | false, c :: rest => if isBlank c then go false rest else c :: rest
    | _, [] => []

def lineEnd? (cs : List Char) : Option (List Char) :=
  let cs := match skipBlanks cs with
    | '#' :: rest => rest.dropWhile isText
    | cs => cs
  if cs.isEmpty then some [] else newline? cs

/-! Strings -/

def scalar? (n : Nat) : Option Char :=
  if n.isValidChar then some (Char.ofNat n) else none

def escape? : List Char → Option (Char × List Char)
  | 'u' :: rest => do
    let (n, rest) ← Json.hex4? rest
    some (← scalar? n, rest)
  | 'U' :: rest => do
    let (high, rest) ← Json.hex4? rest
    let (low, rest) ← Json.hex4? rest
    some (← scalar? (high * 0x10000 + low), rest)
  | '/' :: _ => none
  | c :: rest => (Json.shortEscape? c).map fun c => (c, rest)
  | [] => none

def lineString? (quote : Char) (cs : List Char) : Option (String × List Char) :=
  go cs.length "" cs
where
  /-- Read on from the text read so far; the bound counts the characters left. -/
  go : Nat → String → List Char → Option (String × List Char)
    | fuel + 1, text, c :: rest =>
      if c = quote then some (text, rest)
      else if c = '\\' ∧ quote = '"' then do
        let (c, rest) ← escape? rest
        go fuel (text.push c) rest
      else if isText c then go fuel (text.push c) rest
      else none
    | _, _, _ => none

def continuation? (cs : List Char) : Option (List Char) :=
  (newline? (skipBlanks cs)).map skipLines

/--
The rest of a string on several lines after its opening quotes. One or two quotes are part of the text, also right
before the three that end it.
-/
def linesString? (quote : Char) (cs : List Char) : Option (String × List Char) :=
  go cs.length "" ((newline? cs).getD cs)
where
  /-- Read on from the text read so far; the bound counts the characters left. -/
  go : Nat → String → List Char → Option (String × List Char)
    | fuel + 1, text, c :: rest =>
      if c = quote then
        let run := ((c :: rest).takeWhile (· == quote)).length
        let inside := if run < 3 then run else min (run - 3) 2
        let text := text.pushn quote inside
        if run < 3 then go fuel text ((c :: rest).drop run)
        else some (text, (c :: rest).drop (inside + 3))
      else if c = '\\' ∧ quote = '"' then
        match continuation? rest with
        | some rest => go fuel text rest
        | none => do
          let (c, rest) ← escape? rest
          go fuel (text.push c) rest
      else match newline? (c :: rest) with
        | some rest => go fuel (text.push '\n') rest
        | none => if isText c then go fuel (text.push c) rest else none
    | _, _, _ => none

def string? : List Char → Option (String × List Char)
  | '"' :: '"' :: '"' :: rest => linesString? '"' rest
  | '\'' :: '\'' :: '\'' :: rest => linesString? '\'' rest
  | '"' :: rest => lineString? '"' rest
  | '\'' :: rest => lineString? '\'' rest
  | _ => none

/-! Keys -/

def isKeyChar (c : Char) : Bool :=
  c.isAlphanum || c == '-' || c == '_'

def keyPart? : List Char → Option (String × List Char)
  | '"' :: rest => lineString? '"' rest
  | '\'' :: rest => lineString? '\'' rest
  | cs =>
    let bare := cs.takeWhile isKeyChar
    if bare.isEmpty then none else some (String.ofList bare, cs.dropWhile isKeyChar)

def depthLimit : Nat := 79

def keyParts? : Nat → List Char → Option ((List String × String) × List Char)
  | 0, _ => none
  | fuel + 1, cs => do
    let (part, rest) ← keyPart? (skipBlanks cs)
    match skipBlanks rest with
    | '.' :: rest =>
      let ((path, key), rest) ← keyParts? fuel rest
      some ((part :: path, key), rest)
    | rest => some (([], part), rest)

def key? (cs : List Char) : Option ((List String × String) × List Char) :=
  keyParts? depthLimit cs

end Arbor.Toml
