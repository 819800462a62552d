/-!
This module contains the reading of command line arguments: options by their long or short names, and operands.
-/

namespace Arbor.CommandLine

structure OptionForm where
  name : String
  short : Option Char
  takesValue : Bool

structure CommandForm where
  options : List OptionForm
  operands : Nat
  allowsEmpty : Bool
  hasVersion : Bool

inductive Stop where
  | misuse
  | help
  | version
  deriving Repr, DecidableEq

structure Arguments where
  options : List (String × String)
  operands : List String
  deriving Repr, DecidableEq

namespace Arguments

def empty : Arguments := ⟨[], []⟩

def has (a : Arguments) (name : String) : Bool :=
  (a.options.lookup name).isSome

def value? (a : Arguments) (name : String) : Option String :=
  a.options.lookup name

def addOption (a : Arguments) (name value : String) : Except Stop Arguments :=
  if a.has name then .error .misuse else .ok { a with options := a.options ++ [(name, value)] }

def addValue (a : Arguments) (name value : String) : Except Stop Arguments :=
  if value = "" then .error .misuse else a.addOption name value

def addOperand (form : CommandForm) (a : Arguments) (operand : String) : Except Stop Arguments :=
  if form.operands ≤ a.operands.length ∨ (operand = "" ∧ !form.allowsEmpty) then .error .misuse
  else .ok { a with operands := a.operands ++ [operand] }

end Arguments

structure Progress where
  arguments : Arguments
  pending : Option String

inductive Argument where
  | operand
  | endOfOptions
  | long (cs : List Char)
  | short (cs : List Char)

def Argument.ofString (s : String) : Argument :=
  match s.toList with
  | ['-'] => .operand
  | ['-', '-'] => .endOfOptions
  | '-' :: '-' :: cs => .long cs
  | '-' :: cs => .short cs
  | _ => .operand

namespace CommandForm

def long (form : CommandForm) (a : Arguments) (cs : List Char) : Except Stop Progress :=
  let name := String.ofList (cs.takeWhile (· != '='))
  let value := cs.dropWhile (· != '=')
  match form.options.find? fun o => o.name == name with
  | some o =>
    match o.takesValue, value with
    | true, [] => .ok ⟨a, some name⟩
    | true, _ :: value => do return ⟨← a.addValue name (String.ofList value), none⟩
    | false, [] => do return ⟨← a.addOption name "", none⟩
    | false, _ :: _ => .error .misuse
  | none =>
    if cs = "help".toList then .error .help
    else if cs = "version".toList ∧ form.hasVersion then .error .version
    else .error .misuse

def short (form : CommandForm) (a : Arguments) : List Char → Except Stop Progress
  | [] => .ok ⟨a, none⟩
  | c :: cs =>
    match form.options.find? fun o => o.short == some c with
    | some o =>
      match o.takesValue, cs with
      | true, [] => .ok ⟨a, some o.name⟩
      | true, '=' :: value => do return ⟨← a.addValue o.name (String.ofList value), none⟩
      | true, value => do return ⟨← a.addValue o.name (String.ofList value), none⟩
      | false, cs => do form.short (← a.addOption o.name "") cs
    | none =>
      if c = 'h' then .error .help
      else if c = 'V' ∧ form.hasVersion then .error .version
      else .error .misuse

/--
Read arguments one by one, after those that were read before. The first one that makes no sense, or asks for the help
or the version, decides.
-/
def readFrom (form : CommandForm) : Progress → List String → Except Stop Arguments
  | ⟨a, none⟩, [] => .ok a
  | ⟨_, some _⟩, [] => .error .misuse
  | ⟨a, none⟩, s :: rest =>
    match Argument.ofString s with
    | .operand => do form.readFrom ⟨← a.addOperand form s, none⟩ rest
    | .endOfOptions => rest.foldlM (Arguments.addOperand form) a
    | .long cs => do form.readFrom (← form.long a cs) rest
    | .short cs => do form.readFrom (← form.short a cs) rest
  | ⟨a, some name⟩, s :: rest =>
    match Argument.ofString s with
    | .operand => do form.readFrom ⟨← a.addValue name s, none⟩ rest
    | _ => .error .misuse

def read (form : CommandForm) (arguments : List String) : Except Stop Arguments :=
  form.readFrom ⟨.empty, none⟩ arguments

end CommandForm

end Arbor.CommandLine
