/-!
This module contains the values of TOML documents, and the rules for what may be added to a table. A table that was
written under its own header is complete as far as dotted keys go, one between braces cannot be extended at all, and
no key is defined twice.
-/

namespace Arbor.Toml

/--
How a table came about: under a header of its own, on the way to the table of another header, by dotted keys, or
between braces.
-/
inductive Origin where
  | header
  | implied
  | dotted
  | braces
  deriving Repr, DecidableEq

inductive Value where
  | string (s : String)
  | integer (n : Int)
  | float (x : Float)
  | bool (b : Bool)
  | datetime (text : String)
  | array (items : List Value)
  | table (origin : Origin) (fields : List (String × Value))
  | rows (tables : List Value)
  deriving Repr

structure Table where
  origin : Origin
  fields : List (String × Value)

namespace Table

def empty (origin : Origin) : Table :=
  ⟨origin, []⟩

def toValue (t : Table) : Value :=
  .table t.origin t.fields

def find? (t : Table) (key : String) : Option Value :=
  t.fields.lookup key

def set (t : Table) (key : String) (v : Value) : Table :=
  { t with
    fields :=
      if (t.find? key).isSome then
        t.fields.map fun (name, old) => (name, if name = key then v else old)
      else t.fields ++ [(key, v)] }

def changeLast (f : Table → Option Table) : List Value → Option (List Value)
  | [] => none
  | [.table origin fields] => (f ⟨origin, fields⟩).map fun t => [t.toValue]
  | [_] => none
  | row :: rest => (changeLast f rest).map (row :: ·)

/--
Change the table at the end of a path, where tables that do not exist yet are created. Dotted keys do not lead
into the table of a header; a header leads into any table but those between braces. A path through rows leads
into the last one.
-/
def changeAt (byDots : Bool) (f : Table → Option Table) : List String → Table → Option Table
  | [], t => f t
  | key :: path, t => do
    match t.find? key with
    | none =>
      let child ← changeAt byDots f path (empty (if byDots then .dotted else .implied))
      some (t.set key child.toValue)
    | some (.table .braces _) => none
    | some (.table origin fields) =>
      if byDots ∧ origin = .header then none
      let child ← changeAt byDots f path ⟨origin, fields⟩
      some (t.set key child.toValue)
    | some (.rows tables) =>
      let tables ← changeLast (changeAt byDots f path) tables
      some (t.set key (.rows tables))
    | some _ => none

/--
Add a field under a dotted key: a path, and the last part of the key. Only keys with dots extend tables that were
created by dots.
-/
def add (t : Table) (path : List String) (key : String) (v : Value) : Option Table :=
  t.changeAt true (fun t =>
    if (t.origin = .dotted) = path.isEmpty then none
    else if (t.find? key).isSome then none
    else some (t.set key v)) path

def openTable (t : Table) (path : List String) (key : String) : Option Table :=
  t.changeAt false (fun t =>
    match t.find? key with
    | none => some (t.set key (.table .header []))
    | some (.table .implied fields) => some (t.set key (.table .header fields))
    | some _ => none) path

def openRow (t : Table) (path : List String) (key : String) : Option Table :=
  t.changeAt false (fun t =>
    match t.find? key with
    | none => some (t.set key (.rows [.table .header []]))
    | some (.rows tables) => some (t.set key (.rows (tables ++ [.table .header []])))
    | some _ => none) path

end Table

end Arbor.Toml
