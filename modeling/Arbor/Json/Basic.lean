import Arbor.Power

/-!
This module contains JSON values and the ways a reader looks into one: the fields of a record, the payload
of a tagged variant, and the scalars with their ranges.

Looking inside comes with a proof that the part is smaller than the whole, so that functions which take a
value apart by these look-ups end.
-/

namespace Arbor

inductive Json.Number where
  | integer (n : Int)
  | real (x : Float)
  deriving Repr

/--
A JSON value. An object keeps its fields in order, repeated names included. A part of a text that is well
formed but means nothing, such as a number beyond all floats, is unusable; it may stand where nobody looks.
-/
inductive Json where
  | null
  | bool (b : Bool)
  | number (n : Json.Number)
  | string (s : String)
  | array (items : List Json)
  | object (fields : List (String × Json))
  | unusable
  deriving Repr, Inhabited

namespace Json

abbrev Part (whole : Json) : Type :=
  { part : Json // sizeOf part < sizeOf whole }

theorem sizeOf_lt_of_mem_array {items : List Json} {j : Json} (h : j ∈ items) :
    sizeOf j < sizeOf (array items) := by
  have := List.sizeOf_lt_of_mem h
  simp only [array.sizeOf_spec]
  omega

theorem sizeOf_lt_of_mem_object {fields : List (String × Json)} {name : String} {j : Json}
    (h : (name, j) ∈ fields) : sizeOf j < sizeOf (object fields) := by
  have := List.sizeOf_lt_of_mem h
  simp only [object.sizeOf_spec, Prod.mk.sizeOf_spec] at this ⊢
  omega

def items? : (j : Json) → Option (List (Part j))
  | .array items => some (items.attach.map fun ⟨x, h⟩ => ⟨x, sizeOf_lt_of_mem_array h⟩)
  | _ => none

def findField (name : String) :
    (fields : List (String × Json)) → Option { j : Json // (name, j) ∈ fields }
  | [] => none
  | (key, j) :: rest =>
    if h : key = name then some ⟨j, by simp [h]⟩
    else (findField name rest).map fun ⟨j, mem⟩ => ⟨j, List.mem_cons_of_mem _ mem⟩

def fields? (names : List String) : (j : Json) → Option (List (Option (Part j)))
  | .object fields =>
    if names.any fun name => 1 < fields.countP fun field => field.1 == name then none
    else some (names.map fun name =>
      (findField name fields).map fun ⟨j, mem⟩ => ⟨j, sizeOf_lt_of_mem_object mem⟩)
  | _ => none

/--
The fields of a record: those of an object, or the elements of an array that has no more than there are
names, by position.
-/
def record? (names : List String) (j : Json) : Option (List (Option (Part j))) :=
  match j.items? with
  | some parts =>
    if parts.length ≤ names.length then
      some (parts.map some ++ List.replicate (names.length - parts.length) none)
    else none
  | none => j.fields? names

/--
The parts of a variant under the given names. They may be listed by position only where the flag says so.
-/
def parts? (listed : Bool) (names : List String) (j : Json) : Option (List (Option (Part j))) :=
  if listed then j.record? names else j.fields? names

def tagged? : (j : Json) → Option (String × Part j)
  | .object [(tag, payload)] =>
    some (tag, ⟨payload, sizeOf_lt_of_mem_object (List.mem_singleton_self (tag, payload))⟩)
  | _ => none

def unitTag? : Json → Option String
  | .string tag => some tag
  | .object [(tag, .null)] => some tag
  | _ => none

def isNull : Json → Bool
  | .null => true
  | _ => false

def string? : Json → Option String
  | .string s => some s
  | _ => none

def bool? : Json → Option Bool
  | .bool b => some b
  | _ => none

def char? : Json → Option Char
  | .string s => match s.toList with
    | [c] => some c
    | _ => none
  | _ => none

def int? : Json → Option Int
  | .number (.integer n) => some n
  | _ => none

def int64? (j : Json) : Option Int64 :=
  j.int?.bind fun n => if -2 ^ 63 ≤ n ∧ n < 2 ^ 63 then some (Int64.ofInt n) else none

def uint32? (j : Json) : Option UInt32 :=
  j.int?.bind fun n => if 0 ≤ n ∧ n < 2 ^ 32 then some (UInt32.ofNat n.toNat) else none

def float? : Json → Option Float
  | .number (.integer n) => some (Float.ofInt n)
  | .number (.real x) => some x
  | _ => none

end Json

end Arbor
