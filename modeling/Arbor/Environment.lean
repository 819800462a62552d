import Arbor.Value.Basic

/-!
This module contains the environment of an evaluation: nested scopes that bind names to kinds and values.

Scopes live in an arena and refer to their parent by number. A scope is taken back when it is left, unless
a function was declared in it or below it: capturing a scope pins it and every scope before it, so that the
function still finds its names.
-/

namespace Arbor

structure Binding where
  kind : Kind
  value : Value

/--
The names of one scope, newest first, and the scope around it.
-/
structure Scope where
  bindings : List (String × Binding)
  parent : Option Nat

/--
The arena of scopes. Scope `0` is the global one; scopes below `pinned` are never taken back.
-/
structure Environment where
  scopes : Array Scope
  current : Nat
  pinned : Nat

namespace Scope

def find? (s : Scope) (name : String) : Option Binding :=
  s.bindings.lookup name

def declares (s : Scope) (name : String) : Bool :=
  (s.find? name).isSome

def setValue (s : Scope) (name : String) (v : Value) : Scope :=
  { s with bindings := s.bindings.map fun (key, b) =>
      if key == name then (key, { b with value := v }) else (key, b) }

end Scope

namespace Environment

def empty : Environment :=
  ⟨#[⟨[], none⟩], 0, 1⟩

/--
A scope of the arena; a number without a scope stands for an empty one.
-/
def scope (env : Environment) (id : Nat) : Scope :=
  env.scopes.getD id ⟨[], none⟩

/--
The scopes from the given one outward. A parent lies below its child in the arena, so the walk ends.
-/
def chain (env : Environment) (id : Nat) : List Nat :=
  id :: match (env.scope id).parent with
    | none => []
    | some parent => if parent < id then env.chain parent else []
termination_by id

/--
How many scopes lie between the current one and its outermost.
-/
def depth (env : Environment) : Nat :=
  (env.chain env.current).length - 1

def enter (env : Environment) (parent : Nat) : Environment :=
  { env with scopes := env.scopes.push ⟨[], some parent⟩, current := env.scopes.size }

/--
Go from the current scope to the given one, and take the current one back if it is the last of the arena
and not pinned.
-/
def leave (env : Environment) (target : Nat) : Environment :=
  if env.pinned ≤ env.current ∧ env.current + 1 = env.scopes.size then
    { env with scopes := env.scopes.pop, current := target }
  else { env with current := target }

def push (env : Environment) : Environment :=
  env.enter env.current

def pop (env : Environment) : Environment :=
  match (env.scope env.current).parent with
  | none => env
  | some parent => env.leave parent

/--
Pin the current scope and every one before it, and return its number.
-/
def capture (env : Environment) : Nat × Environment :=
  (env.current, { env with pinned := max env.pinned (env.current + 1) })

def declare (env : Environment) (name : String) (kind : Kind) (v : Value) :
    Except EvalErrorKind Environment :=
  if (env.scope env.current).declares name then .error (.alreadyDeclared name)
  else .ok { env with scopes := env.scopes.modify env.current fun s =>
      { s with bindings := (name, ⟨kind, v⟩) :: s.bindings } }

def resolve (env : Environment) (name : String) : Except EvalErrorKind Nat :=
  match (env.chain env.current).find? fun id => (env.scope id).declares name with
  | some id => .ok id
  | none => .error (.undeclared name)

def get (env : Environment) (name : String) : Except EvalErrorKind Binding :=
  match (env.chain env.current).findSome? fun id => (env.scope id).find? name with
  | some b => .ok b
  | none => .error (.undeclared name)

/--
Give the innermost binding of a name another value, whatever its declared kind.
-/
def set (env : Environment) (name : String) (v : Value) : Except EvalErrorKind Environment :=
  (env.resolve name).map fun id =>
    { env with scopes := env.scopes.modify id (·.setValue name v) }

def globals (env : Environment) : List (String × Binding) :=
  (env.scope 0).bindings.mergeSort fun a b => a.1 ≤ b.1

end Environment

end Arbor
