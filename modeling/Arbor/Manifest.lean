import Arbor.Config
import Arbor.Toml.Reader

/-!
This module contains the manifest of a project: its name, and the settings of the generator and of the evaluator.
Every setting has a default; sections and settings that are not known are ignored.
-/

namespace Arbor

structure Manifest where
  name : Option String
  generator : GeneratorConfig
  evaluator : EvaluatorConfig
  deriving Repr, DecidableEq

inductive ManifestError where
  | unreadable (reason : String)
  | invalid
  | zeroUnrollLimit
  | zeroCallDepth
  | zeroArrayLength
  deriving Repr, DecidableEq

namespace ManifestError

def message : ManifestError → String
  | unreadable reason => s!"failed to read Oak.toml: {reason}"
  | invalid => "invalid Oak.toml: TOML parse error"
  | zeroUnrollLimit => "invalid Oak.toml: [generator] unroll_limit must be at least 1"
  | zeroCallDepth => "invalid Oak.toml: [evaluator] max_call_depth must be at least 1"
  | zeroArrayLength => "invalid Oak.toml: [evaluator] max_array_length must be at least 1"

end ManifestError

namespace Manifest

def default : Manifest :=
  ⟨none, .default, .default⟩

/-! Settings -/

def settings? (names : List String) : Toml.Value → Option (List (Option Toml.Value))
  | .table _ fields => some (names.map fun name => fields.lookup name)
  | .array items => some ((List.range names.length).map fun i => items[i]?)
  | .rows tables => some ((List.range names.length).map fun i => tables[i]?)
  | .datetime _ => some (names.map fun _ => none)
  | _ => none

def setting? {α : Type} (absent : α) (read : Toml.Value → Option α) : Option Toml.Value → Option α
  | none => some absent
  | some v => read v

def text? : Toml.Value → Option (Option String)
  | .string s => some (some s)
  | _ => none

def bool? : Toml.Value → Option Bool
  | .bool b => some b
  | _ => none

def below? (bound : Nat) : Toml.Value → Option Nat
  | .integer n => if 0 ≤ n ∧ n < bound then some n.toNat else none
  | _ => none

/-! Sections -/

def project? (v : Toml.Value) : Option (Option String) :=
  match settings? ["name"] v with
  | some [name] => setting? none text? name
  | _ => none

def generator? (v : Toml.Value) : Option GeneratorConfig :=
  let d := GeneratorConfig.default
  match settings? ["comments", "unroll_limit"] v with
  | some [comments, unrollLimit] => do
    some ⟨← setting? d.comments bool? comments,
      ← setting? d.unrollLimit (below? (2 ^ 32)) unrollLimit⟩
  | _ => none

def evaluator? (v : Toml.Value) : Option EvaluatorConfig :=
  let d := EvaluatorConfig.default
  match settings? ["abort_on_error", "max_call_depth", "max_array_length"] v with
  | some [abortOnError, maxCallDepth, maxArrayLength] => do
    some ⟨← setting? d.abortOnError bool? abortOnError,
      ← setting? d.maxCallDepth (below? (2 ^ 64)) maxCallDepth,
      ← setting? d.maxArrayLength (below? (2 ^ 64)) maxArrayLength⟩
  | _ => none

def ofTable? (t : Toml.Table) : Option Manifest := do
  let name ← setting? none project? (t.find? "project")
  let generator ← setting? .default generator? (t.find? "generator")
  let evaluator ← setting? .default evaluator? (t.find? "evaluator")
  some ⟨name, generator, evaluator⟩

def check (m : Manifest) : Except ManifestError Manifest :=
  if m.generator.unrollLimit = 0 then .error .zeroUnrollLimit
  else if m.evaluator.maxCallDepth = 0 then .error .zeroCallDepth
  else if m.evaluator.maxArrayLength = 0 then .error .zeroArrayLength
  else .ok m

def read (text : String) : Except ManifestError Manifest :=
  match (Toml.read? text).bind ofTable? with
  | none => .error .invalid
  | some m => m.check

end Manifest

end Arbor
