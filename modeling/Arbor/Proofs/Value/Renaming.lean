import Arbor.Evaluation.Evaluator
import Arbor.Proofs.Value.WellKinded

/-!
This module contains values under another numbering of the scopes. Only functions hold a scope, and no array holds a
function, so that all values but functions stay as they are, and so does what is computed from them.
-/

namespace Arbor

namespace Value

inductive IsData : Value → Prop where
  | int (n : Int32) : IsData (.int n)
  | float (x : Float) : IsData (.float x)
  | bool (b : Bool) : IsData (.bool b)
  | char (c : Char) : IsData (.char c)
  | text (s : String) : IsData (.text s)
  | array (elem : Kind) (items : List Value) : (∀ v ∈ items, IsData v) → IsData (.array elem items)
  | null : IsData .null

/--
A value stands for another one in which every scope has the number that `owner` gives it. The scopes of functions are
below a bound.
-/
inductive Renamed (owner : Nat → Nat) (bound : Nat) : Value → Value → Prop where
  | data {v : Value} : v.IsData → Renamed owner bound v v
  | embedded (f : Embedded) : Renamed owner bound (.function (.embedded f)) (.function (.embedded f))
  | closure (f : Closure) : f.scope < bound →
    Renamed owner bound (.function (.closure f)) (.function (.closure { f with scope := owner f.scope }))

section Data

variable {v w : Value} {elem k : Kind} {items : List Value}

theorem IsData.of_mem (h : IsData (.array elem items)) (hv : v ∈ items) : v.IsData := by
  cases h with
  | array _ _ hitems => exact hitems v hv

theorem IsData.set (h : IsData (.array elem items)) (hv : v.IsData) (i : Nat) :
    IsData (.array elem (items.set i v)) := by
  apply IsData.array
  intro w hw
  rcases List.mem_or_eq_of_mem_set hw with hw | rfl
  · exact h.of_mem hw
  · exact hv

theorem isData_of_kind {s : Scalar} (h : v.kind = .scalar s) : v.IsData := by
  cases v with
  | array elem items => simp [kind] at h
  | function f => simp [kind] at h
  | _ => constructor

theorem isData_zero (k : Kind) : (zero k).IsData := by
  cases k with
  | scalar s => exact isData_of_kind (kind_zeroScalar s)
  | array elem => exact .array _ _ (by simp)
  | null | function => exact .null

theorem isData_ofLiteral {l : Literal} (h : ofLiteral l = .ok v) : v.IsData :=
  isData_of_kind (kind_ofLiteral h)

theorem isData_of_coerce (hv : v.IsData) (h : v.coerce k = .ok w) : w.IsData := by
  cases k with
  | scalar s => exact isData_of_kind (kind_of_coerce h)
  | array elem => exact coerce_array h ▸ hv
  | null | function => simp [Value.coerce] at h

theorem isData_binary {op : BinaryOp} {u : Value} (h : v.binary op w = .ok u) : u.IsData := by
  obtain ⟨s, hs⟩ := kind_binary h
  exact isData_of_kind hs

theorem isData_unary {op : UnaryOp} (h : v.unary op = .ok w) : w.IsData := by
  obtain ⟨s, hs⟩ := kind_unary h
  exact isData_of_kind hs

theorem isData_step {op : StepOp} (h : v.step op = .ok w) : w.IsData := by
  unfold step at h
  split at h <;> cases h <;> constructor

end Data

namespace Renamed

variable {owner owner' : Nat → Nat} {bound bound' : Nat} {v v' w w' : Value}

theorem mono (h : Renamed owner bound v v') (howner : ∀ id < bound, owner' id = owner id) (hbound : bound ≤ bound') :
    Renamed owner' bound' v v' := by
  cases h with
  | data hv => exact .data hv
  | embedded f => exact .embedded f
  | closure f hf =>
    rw [← howner _ hf]
    exact .closure f (Nat.lt_of_lt_of_le hf hbound)

theorem display_eq (h : Renamed owner bound v v') : v'.display = v.display := by
  cases h <;> rfl

theorem scope_lt {f : Closure} (h : Renamed owner bound (.function (.closure f)) w) : f.scope < bound := by
  cases h with
  | data hv => cases hv
  | closure _ hf => exact hf

theorem coerce_eq (h : Renamed owner bound v v') (k : Kind) : v'.coerce k = v.coerce k := by
  cases h with
  | data hv => rfl
  | embedded f => rfl
  | closure f hf =>
    unfold coerce
    cases k with
    | scalar s => cases s <;> rfl
    | _ => rfl

theorem isData_of_coerce (h : Renamed owner bound v v') {k : Kind} (hw : v.coerce k = .ok w) : w.IsData := by
  cases h with
  | data hv => exact Value.isData_of_coerce hv hw
  | embedded f | closure f =>
    cases k with
    | scalar s => exact isData_of_kind (kind_of_coerce hw)
    | _ => simp [Value.coerce] at hw

theorem binary_eq (h : Renamed owner bound v v') (w : Value) (op : BinaryOp) : v'.binary op w = v.binary op w := by
  cases h with
  | data hv => rfl
  | embedded f => rfl
  | closure f hf => cases op <;> cases w <;> rfl

theorem step_eq (h : Renamed owner bound v v') (op : StepOp) : v'.step op = v.step op := by
  cases h <;> rfl

end Renamed

end Value

end Arbor
