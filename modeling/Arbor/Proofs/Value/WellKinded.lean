import Arbor.Environment
import Arbor.Value.Embedded
import Arbor.Value.Operator

/-!
This module contains the values whose arrays record the kind of their elements truthfully at every level, and
the environments that bind only such values, each of the declared kind.
-/

namespace Arbor

def Literal.scalar : Literal → Scalar
  | int _ => .int
  | float _ => .float
  | bool _ => .bool
  | char _ => .char
  | string _ => .string

namespace Value

/--
Every element of an array in the value, at any depth, has the kind that the array records.
-/
inductive WellKinded : Value → Prop where
  | int (n : Int32) : WellKinded (.int n)
  | float (x : Float) : WellKinded (.float x)
  | bool (b : Bool) : WellKinded (.bool b)
  | char (c : Char) : WellKinded (.char c)
  | text (s : String) : WellKinded (.text s)
  | array (elem : Kind) (items : List Value) :
    (∀ v ∈ items, v.kind = elem) → (∀ v ∈ items, WellKinded v) → WellKinded (.array elem items)
  | null : WellKinded .null
  | function (f : Callable) : WellKinded (.function f)

theorem WellKinded.kind_of_mem {elem : Kind} {items : List Value} (h : WellKinded (.array elem items))
    {v : Value} (hv : v ∈ items) : v.kind = elem := by
  cases h with
  | array _ _ hkind _ => exact hkind v hv

theorem WellKinded.of_mem {elem : Kind} {items : List Value} (h : WellKinded (.array elem items))
    {v : Value} (hv : v ∈ items) : v.WellKinded := by
  cases h with
  | array _ _ _ hitems => exact hitems v hv

theorem WellKinded.set {elem : Kind} {items : List Value} (h : WellKinded (.array elem items))
    {v : Value} (hkind : v.kind = elem) (hv : v.WellKinded) (i : Nat) :
    WellKinded (.array elem (items.set i v)) := by
  apply WellKinded.array
  · intro w hw
    rcases List.mem_or_eq_of_mem_set hw with hw | rfl
    · exact h.kind_of_mem hw
    · exact hkind
  · intro w hw
    rcases List.mem_or_eq_of_mem_set hw with hw | rfl
    · exact h.of_mem hw
    · exact hv

theorem wellKinded_of_kind {v : Value} {s : Scalar} (h : v.kind = .scalar s) : v.WellKinded := by
  cases v with
  | array elem items => simp [kind] at h
  | _ => constructor

/-! Conversion to a kind -/

theorem kind_of_coerce {v w : Value} {k : Kind} (h : v.coerce k = .ok w) : w.kind = k := by
  unfold coerce at h
  split at h
  all_goals first
    | (cases h; rfl)
    | (split at h <;> first | (cases h; simp_all [kind]) | cases h)
    | cases h

/--
A conversion does not touch the elements of an array: an array is converted only to the kind it has.
-/
theorem coerce_array {v w : Value} {elem : Kind} (h : v.coerce (.array elem) = .ok w) : w = v := by
  unfold coerce at h
  split at h
  all_goals first
    | (split at h <;> first | (cases h; rfl) | cases h)
    | cases h
  all_goals simp_all

theorem WellKinded.coerce {v w : Value} {k : Kind} (hv : v.WellKinded) (h : v.coerce k = .ok w) :
    w.WellKinded := by
  have hkind := kind_of_coerce h
  cases k with
  | scalar s => exact wellKinded_of_kind hkind
  | array elem => exact coerce_array h ▸ hv
  | null | function => simp [Value.coerce] at h

/-! Zero values -/

theorem kind_zeroScalar (s : Scalar) : (zeroScalar s).kind = .scalar s := by
  cases s <;> rfl

theorem kind_zero {k : Kind} {s : Scalar} (h : k.innermost = .scalar s) : (zero k).kind = k := by
  cases k with
  | scalar s => exact kind_zeroScalar s
  | array elem => rfl
  | null | function => simp [Kind.innermost] at h

theorem wellKinded_zero (k : Kind) : (zero k).WellKinded := by
  cases k with
  | scalar s => exact wellKinded_of_kind (kind_zeroScalar s)
  | array elem => exact .array _ _ (by simp) (by simp)
  | null | function => exact .null

/-! Operators -/

theorem kind_binary {op : BinaryOp} {v w u : Value} (h : v.binary op w = .ok u) : ∃ s, u.kind = .scalar s := by
  unfold binary at h
  dsimp only at h
  split at h
  all_goals
    repeat' split at h
    all_goals first
      | (cases h; exact ⟨_, rfl⟩)
      | cases h
      | (rename_i a b _ _
         cases harith : arith _ a b with
         | error e => rw [harith] at h; cases h
         | ok n => rw [harith] at h; cases h; cases n <;> exact ⟨_, rfl⟩)

theorem wellKinded_binary {op : BinaryOp} {v w u : Value} (h : v.binary op w = .ok u) : u.WellKinded := by
  obtain ⟨s, hs⟩ := kind_binary h
  exact wellKinded_of_kind hs

theorem kind_unary {op : UnaryOp} {v u : Value} (h : v.unary op = .ok u) : ∃ s, u.kind = .scalar s := by
  unfold unary at h
  split at h <;> cases h <;> exact ⟨_, rfl⟩

theorem wellKinded_unary {op : UnaryOp} {v u : Value} (h : v.unary op = .ok u) : u.WellKinded := by
  obtain ⟨s, hs⟩ := kind_unary h
  exact wellKinded_of_kind hs

theorem kind_step {op : StepOp} {v u : Value} (h : v.step op = .ok u) : u.kind = v.kind := by
  unfold step at h
  split at h <;> cases h <;> rfl

theorem wellKinded_step {op : StepOp} {v u : Value} (h : v.step op = .ok u) : u.WellKinded := by
  unfold step at h
  split at h <;> cases h <;> constructor

theorem kind_ofLiteral {l : Literal} {v : Value} (h : ofLiteral l = .ok v) :
    v.kind = .scalar l.scalar := by
  cases l with
  | int n =>
    simp only [ofLiteral] at h
    split at h <;> cases h
    rfl
  | _ => cases h; rfl

end Value

namespace Embedded

open Value

def result : Embedded → Scalar
  | parseInt => .int
  | parseFloat => .float
  | toText | toLowerCase | toUpperCase | typeOf => .string

theorem kind_readInt {s : String} {v : Value} (h : readInt s = .ok v) : v.kind = .scalar .int := by
  simp only [readInt] at h
  split at h
  · cases h
    rfl
  · split at h
    · cases h
    · split at h <;> cases h
      rfl

theorem kind_readFloat {s : String} {v : Value} (h : readFloat s = .ok v) :
    v.kind = .scalar .float := by
  simp only [readFloat] at h
  split at h <;> cases h
  rfl

theorem kind_displayed {args : List Value} {v : Value} (h : displayed args = .ok v) :
    v.kind = .scalar .string := by
  simp only [displayed] at h
  split at h <;> cases h <;> rfl

theorem kind_kindName (args : List Value) : (kindName args).kind = .scalar .string := by
  cases args <;> rfl

theorem kind_apply {f : Embedded} {args : List Value} {v : Value} (h : f.apply args = .ok v) :
    v.kind = .scalar f.result := by
  cases f with
  | toText => exact kind_displayed h
  | typeOf =>
    cases h
    exact kind_kindName args
  | parseInt =>
    simp only [apply] at h
    cases hs : textArg args with
    | error e => simp [hs, Except.bind] at h
    | ok s =>
      simp only [hs, Except.bind] at h
      exact kind_readInt h
  | parseFloat =>
    simp only [apply] at h
    cases hs : textArg args with
    | error e => simp [hs, Except.bind] at h
    | ok s =>
      simp only [hs, Except.bind] at h
      exact kind_readFloat h
  | toLowerCase | toUpperCase =>
    simp only [apply] at h
    cases hs : textArg args with
    | error e => simp [hs, Except.map] at h
    | ok s =>
      simp only [hs, Except.map, Except.ok.injEq] at h
      rw [← h]
      rfl

end Embedded

end Arbor
