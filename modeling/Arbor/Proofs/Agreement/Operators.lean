import Arbor.Proofs.Lowering.Code
import Arbor.Proofs.Value.WellKinded

/-!
This module contains what operators, conversions and embedded functions yield for values of the kinds that they are
lowered for: a value of the kind that was found then, or an error that depends on more than the kinds.
-/

namespace Arbor

def Lowering.SlotKind.kind : Lowering.SlotKind → Kind
  | .scalar s => .scalar s
  | .array elem => .array (.scalar elem)

namespace Agreement

open Lowering

/--
The errors that are found only by running a program.
-/
inductive Dynamic : EvalErrorKind → Prop where
  | divisionByZero : Dynamic .divisionByZero
  | indexOutOfBounds (i : Int) (length : Nat) : Dynamic (.indexOutOfBounds i length)
  | invalidNumber (text : String) : Dynamic (.invalidNumber text)
  | arrayTooLarge (length : Int) (limit : Nat) : Dynamic (.arrayTooLarge length limit)
  | negativeSize {n : Int32} :
    n < 0 → Dynamic (.typeMismatch "a non-negative int size" (Value.int n).display)

/--
A computation yields a value of a kind, or fails with an error that is found only by running a program.
-/
inductive Computes (kind : Kind) : Except EvalErrorKind Value → Prop where
  | ok {v : Value} : v.kind = kind → Computes kind (.ok v)
  | error {e : EvalErrorKind} : Dynamic e → Computes kind (.error e)

section Kinds

variable {v : Value}

theorem exists_int (h : v.kind = .scalar .int) : ∃ n, v = .int n := by
  cases v with
  | int n => exact ⟨n, rfl⟩
  | _ => simp [Value.kind] at h

theorem exists_float (h : v.kind = .scalar .float) : ∃ x, v = .float x := by
  cases v with
  | float x => exact ⟨x, rfl⟩
  | _ => simp [Value.kind] at h

theorem exists_bool (h : v.kind = .scalar .bool) : ∃ b, v = .bool b := by
  cases v with
  | bool b => exact ⟨b, rfl⟩
  | _ => simp [Value.kind] at h

theorem exists_char (h : v.kind = .scalar .char) : ∃ c, v = .char c := by
  cases v with
  | char c => exact ⟨c, rfl⟩
  | _ => simp [Value.kind] at h

theorem exists_text (h : v.kind = .scalar .string) : ∃ s, v = .text s := by
  cases v with
  | text s => exact ⟨s, rfl⟩
  | _ => simp [Value.kind] at h

theorem exists_array {elem : Kind} (h : v.kind = .array elem) : ∃ items, v = .array elem items := by
  cases v with
  | array elem' items =>
    cases h
    exact ⟨items, rfl⟩
  | _ => simp [Value.kind] at h

theorem isLiteral_of_kind {kind : SlotKind} (h : v.kind = kind.kind) : v.isLiteral = true := by
  cases v with
  | function f => cases kind <;> simp [Value.kind, SlotKind.kind] at h
  | _ => rfl

theorem exists_asText {kind : SlotKind} (hkind : kind.isText = true) (h : v.kind = kind.kind) :
    ∃ s, v.asText? = some s := by
  unfold SlotKind.isText at hkind
  split at hkind
  · obtain ⟨s, rfl⟩ := exists_text h
    exact ⟨s, rfl⟩
  · obtain ⟨c, rfl⟩ := exists_char h
    exact ⟨_, rfl⟩
  · cases hkind

theorem exists_number {kind : SlotKind} (hkind : kind.isNumeric = true) (h : v.kind = kind.kind) :
    ∃ a, v.number? = some a := by
  unfold SlotKind.isNumeric at hkind
  split at hkind
  · obtain ⟨n, rfl⟩ := exists_int h
    exact ⟨_, rfl⟩
  · obtain ⟨x, rfl⟩ := exists_float h
    exact ⟨_, rfl⟩
  · cases hkind

end Kinds

/-! Operators with two operands -/

section Binary

variable {op : BinaryOp} {v w : Value} {left right kind : SlotKind}

theorem asText?_of_number? {a : Value.Number} (h : v.number? = some a) : v.asText? = none := by
  cases v with
  | int | float => rfl
  | _ => simp [Value.number?] at h

theorem binary_of_numbers {a b : Value.Number} (hop : op.cls = .arithmetic) (hv : v.number? = some a)
    (hw : w.number? = some b) : Value.binary op v w = (Value.arith op a b).map Value.Number.toValue := by
  cases op with
  | add => simp [Value.binary, asText?_of_number? hv, hv, hw]
  | sub | mul | div | mod => simp [Value.binary, hv, hw]
  | _ => cases hop

theorem computes_ints {a b : Int32} (hop : op.cls = .arithmetic) :
    Computes (.scalar .int) (Value.binary op (.int a) (.int b)) := by
  rw [binary_of_numbers hop rfl rfl]
  cases op with
  | add | sub | mul => exact .ok rfl
  | div | mod =>
    simp only [Value.arith, Value.intArith]
    by_cases hb : b = 0
    · rw [if_pos hb]
      exact .error .divisionByZero
    · rw [if_neg hb]
      exact .ok rfl
  | _ => cases hop

theorem arith_float {a b : Value.Number} (h : ∀ m n, ¬(a = .int m ∧ b = .int n)) :
    Value.arith op a b = .ok (.float (Value.floatArith op a.toFloat b.toFloat)) := by
  unfold Value.arith
  split
  · rename_i m n
    exact (h m n ⟨rfl, rfl⟩).elim
  · rfl

theorem not_ints {a b : Value.Number} (hints : ¬(left = .int ∧ right = .int))
    (hvkind : v.kind = left.kind) (hwkind : w.kind = right.kind) (hv : v.number? = some a)
    (hw : w.number? = some b) (m n : Int32) : ¬(a = .int m ∧ b = .int n) := by
  rintro ⟨rfl, rfl⟩
  have hleft : left = .int := by
    cases v with
    | int => cases left <;> simp_all [Value.kind, SlotKind.kind]
    | _ => simp [Value.number?] at hv
  have hright : right = .int := by
    cases w with
    | int => cases right <;> simp_all [Value.kind, SlotKind.kind]
    | _ => simp [Value.number?] at hw
  exact hints ⟨hleft, hright⟩

theorem computes_compared {a b : Value.Number} (hop : op.cls = .relational ∨ op.cls = .equality)
    (hv : v.number? = some a) (hw : w.number? = some b) :
    Computes (.scalar .bool) (Value.binary op v w) := by
  have hloose : ∃ r, v.looseEq? w = some r := by
    unfold Value.looseEq?
    split
    · exact ⟨_, rfl⟩
    · exact ⟨_, rfl⟩
    · exact ⟨_, rfl⟩
    · rw [hv, hw]
      exact ⟨_, rfl⟩
  obtain ⟨r, hr⟩ := hloose
  cases op with
  | lt | gt | le | ge =>
    simp only [Value.binary, hv, hw]
    split <;> exact .ok rfl
  | eq | ne =>
    simp only [Value.binary, hr]
    exact .ok rfl
  | _ => rcases hop with hop | hop <;> cases hop

theorem computes_texts {s t : String} (hop : op.cls = .equality) (hv : v.asText? = some s)
    (hw : w.asText? = some t) : Computes (.scalar .bool) (Value.binary op v w) := by
  have hloose : ∃ r, v.looseEq? w = some r := by
    cases v with
    | text | char =>
      cases w with
      | text | char => exact ⟨_, rfl⟩
      | _ => simp [Value.asText?] at hw
    | _ => simp [Value.asText?] at hv
  obtain ⟨r, hr⟩ := hloose
  cases op with
  | eq | ne =>
    simp only [Value.binary, hr]
    exact .ok rfl
  | _ => cases hop

theorem computes_chars {a b : Char} (hop : op.cls = .relational ∨ op.cls = .equality) :
    Computes (.scalar .bool) (Value.binary op (.char a) (.char b)) := by
  cases op with
  | lt | gt | le | ge | eq | ne => exact .ok rfl
  | _ => rcases hop with hop | hop <;> cases hop

theorem cls_of_comparesWords (h : comparesWords op kind = true) :
    op.cls = .relational ∨ op.cls = .equality := by
  cases op <;> simp_all [comparesWords, BinaryOp.cls]

theorem computes_words (h : comparesWords op kind = true) (hv : v.kind = kind.kind)
    (hw : w.kind = kind.kind) : Computes (.scalar .bool) (Value.binary op v w) := by
  have hop := cls_of_comparesWords h
  have hkind : kind = .int ∨ kind = .char ∨ (kind = .bool ∧ op.cls = .equality) := by
    cases op <;> simp_all [comparesWords, BinaryOp.cls]
  rcases hkind with rfl | rfl | ⟨rfl, hequality⟩
  · obtain ⟨m, rfl⟩ := exists_int hv
    obtain ⟨n, rfl⟩ := exists_int hw
    exact computes_compared hop rfl rfl
  · obtain ⟨a, rfl⟩ := exists_char hv
    obtain ⟨b, rfl⟩ := exists_char hw
    exact computes_chars hop
  · obtain ⟨a, rfl⟩ := exists_bool hv
    obtain ⟨b, rfl⟩ := exists_bool hw
    cases op with
    | eq | ne => exact .ok rfl
    | _ => cases hequality

theorem computes_binary {c : List Assembly.Line} (h : BinaryCode op left right kind c)
    (hv : v.kind = left.kind) (hw : w.kind = right.kind) :
    Computes kind.kind (Value.binary op v w) := by
  cases h with
  | concatenation hleft hright =>
    obtain ⟨s, hs⟩ := exists_asText hleft hv
    obtain ⟨t, ht⟩ := exists_asText hright hw
    simp only [Value.binary, hs, ht]
    exact .ok rfl
  | ints hop =>
    obtain ⟨m, rfl⟩ := exists_int hv
    obtain ⟨n, rfl⟩ := exists_int hw
    exact computes_ints hop
  | floats hop hleft hright hints =>
    obtain ⟨a, ha⟩ := exists_number hleft hv
    obtain ⟨b, hb⟩ := exists_number hright hw
    rw [binary_of_numbers hop ha hb, arith_float (not_ints hints hv hw ha hb)]
    exact .ok rfl
  | words hwords => exact computes_words hwords hv hw
  | comparedFloats hop hleft hright =>
    obtain ⟨a, ha⟩ := exists_number hleft hv
    obtain ⟨b, hb⟩ := exists_number hright hw
    exact computes_compared hop ha hb
  | texts hop hleft hright =>
    obtain ⟨s, hs⟩ := exists_asText hleft hv
    obtain ⟨t, ht⟩ := exists_asText hright hw
    exact computes_texts hop hs ht

end Binary

/-! Operators with one operand, steps and conversions -/

section Unary

variable {v : Value} {kind target : SlotKind} {c : List Assembly.Line}

theorem computes_unary {op : UnaryOp} (h : UnaryCode op kind c) (hv : v.kind = kind.kind) :
    Computes kind.kind (Value.unary op v) := by
  cases h with
  | negInt =>
    obtain ⟨n, rfl⟩ := exists_int hv
    exact .ok rfl
  | negFloat =>
    obtain ⟨x, rfl⟩ := exists_float hv
    exact .ok rfl
  | not =>
    obtain ⟨b, rfl⟩ := exists_bool hv
    exact .ok rfl

theorem computes_step {op : StepOp} (h : stepLines op kind = some c) (hv : v.kind = kind.kind) :
    Computes kind.kind (Value.step op v) := by
  unfold stepLines at h
  split at h
  · obtain ⟨n, rfl⟩ := exists_int hv
    exact .ok rfl
  · obtain ⟨x, rfl⟩ := exists_float hv
    exact .ok rfl
  · cases h

theorem coerce_of_kind (hv : v.kind = kind.kind) : v.coerce kind.kind = .ok v := by
  cases kind with
  | scalar s =>
    cases v with
    | array | null | function => simp [Value.kind, SlotKind.kind] at hv
    | _ =>
      cases hv
      rfl
  | array elem =>
    obtain ⟨items, rfl⟩ := exists_array hv
    simp [Value.coerce, SlotKind.kind]

theorem coerce_of_convertCode (h : ConvertCode kind target c) (hv : v.kind = kind.kind) :
    ∃ w, v.coerce target.kind = .ok w := by
  cases h with
  | same => exact ⟨v, coerce_of_kind hv⟩
  | widen =>
    obtain ⟨n, rfl⟩ := exists_int hv
    exact ⟨_, rfl⟩

theorem computes_literal {l : Literal} (h : LiteralCode l kind c) :
    ∃ v, Value.ofLiteral l = .ok v ∧ v.kind = kind.kind := by
  cases h with
  | int hword =>
    unfold intWord at hword
    split at hword
    · rename_i hrange
      exact ⟨_, by rw [Value.ofLiteral, if_pos hrange], rfl⟩
    · cases hword
  | float x => exact ⟨_, rfl, rfl⟩
  | bool b => exact ⟨_, rfl, rfl⟩
  | char c => exact ⟨_, rfl, rfl⟩
  | string raw => exact ⟨_, rfl, rfl⟩

end Unary

/-! Embedded functions -/

theorem computes_readInt (s : String) : Computes (.scalar .int) (Embedded.readInt s) := by
  simp only [Embedded.readInt]
  split
  · exact .ok rfl
  · split
    · exact .error (.invalidNumber _)
    · split
      · exact .error (.invalidNumber _)
      · exact .ok rfl

theorem computes_readFloat (s : String) : Computes (.scalar .float) (Embedded.readFloat s) := by
  simp only [Embedded.readFloat]
  split
  · exact .ok rfl
  · exact .error (.invalidNumber _)

theorem computes_apply {fn : Embedded} {kind result : SlotKind} {len len' : Option Nat}
    {c : List Assembly.Line} {v : Value} (h : EmbeddedCode fn kind len result len' c)
    (hv : v.kind = kind.kind) : Computes result.kind (fn.apply [v]) := by
  have hdisplayed : Computes (.scalar .string) (Embedded.displayed [v]) := by
    have hliteral := isLiteral_of_kind hv
    cases v with
    | function f => cases hliteral
    | _ => exact .ok rfl
  cases h with
  | typeOf => exact .ok rfl
  | spelled | text => exact hdisplayed
  | parseInt =>
    obtain ⟨s, rfl⟩ := exists_text hv
    simp only [Embedded.apply, Embedded.textArg, Except.bind]
    exact computes_readInt s
  | parseFloat =>
    obtain ⟨s, rfl⟩ := exists_text hv
    simp only [Embedded.apply, Embedded.textArg, Except.bind]
    exact computes_readFloat s
  | toLowerCase | toUpperCase =>
    obtain ⟨s, rfl⟩ := exists_text hv
    exact .ok rfl

end Agreement

end Arbor
