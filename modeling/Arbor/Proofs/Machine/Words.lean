import Arbor.Proofs.Agreement.Names
import Arbor.Proofs.Agreement.Operators
import Arbor.Proofs.Machine.Listing
import Arbor.Proofs.Machine.Memory

/-!
This module contains the programs whose values are words, ints and bools, and what the code of their operators does
with the words.
-/

namespace Arbor

/--
An expression on ints and bools that reads variables, assigns to them and steps them.
-/
def Expr.onWords : Expr → Bool
  | .literal _ (.int _) | .literal _ (.bool _) | .var .. | .step .. => true
  | .unary _ _ e | .grouping _ e | .assign _ _ .set e => e.onWords
  | .binary _ _ l r => l.onWords && r.onWords
  | .ternary _ c t f => c.onWords && t.onWords && f.onWords
  | _ => false

namespace Stmt

def isInitial : Stmt → Bool
  | .varDecl .. | .expr .. => true
  | _ => false

/--
A statement on ints and bools, besides the statements inside it. It declares no name of an embedded function. The
cases of a switch have literals of the kind of its subject, or the switch is not lowered.
-/
def onWords : Stmt → Bool
  | .varDecl _ ty name init =>
    (ty == .int || ty == .bool || ty == .var) && (Embedded.ofName? name).isNone && init.all Expr.onWords
  | .expr _ e => e.onWords
  | .print _ args => args.all Expr.onWords
  | .conditional _ c _ _ | .whileLoop _ c _ => c.onWords
  | .forLoop _ init c update _ => init.all isInitial && c.all Expr.onWords && update.all Expr.onWords
  | .switch _ subject _ _ => subject.onWords
  | .block .. | .breakStmt _ | .continueStmt _ => true
  | _ => false

end Stmt

namespace Machine

open Assembly Lowering

def wordOf : Value → Word
  | .int n => n.toBitVec
  | .bool b => .ofInt 32 (boolWord b)
  | .char c => .ofInt 32 (charCode c)
  | _ => 0

inductive HasWord : SlotKind → Value → Prop where
  | int (n : Int32) : HasWord .int (.int n)
  | bool (b : Bool) : HasWord .bool (.bool b)

namespace HasWord

variable {kind : SlotKind} {v : Value}

theorem kind_eq (h : HasWord kind v) : v.kind = kind.kind := by
  cases h <;> rfl

theorem isLiteral (h : HasWord kind v) : v.isLiteral = true := by
  cases h <;> rfl

theorem int_or_bool (h : HasWord kind v) : kind = .int ∨ kind = .bool := by
  cases h with
  | int n => exact .inl rfl
  | bool b => exact .inr rfl

theorem ne_char (h : HasWord kind v) : kind ≠ .char := by
  cases h <;> nofun

theorem exists_int (h : HasWord .int v) : ∃ n, v = .int n := by
  cases h with
  | int n => exact ⟨n, rfl⟩

theorem exists_bool (h : HasWord .bool v) : ∃ b, v = .bool b := by
  cases h with
  | bool b => exact ⟨b, rfl⟩

end HasWord

theorem wordOf_bool (b : Bool) : wordOf (.bool b) = if b then 1 else 0 := by
  cases b <;> rfl

theorem wordOf_not (b : Bool) : wordOf (.bool b) ^^^ 1#32 = wordOf (.bool !b) := by
  cases b <;> rfl

@[simp]
theorem wordOf_bool_eq_zero {b : Bool} : wordOf (.bool b) = 0 ↔ b = false := by
  cases b <;> decide

theorem HasWord.newline_notMem {kind : SlotKind} {v : Value} (h : HasWord kind v) :
    newline ∉ bytes v.display := by
  cases h with
  | int n => exact newline_notMem_toString _
  | bool b => cases b <;> decide

/-! Operators -/

section Operators

variable {L : Layout} {core : Core} {op : BinaryOp} {kind : SlotKind} {u v w : Value}

theorem runLines_intOperation {a b : Int32} (hop : op.cls = .arithmetic)
    (hu : Value.binary op (.int a) (.int b) = .ok u) (h₀ : core.get .t0 = a.toBitVec)
    (h₁ : core.get .t1 = b.toBitVec) :
    HasWord .int u ∧ runLines L core (intOperation op) = some (core.set .t0 (wordOf u)) := by
  rw [Agreement.binary_of_numbers hop rfl rfl] at hu
  cases op with
  | add | sub | mul =>
    cases hu
    refine ⟨.int _, ?_⟩
    simp [intOperation, runLine, effect, registerOp, h₀, h₁, wordOf, Value.Number.toValue]
  | div | mod =>
    simp only [Value.arith, Value.intArith] at hu
    split at hu
    · cases hu
    · next hb =>
      cases hu
      have hb : ¬b.toBitVec = 0#32 := fun hzero => hb (Int32.toBitVec_inj.mp hzero)
      refine ⟨.int _, ?_⟩
      simp [intOperation, runLine, effect, registerOp, h₀, h₁, wordOf, Value.Number.toValue, hb]
  | _ => cases hop

theorem error_of_division {a b : Int32} {e : EvalErrorKind} (hop : op.cls = .arithmetic)
    (he : Value.binary op (.int a) (.int b) = .error e) :
    isDivision op = true ∧ b = 0 ∧ e = .divisionByZero := by
  rw [Agreement.binary_of_numbers hop rfl rfl] at he
  cases op with
  | add | sub | mul => cases he
  | div | mod =>
    simp only [Value.arith, Value.intArith] at he
    split at he
    · next hb =>
      cases he
      exact ⟨rfl, hb, rfl⟩
    · cases he
  | _ => cases hop

theorem not_division_of_ok {a b : Int32} (hop : op.cls = .arithmetic)
    (hu : Value.binary op (.int a) (.int b) = .ok u) : ¬(isDivision op = true ∧ b = 0) := by
  rintro ⟨hdivision, rfl⟩
  rw [Agreement.binary_of_numbers hop rfl rfl] at hu
  cases op with
  | div | mod => cases hu
  | _ => cases hdivision

theorem binary_eq (hv : HasWord kind v) (hw : HasWord kind w) :
    Value.binary .eq v w = .ok (.bool (wordOf v == wordOf w)) := by
  cases hv with
  | int a =>
    cases hw with
    | int b =>
      have hdecide : (a == b) = (a.toBitVec == b.toBitVec) := by
        rw [Bool.eq_iff_iff, beq_iff_eq, beq_iff_eq, Int32.toBitVec_inj]
      simp only [Value.binary, Value.looseEq?, wordOf, hdecide]
  | bool a =>
    cases hw with
    | bool b => cases a <;> cases b <;> rfl

theorem binary_ne (hv : HasWord kind v) (hw : HasWord kind w) :
    Value.binary .ne v w = .ok (.bool !(wordOf v == wordOf w)) := by
  have heq := binary_eq hv hw
  unfold Value.binary at heq ⊢
  dsimp only at heq ⊢
  split at heq
  · cases heq
    rfl
  · cases heq

theorem binary_relational {a b : Int32} (hop : op.cls = .relational) :
    Value.binary op (.int a) (.int b) = .ok (.bool (Value.intCompare op a b)) := by
  cases op with
  | lt | gt | le | ge => rfl
  | _ => cases hop

theorem int_of_relational (hop : comparesWords op kind = true) (hcls : op.cls = .relational)
    (hv : HasWord kind v) : kind = .int := by
  rcases hv.int_or_bool with rfl | rfl
  · rfl
  · cases op with
    | lt | gt | le | ge => simp [comparesWords] at hop
    | _ => cases hcls

def wordCompare (op : BinaryOp) (a b : Word) : Bool :=
  match op with
  | .lt => a.slt b
  | .gt => b.slt a
  | .le => !b.slt a
  | .ge => !a.slt b
  | .eq => a == b
  | _ => !(a == b)

theorem runLines_wordCompare {a b : Word} (hcls : op.cls = .relational ∨ op.cls = .equality)
    (h₀ : core.get .t0 = a) (h₁ : core.get .t1 = b) :
    runLines L core (intComparison op) = some (core.set .t0 (wordOf (.bool (wordCompare op a b)))) := by
  -- The machine compares with `slt` only, in one order or the other, and negates the result.
  have hslt (a b : Word) : registerOp .slt a b = wordOf (.bool (a.slt b)) := (wordOf_bool _).symm
  cases op with
  | lt | gt => simp [intComparison, runLine, effect, hslt, h₀, h₁, wordCompare]
  | le | ge => simp [intComparison, runLine, effect, immediateOp, hslt, wordOf_not, h₀, h₁, Core.get_set, wordCompare]
  | eq | ne => simp [intComparison, runLine, effect, registerOp, moveOp, h₀, h₁, Core.get_set, wordOf_bool, wordCompare]
  | _ => rcases hcls with hcls | hcls <;> cases hcls

theorem binary_words (hop : comparesWords op kind = true) (hv : HasWord kind v) (hw : HasWord kind w) :
    Value.binary op v w = .ok (.bool (wordCompare op (wordOf v) (wordOf w))) := by
  rcases Agreement.cls_of_comparesWords hop with hcls | hcls
  · obtain rfl := int_of_relational hop hcls hv
    obtain ⟨a, rfl⟩ := hv.exists_int
    obtain ⟨b, rfl⟩ := hw.exists_int
    rw [binary_relational hcls]
    cases op with
    | lt | gt => simp [wordOf, Value.intCompare, wordCompare, Int32.lt_iff_toBitVec_slt]
    | le | ge => simp [wordOf, Value.intCompare, wordCompare, Int32.le_iff_toBitVec_sle, BitVec.sle_eq_not_slt]
    | _ => cases hcls
  · cases op with
    | eq => exact binary_eq hv hw
    | ne => exact binary_ne hv hw
    | _ => cases hcls

/-! Operators on one word -/

theorem runLines_unary {op : UnaryOp} {c : List Line} (hv : HasWord kind v) (hc : UnaryCode op kind c) :
    ∃ c' u, c = pop .t0 ++ c' ++ push .t0 ∧ Value.unary op v = .ok u ∧ HasWord kind u ∧
      ∀ core : Core, core.get .t0 = wordOf v → runLines L core c' = some (core.set .t0 (wordOf u)) := by
  cases hc with
  | negInt =>
    obtain ⟨n, rfl⟩ := hv.exists_int
    refine ⟨_, _, rfl, rfl, .int _, fun core h₀ => ?_⟩
    simp [runLine, effect, moveOp, h₀, wordOf]
  | negFloat => cases hv
  | not =>
    obtain ⟨b, rfl⟩ := hv.exists_bool
    refine ⟨_, _, rfl, rfl, .bool _, fun core h₀ => ?_⟩
    simp [runLine, effect, immediateOp, h₀, wordOf_not]

theorem runLines_step {op : StepOp} {c : List Line} (hv : HasWord kind v) (h₀ : core.get .t0 = wordOf v)
    (hc : stepLines op kind = some c) :
    ∃ u, Value.step op v = .ok u ∧ HasWord kind u ∧ runLines L core c = some (core.set .t0 (wordOf u)) := by
  cases hv with
  | int n =>
    cases hc
    refine ⟨_, rfl, .int _, ?_⟩
    simp [runLine, effect, immediateOp, h₀, wordOf]
  | bool b => cases hc

end Operators

end Machine

end Arbor
