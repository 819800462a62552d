import Arbor.Proofs.Machine.Words

/-!
This module contains the expressions whose values are ints, bools and chars, each of which takes up one word, and the
comparisons of the words of such values.
-/

namespace Arbor

open Lowering (ExprCode Frame SlotKind singleChar?)

namespace Expr

variable {f : Frame}

def isChar (f : Frame) : Expr → Bool
  | .literal _ (.char _) => true
  | .var _ name | .assign _ name _ _ => (f.resolve? name).any fun found => found.2.kind == .char
  | .grouping _ e | .ternary _ _ e _ => e.isChar f
  | _ => false

/--
An expression on ints, bools and chars that reads variables, assigns to them and steps them. There is no `+` on chars,
which is a concatenation.
-/
def onCells (f : Frame) : Expr → Bool
  | .literal _ (.int _) | .literal _ (.bool _) | .literal _ (.char _) | .var .. | .step .. => true
  | .unary _ _ e | .grouping _ e | .assign _ _ .set e => e.onCells f
  | .binary _ op l r => !(op == .add && l.isChar f) && l.onCells f && r.onCells f
  | .ternary _ c t e => c.onCells f && t.onCells f && e.onCells f
  | _ => false

def height : Expr → Nat
  | .binary _ op l r => if op.cls = .logical then max l.height r.height else max l.height (r.height + 1)
  | .unary _ _ e | .grouping _ e | .assign _ _ _ e => e.height
  | .ternary _ c t e => max c.height (max t.height e.height)
  | _ => 1

theorem height_pos (e : Expr) : 0 < e.height := by
  fun_induction height e with
  | case1 => omega
  | case2 => omega
  | case3 | case4 | case5 => assumption
  | case6 => omega
  | case7 => decide

/-! Frames -/

@[simp]
theorem isChar_push {kind : SlotKind} {len : Option Nat} (e : Expr) :
    e.isChar (f.push kind len) = e.isChar f := by
  fun_induction isChar f e <;> simp_all [isChar, Option.any_map]

@[simp]
theorem onCells_push {kind : SlotKind} {len : Option Nat} (e : Expr) :
    e.onCells (f.push kind len) = e.onCells f := by
  fun_induction onCells f e <;> simp_all [onCells]

theorem not_onCells_of_singleChar? {char : Char} : ∀ {e : Expr}, singleChar? e = some char → e.onCells f = false
  | .literal _ (.string _), _ => rfl
  | .grouping _ e, h => by
    rw [onCells]
    exact not_onCells_of_singleChar? (by rwa [singleChar?] at h)

theorem isChar_of_exprCode {n n' : Nat} {want : Option SlotKind} {e : Expr} {kind : SlotKind} {len : Option Nat}
    {c : List Assembly.Line} (h : ExprCode f n want e kind len c n') (hcells : e.onCells f = true)
    (hkind : kind = .char) : e.isChar f = true := by
  induction h with
  | literal hl =>
    subst hkind
    cases hl
    rfl
  | binary _ _ _ hbinary =>
    subst hkind
    cases hbinary
  | unary _ hop =>
    subst hkind
    cases hop
  | grouping _ ih => exact ih hcells hkind
  | var hslot => simp [isChar, hslot, hkind]
  | assign hslot hscalar => simp [isChar, hslot, hscalar, hkind]
  | @compound _ _ _ _ _ op _ _ _ _ _ _ _ _ _ _ _ _ _ hop =>
    cases op with
    | set => cases hop
    | add | sub => cases hcells
  | step _ hlines =>
    rw [hkind] at hlines
    cases hlines
  | ternary _ _ _ _ ih₂ =>
    simp only [onCells, Bool.and_eq_true] at hcells
    exact ih₂ hcells.1.2 hkind
  | narrowed hchar =>
    rw [not_onCells_of_singleChar? hchar] at hcells
    cases hcells
  | converted _ _ hconvert ih =>
    cases hconvert with
    | same => exact ih hcells hkind
    | widen => cases hkind
  | logical => cases hkind
  | _ => cases hcells

end Expr

namespace Machine

open Assembly Lowering

inductive HasCell : SlotKind → Value → Prop where
  | int (n : Int32) : HasCell .int (.int n)
  | bool (b : Bool) : HasCell .bool (.bool b)
  | char (c : Char) : HasCell .char (.char c)

theorem HasWord.hasCell {kind : SlotKind} {v : Value} (h : HasWord kind v) : HasCell kind v := by
  cases h with
  | int n => exact .int n
  | bool b => exact .bool b

namespace HasCell

variable {kind : SlotKind} {v : Value}

theorem kind_eq (h : HasCell kind v) : v.kind = kind.kind := by
  cases h <;> rfl

theorem isLiteral (h : HasCell kind v) : v.isLiteral = true := by
  cases h <;> rfl

theorem hasWord (h : HasCell kind v) (hkind : kind ≠ .char) : HasWord kind v := by
  cases h with
  | int n => exact .int n
  | bool b => exact .bool b
  | char c => exact absurd rfl hkind

theorem int_of_numeric (h : HasCell kind v) (hkind : kind.isNumeric = true) : kind = .int := by
  cases h with
  | int => rfl
  | bool | char => cases hkind

theorem char_of_text (h : HasCell kind v) (hkind : kind.isText = true) : kind = .char := by
  cases h with
  | char => rfl
  | int | bool => cases hkind

theorem ne_float (h : HasCell kind v) : kind ≠ .float := by
  cases h <;> nofun

end HasCell

/-! Comparisons -/

section Comparisons

variable {op : BinaryOp} {kind : SlotKind} {v w : Value}

theorem toInt_wordOf_char (c : Char) : (wordOf (.char c)).toInt = c.toNat := by
  have hc : c.toNat < 2 ^ 31 := by
    rcases c.valid with (h : c.toNat < 0xd800) | ⟨-, (h : c.toNat < 0x110000)⟩ <;> omega
  rw [wordOf, charCode, BitVec.toInt_ofInt, Int.bmod_eq_of_le] <;> omega

theorem binary_chars {a b : Char} (hcls : op.cls = .relational ∨ op.cls = .equality) :
    Value.binary op (.char a) (.char b) =
      .ok (.bool (wordCompare op (wordOf (.char a)) (wordOf (.char b)))) := by
  have hslt (a b : Char) : (wordOf (.char a)).slt (wordOf (.char b)) = decide (a < b) := by
    rw [BitVec.slt, toInt_wordOf_char, toInt_wordOf_char]
    exact decide_eq_decide.mpr Int.ofNat_lt
  have hle (a b : Char) : (!decide (b < a)) = decide (a ≤ b) := by
    rw [← decide_not]
    exact decide_eq_decide.mpr Char.not_lt
  have heq : (wordOf (.char a) == wordOf (.char b)) = (a == b) := by
    rw [Bool.eq_iff_iff, beq_iff_eq, beq_iff_eq, ← BitVec.toInt_inj, toInt_wordOf_char, toInt_wordOf_char,
      Int.ofNat_inj, Char.toNat_inj]
  cases op with
  | lt | gt => simp only [Value.binary, Value.charCompare, wordCompare, hslt]
  | le | ge => simp only [Value.binary, Value.charCompare, wordCompare, hslt, hle]
  | eq | ne => simp only [Value.binary, Value.looseEq?, wordCompare, heq]
  | _ => rcases hcls with hcls | hcls <;> cases hcls

theorem binary_cells (hop : comparesWords op kind = true) (hv : HasCell kind v) (hw : HasCell kind w) :
    Value.binary op v w = .ok (.bool (wordCompare op (wordOf v) (wordOf w))) := by
  by_cases hkind : kind = .char
  · subst hkind
    cases hv with
    | char a =>
      cases hw with
      | char b => exact binary_chars (Agreement.cls_of_comparesWords hop)
  · exact binary_words hop (hv.hasWord hkind) (hw.hasWord hkind)

end Comparisons

end Machine

end Arbor
