import Arbor.Proofs.Lowering.Code
import Arbor.Proofs.Lowering.Outcome

/-!
This module contains the proof that lowering an expression writes the code of the expression, and pushes one slot.
-/

namespace Arbor.Lowering

open Assembly

variable {s s' : State} {f : Frame} {span : Span}

/-! Operators -/

@[simp]
theorem yields_promoteSlot {n : Nat} {u : Unit} :
    Yields (promoteSlot n) s u s' ↔
      s' = s.write (promotion n) (s.frame.setKind n .float) s.nextLabel s.data := by
  simp [promoteSlot, promotion]

theorem convertCode_of_yields {kind target : SlotKind} {len : Option Nat} {u : Unit}
    (hs : s.frame = f.push kind len) (h : Yields (convertTop span kind target) s u s') :
    ∃ c, ConvertCode kind target c ∧ s' = s.write c (f.push target len) s.nextLabel s.data := by
  unfold convertTop at h
  split at h
  · next heq =>
    rw [yields_pure] at h
    subst heq
    refine ⟨[], .same kind, ?_⟩
    rw [← hs, h.2, State.write_nil]
  · split at h
    · next heq =>
      obtain ⟨rfl, rfl⟩ := heq
      rw [yields_promoteSlot, hs, Frame.setKind_push_zero] at h
      exact ⟨_, .widen, h⟩
    · rw [yields_fail] at h
      exact h.elim

@[simp]
theorem yields_charToText {n : Nat} {u : Unit} :
    Yields (charToText n) s u s' ↔
      s' = s.write (spelling n) (s.frame.setKind n .string) s.nextLabel s.data := by
  simp [charToText, spelling]

section Binary

variable {left right : SlotKind} {len₁ len₂ : Option Nat}

theorem isNumeric_iff {kind : SlotKind} : kind.isNumeric = true ↔ kind = .int ∨ kind = .float := by
  unfold SlotKind.isNumeric
  split <;> simp_all

theorem spellings_of_yields {u : Unit} (hs : s.frame = (f.push left len₁).push right len₂)
    (h : Yields (textOperands left right) s u s') :
    ∃ left' right', s' = s.write (spellings left right)
      ((f.push left' len₁).push right' len₂) s.nextLabel s.data := by
  unfold textOperands at h
  unfold spellings
  by_cases hl : left = .char <;> by_cases hr : right = .char
  · simp [hl, hr, hs] at h
    exact ⟨.string, .string, by simp [hl, hr, h]⟩
  · simp [hl, hr, hs] at h
    exact ⟨.string, right, by simp [hl, hr, h]⟩
  · simp [hl, hr, hs] at h
    exact ⟨left, .string, by simp [hl, hr, h]⟩
  · simp [hl, hr] at h
    refine ⟨left, right, ?_⟩
    simp [hl, hr, h, ← hs, State.write_nil]

theorem promotions_of_yields {b : Bool} (hleft : left.isNumeric = true) (hright : right.isNumeric = true)
    (hs : s.frame = (f.push left len₁).push right len₂)
    (h : Yields (promoteOperands left right) s b s') :
    (b = false ∧ left = .int ∧ right = .int ∧ s' = s) ∨
      (b = true ∧ ¬(left = .int ∧ right = .int) ∧ ∃ left' right',
        s' = s.write (promotions left right) ((f.push left' len₁).push right' len₂) s.nextLabel
          s.data) := by
  rcases isNumeric_iff.mp hleft with rfl | rfl <;> rcases isNumeric_iff.mp hright with rfl | rfl
  · simp only [promoteOperands, yields_pure] at h
    exact .inl ⟨h.1, rfl, rfl, h.2⟩
  · simp [promoteOperands, hs] at h
    exact .inr ⟨h.2, by simp, .float, .float, h.1⟩
  · simp [promoteOperands, hs] at h
    exact .inr ⟨h.2, by simp, .float, .float, h.1⟩
  · simp only [promoteOperands, yields_pure] at h
    refine .inr ⟨h.1, by simp, .float, .float, ?_⟩
    rw [h.2, ← hs]
    exact State.write_nil.symm

theorem yields_intArithmetic {op : BinaryOp} {kind : SlotKind}
    (hs : s.frame = (f.push left len₁).push right len₂)
    (h : Yields (intArithmetic span op) s kind s') :
    kind = .int ∧
      s' = s.write (pop .t1 ++ pop .t0 ++ divisorCheck op ++ intOperation op ++ push .t0)
        (f.push .int none) s.nextLabel s.data := by
  unfold intArithmetic at h
  unfold divisorCheck
  cases hdiv : isDivision op
  · simp [hs, hdiv, and_assoc] at h
    simp [h]
  · simp [hs, hdiv, and_assoc] at h
    simp [h]

theorem yields_compareInts {op : BinaryOp} {kind : SlotKind}
    (hs : s.frame = (f.push left len₁).push right len₂)
    (h : Yields (compareInts span op) s kind s') :
    kind = .bool ∧
      s' = s.write (pop .t1 ++ pop .t0 ++ intComparison op ++ push .t0) (f.push .bool none) s.nextLabel
        s.data := by
  simp [compareInts, hs, and_assoc] at h
  simp [h]

theorem yields_floatArithmetic {op : BinaryOp} {kind : SlotKind}
    (hs : s.frame = (f.push left len₁).push right len₂)
    (h : Yields (floatArithmetic span op) s kind s') :
    kind = .float ∧
      s' = s.write (pop .t1 ++ pop .t0 ++ [.floatOfBits .ft1 .t1, .floatOfBits .ft0 .t0]
        ++ floatOperation op ++ [.bitsOfFloat .t0 .ft0] ++ push .t0) (f.push .float none) s.nextLabel
        s.data := by
  simp [floatArithmetic, popFloats, hs, and_assoc] at h
  simp [h]

theorem yields_compareFloats {op : BinaryOp} {kind : SlotKind}
    (hs : s.frame = (f.push left len₁).push right len₂)
    (h : Yields (compareFloats span op) s kind s') :
    kind = .bool ∧
      s' = s.write (pop .t1 ++ pop .t0 ++ [.floatOfBits .ft1 .t1, .floatOfBits .ft0 .t0]
        ++ floatComparison op ++ push .t0) (f.push .bool none) s.nextLabel s.data := by
  simp [compareFloats, popFloats, hs, and_assoc] at h
  simp [h]

theorem yields_concatenate {kind : SlotKind} (hs : s.frame = (f.push left len₁).push right len₂)
    (h : Yields (concatenate span left right) s kind s') :
    kind = .string ∧
      s' = s.write (spellings left right ++ pop .a1 ++ pop .a0 ++ [.jal Routine.concatString.label]
        ++ push .a0) (f.push .string none) s.nextLabel s.data := by
  unfold concatenate at h
  rw [yields_bind] at h
  obtain ⟨_, t, ht, h⟩ := h
  obtain ⟨left', right', rfl⟩ := spellings_of_yields hs ht
  simp [and_assoc] at h
  simp [h]

theorem yields_compareTexts {op : BinaryOp} {kind : SlotKind}
    (hs : s.frame = (f.push left len₁).push right len₂)
    (h : Yields (compareTexts span op left right) s kind s') :
    kind = .bool ∧
      s' = s.write (spellings left right ++ pop .a1 ++ pop .a0 ++ [.jal Routine.strEquals.label]
        ++ (if op = .ne then [.xori .a0 .a0 1] else []) ++ push .a0) (f.push .bool none) s.nextLabel
        s.data := by
  unfold compareTexts at h
  rw [yields_bind] at h
  obtain ⟨_, t, ht, h⟩ := h
  obtain ⟨left', right', rfl⟩ := spellings_of_yields hs ht
  by_cases hop : op = .ne
  · simp [hop, and_assoc] at h
    simp [hop, h]
  · simp [hop, and_assoc] at h
    simp [hop, h]

theorem binaryCode_of_numbers {op : BinaryOp} {kind : SlotKind} {x : Bool → Lower SlotKind}
    {ints floats : List Line} {result result' : SlotKind}
    (hleft : left.isNumeric = true) (hright : right.isNumeric = true)
    (hs : s.frame = (f.push left len₁).push right len₂)
    (h : Yields (do x (← promoteOperands left right)) s kind s')
    (hints : ∀ {left right : SlotKind} {s s' : State},
      s.frame = (f.push left len₁).push right len₂ → Yields (x false) s kind s' →
      kind = result ∧ s' = s.write ints (f.push result none) s.nextLabel s.data)
    (hfloats : ∀ {left right : SlotKind} {s s' : State},
      s.frame = (f.push left len₁).push right len₂ → Yields (x true) s kind s' →
      kind = result' ∧ s' = s.write floats (f.push result' none) s.nextLabel s.data)
    (hcode : left = .int → right = .int → BinaryCode op left right result ints)
    (hcode' : ¬(left = .int ∧ right = .int) →
      BinaryCode op left right result' (promotions left right ++ floats)) :
    ∃ c, BinaryCode op left right kind c ∧ s' = s.write c (f.push kind none) s.nextLabel s.data := by
  rw [yields_bind] at h
  obtain ⟨b, t, ht, h⟩ := h
  rcases promotions_of_yields hleft hright hs ht with
    ⟨rfl, hl, hr, rfl⟩ | ⟨rfl, hne, left', right', rfl⟩
  · obtain ⟨rfl, rfl⟩ := hints hs h
    exact ⟨_, hcode hl hr, rfl⟩
  · obtain ⟨rfl, rfl⟩ := hfloats rfl h
    refine ⟨_, hcode' hne, ?_⟩
    simp

theorem binaryCode_of_arithmetic {op : BinaryOp} {kind : SlotKind} (hop : op.cls = .arithmetic)
    (hleft : left.isNumeric = true) (hright : right.isNumeric = true)
    (hs : s.frame = (f.push left len₁).push right len₂)
    (h : Yields (arithmetic span op left right) s kind s') :
    ∃ c, BinaryCode op left right kind c ∧ s' = s.write c (f.push kind none) s.nextLabel s.data := by
  apply binaryCode_of_numbers hleft hright hs h
  · exact fun hs h => yields_intArithmetic hs h
  · exact fun hs h => yields_floatArithmetic hs h
  · rintro rfl rfl
    exact .ints hop
  · intro hne
    have := BinaryCode.floats hop hleft hright hne
    simpa only [List.append_assoc] using this

theorem binaryCode_of_comparison {op : BinaryOp} {kind : SlotKind}
    (hop : op.cls = .relational ∨ op.cls = .equality)
    (hleft : left.isNumeric = true) (hright : right.isNumeric = true)
    (hs : s.frame = (f.push left len₁).push right len₂)
    (h : Yields (compareNumbers span op left right) s kind s') :
    ∃ c, BinaryCode op left right kind c ∧ s' = s.write c (f.push kind none) s.nextLabel s.data := by
  apply binaryCode_of_numbers hleft hright hs h
  · exact fun hs h => yields_compareInts hs h
  · exact fun hs h => yields_compareFloats hs h
  · rintro rfl rfl
    apply BinaryCode.words
    cases op <;> simp_all [comparesWords, BinaryOp.cls]
  · intro hne
    have := BinaryCode.comparedFloats hop hleft hright hne
    simpa only [List.append_assoc] using this

theorem binaryCode_of_yields {op : BinaryOp} {kind : SlotKind}
    (hs : s.frame = (f.push left len₁).push right len₂)
    (h : Yields (applyBinary span op) s kind s') :
    ∃ c, BinaryCode op left right kind c ∧ s' = s.write c (f.push kind none) s.nextLabel s.data := by
  unfold applyBinary at h
  simp only [yields_bind, yields_kindAt] at h
  obtain ⟨_, t, ⟨slot, hslot, rfl, rfl⟩, _, t', ⟨slot', hslot', rfl, rfl⟩, h⟩ := h
  rw [hs] at hslot hslot'
  cases hslot
  cases hslot'
  dsimp only at h
  split at h
  · next hop =>
    split at h
    · next htext =>
      obtain ⟨rfl, hl, hr⟩ := htext
      obtain ⟨rfl, rfl⟩ := yields_concatenate hs h
      exact ⟨_, .concatenation hl hr, rfl⟩
    · split at h
      · next hnumeric => exact binaryCode_of_arithmetic hop hnumeric.1 hnumeric.2 hs h
      · exact (yields_fail.mp h).elim
  · next hop =>
    split at h
    · next hchar =>
      obtain ⟨rfl, rfl⟩ := hchar
      obtain ⟨rfl, rfl⟩ := yields_compareInts hs h
      refine ⟨_, .words ?_, rfl⟩
      cases op <;> simp_all [comparesWords, BinaryOp.cls]
    · split at h
      · next hnumeric => exact binaryCode_of_comparison (.inl hop) hnumeric.1 hnumeric.2 hs h
      · exact (yields_fail.mp h).elim
  · next hop =>
    split at h
    · next hwords =>
      obtain ⟨rfl, hkind⟩ := hwords
      obtain ⟨rfl, rfl⟩ := yields_compareInts hs h
      refine ⟨_, .words ?_, rfl⟩
      cases op <;> simp_all [comparesWords, BinaryOp.cls]
    · next hwords =>
      split at h
      · next htext =>
        obtain ⟨rfl, rfl⟩ := yields_compareTexts hs h
        refine ⟨_, .texts hop htext.1 htext.2 ?_, rfl⟩
        rintro ⟨rfl, rfl⟩
        exact hwords ⟨rfl, .inl rfl⟩
      · split at h
        · next hnumeric => exact binaryCode_of_comparison (.inr hop) hnumeric.1 hnumeric.2 hs h
        · exact (yields_fail.mp h).elim
  · exact (yields_fail.mp h).elim

end Binary

theorem unaryCode_of_yields {op : UnaryOp} {kind kind' : SlotKind} {len : Option Nat}
    (hs : s.frame = f.push kind len) (h : Yields (applyUnary span op kind) s kind' s') :
    kind' = kind ∧
      ∃ c, UnaryCode op kind c ∧ s' = s.write c (f.push kind none) s.nextLabel s.data := by
  unfold applyUnary at h
  split at h
  · simp [hs, and_assoc] at h
    exact ⟨h.2, _, .negInt, by simp [h.1]⟩
  · simp [hs, and_assoc] at h
    exact ⟨h.2, _, .negFloat, by simp [h.1]⟩
  · simp [hs, and_assoc] at h
    exact ⟨h.2, _, .not, by simp [h.1]⟩
  · simp at h

/-! Values -/

@[simp]
theorem yields_pushString {text : String} {u : Unit} :
    Yields (pushString text) s u s' ↔
      s' = s.write (stringCode text) (s.frame.push .string none) s.nextLabel s.data := by
  simp [pushString, stringCode]

@[simp]
theorem yields_pushWord {word : Int} {kind found : SlotKind} :
    Yields (pushWord word kind) s found s' ↔
      found = kind ∧
        s' = s.write (.li .t0 word :: push .t0) (s.frame.push kind none) s.nextLabel s.data := by
  simp [pushWord, and_comm]

theorem literalCode_of_yields {l : Literal} {kind : SlotKind}
    (h : Yields (lowerLiteral span l) s kind s') :
    ∃ c, LiteralCode l kind c ∧ s' = s.write c (s.frame.push kind none) s.nextLabel s.data := by
  cases l with
  | int n =>
    simp [lowerLiteral, and_assoc] at h
    obtain ⟨word, hword, rfl, rfl⟩ := h
    exact ⟨_, .int hword, rfl⟩
  | float x =>
    simp [lowerLiteral] at h
    obtain ⟨rfl, rfl⟩ := h
    exact ⟨_, .float x, rfl⟩
  | bool b =>
    simp [lowerLiteral] at h
    obtain ⟨rfl, rfl⟩ := h
    exact ⟨_, .bool b, rfl⟩
  | char c =>
    simp [lowerLiteral] at h
    obtain ⟨rfl, rfl⟩ := h
    exact ⟨_, .char c, rfl⟩
  | string raw =>
    simp [lowerLiteral] at h
    obtain ⟨rfl, rfl⟩ := h
    exact ⟨_, .string raw, rfl⟩

theorem yields_applyRoutine {r : Routine} {kind found result : SlotKind} {len : Option Nat}
    (hs : s.frame = f.push kind len) (h : Yields (applyRoutine span r result) s found s') :
    found = result ∧
      s' = s.write (pop .a0 ++ [.jal r.label] ++ push .a0) (f.push result none) s.nextLabel
        s.data := by
  simp [applyRoutine, hs, and_assoc] at h
  simp [h]

theorem yields_applyToString {argSpan : Span} {r : Routine} {kind found result : SlotKind}
    {len : Option Nat} (hs : s.frame = f.push kind len)
    (h : Yields (applyToString span argSpan kind r result) s found s') :
    kind = .string ∧ found = result ∧
      s' = s.write (pop .a0 ++ [.jal r.label] ++ push .a0) (f.push result none) s.nextLabel
        s.data := by
  unfold applyToString at h
  split at h
  · next hkind => exact ⟨hkind, yields_applyRoutine hs h⟩
  · rw [yields_fail] at h
    exact h.elim

theorem embeddedCode_of_yields {argSpan : Span} {fn : Embedded} {kind result : SlotKind}
    {len : Option Nat} (hs : s.frame = f.push kind len)
    (h : Yields (applyEmbedded span argSpan fn kind) s result s') :
    ∃ len' c, EmbeddedCode fn kind len result len' c ∧
      s' = s.write c (f.push result len') s.nextLabel s.data := by
  unfold applyEmbedded at h
  split at h
  · simp [hs, and_assoc] at h
    obtain ⟨rfl, rfl⟩ := h
    exact ⟨none, _, .typeOf kind len, rfl⟩
  · split at h
    · next scalar =>
      split at h
      · next r hr =>
        obtain ⟨rfl, rfl⟩ := yields_applyRoutine hs h
        exact ⟨none, _, .spelled hr, rfl⟩
      · next hr =>
        rw [yields_pure] at h
        obtain ⟨rfl, rfl⟩ := h
        have hstring : scalar = .string := by
          cases scalar <;> simp_all [conversion?]
        subst hstring
        refine ⟨len, [], .text len, ?_⟩
        rw [← hs]
        exact State.write_nil.symm
    · rw [yields_fail] at h
      exact h.elim
  · obtain ⟨rfl, rfl, rfl⟩ := yields_applyToString hs h
    exact ⟨none, _, .parseInt len, rfl⟩
  · obtain ⟨rfl, rfl, rfl⟩ := yields_applyToString hs h
    exact ⟨none, _, .parseFloat len, rfl⟩
  · obtain ⟨rfl, rfl, rfl⟩ := yields_applyToString hs h
    exact ⟨none, _, .toLowerCase len, rfl⟩
  · obtain ⟨rfl, rfl, rfl⟩ := yields_applyToString hs h
    exact ⟨none, _, .toUpperCase len, rfl⟩

/-! Expressions -/

def Writes (e : Expr) (x : Lower SlotKind) : Prop :=
  ∀ (s s' : State) (kind : SlotKind), Yields x s kind s' →
    ∃ len c n, ExprCode s.frame s.nextLabel none e kind len c n ∧
      s' = s.write c (s.frame.push kind len) n s.data

section Expressions

variable {e l r : Expr} {x y z : Lower SlotKind} {kind target : SlotKind} {name : String} {u : Unit}

theorem Writes.asKind (hx : Writes e x) (h : Yields (asKind e x target) s u s') :
    ∃ len c n, ExprCode s.frame s.nextLabel (some target) e target len c n ∧
      s' = s.write c (s.frame.push target len) n s.data := by
  unfold Lowering.asKind at h
  split at h
  · next c hc =>
    simp at h
    split at hc
    · next htarget =>
      subst htarget
      exact ⟨none, _, _, .narrowed hc, h⟩
    · cases hc
  · next hc =>
    rw [yields_bind] at h
    obtain ⟨kind, t, ht, h⟩ := h
    obtain ⟨len, c₁, n, hcode, rfl⟩ := hx _ _ _ ht
    obtain ⟨c, hconvert, rfl⟩ := convertCode_of_yields rfl h
    refine ⟨len, c₁ ++ c, n, .converted ?_ hcode hconvert, by simp⟩
    intro htarget
    rwa [if_pos htarget] at hc

theorem Writes.condition (hx : Writes e x) (h : Yields (condition span x) s u s') :
    ∃ len c n, ExprCode s.frame s.nextLabel none e .bool len c n ∧
      s' = s.write (c ++ pop .t0) s.frame n s.data := by
  unfold Lowering.condition at h
  rw [yields_bind] at h
  obtain ⟨kind, t, ht, h⟩ := h
  obtain ⟨len, c, n, hcode, rfl⟩ := hx _ _ _ ht
  by_cases hkind : kind = .bool
  · subst hkind
    simp [and_assoc] at h
    exact ⟨len, c, n, hcode, h⟩
  · simp [hkind] at h

theorem yields_loadVariable (h : Yields (loadVariable span name) s kind s') :
    ∃ offset slot, s.frame.resolve? name = some (offset, slot) ∧ kind = slot.kind ∧
      s' = s.write (.lw .t0 offset .sp :: push .t0) (s.frame.push slot.kind slot.length) s.nextLabel
        s.data := by
  simp [loadVariable, and_assoc] at h
  obtain ⟨offset, slot, hslot, rfl, rfl⟩ := h
  exact ⟨offset, slot, hslot, rfl, rfl⟩

theorem yields_storeTop {len : Option Nat} (hs : s.frame = f.push kind len)
    (h : Yields (storeTop span name) s u s') :
    ∃ offset slot, f.resolve? name = some (offset, slot) ∧
      s' = s.write [.lw .t0 0 .sp, .sw .t0 (offset + wordBytes) .sp] s.frame s.nextLabel s.data := by
  simp only [storeTop, yields_bind, yields_resolve, hs, Frame.resolve?_push,
    Option.map_eq_some_iff] at h
  obtain ⟨_, _, ⟨⟨⟨offset, slot⟩, hslot, rfl⟩, rfl⟩, h⟩ := h
  rw [yields_emit rfl] at h
  exact ⟨offset, slot, hslot, h⟩

theorem yields_arrayElement {elem : Scalar} (h : Yields (arrayElement span name) s elem s') :
    ∃ offset slot, s.frame.resolve? name = some (offset, slot) ∧ slot.kind = .array elem ∧ s' = s := by
  unfold arrayElement at h
  simp only [yields_bind, yields_resolve] at h
  obtain ⟨⟨offset, slot⟩, _, ⟨hslot, rfl⟩, h⟩ := h
  dsimp only at h
  split at h
  · next elem' hkind =>
    rw [yields_pure] at h
    rw [h.1, h.2]
    exact ⟨offset, slot, hslot, hkind, rfl⟩
  · rw [yields_fail] at h
    exact h.elim

theorem yields_loadArray {rd : Register} (h : Yields (loadArray span name rd) s u s') :
    ∃ offset slot, s.frame.resolve? name = some (offset, slot) ∧
      s' = s.write [.lw rd offset .sp] s.frame s.nextLabel s.data := by
  simp [loadArray, and_assoc] at h
  obtain ⟨offset, ⟨slot, hslot⟩, rfl⟩ := h
  exact ⟨offset, slot, hslot, rfl⟩

theorem yields_elementAddress {offset : Int} {slot : Slot}
    (hslot : s.frame.resolve? name = some (offset, slot))
    (h : Yields (elementAddress span name) s u s') :
    s' = s.write (addressCode offset) s.frame s.nextLabel s.data := by
  simp [elementAddress, loadArray, hslot, and_assoc] at h
  simp [addressCode, h]

theorem Writes.logical {isAnd : Bool} {op : BinaryOp} (hx : Writes l x) (hy : Writes r y)
    (hop : op.cls = .logical) (hand : (op == .and) = isAnd) :
    Writes (.binary span op l r) (lowerLogical isAnd l.span x r.span y) := by
  intro s s' kind h
  unfold lowerLogical at h
  simp only [yields_bind, yields_freshLabel, and_assoc, exists_eq_left, exists_and_left] at h
  obtain ⟨_, t₁, h₁, _, t₂, h₂, _, t₃, h₃, _, t₄, h₄, h⟩ := h
  obtain ⟨len₁, c₁, n₁, hl, rfl⟩ := hx.condition h₁
  rw [yields_emit (by simp)] at h₂
  subst h₂
  obtain ⟨len₂, c₂, n₂, hr, rfl⟩ := hy.condition h₃
  rw [yields_emit (by simp)] at h₄
  subst h₄
  simp at h
  obtain ⟨rfl, rfl⟩ := h
  refine ⟨none, _, n₂, .logical hop hl hr, ?_⟩
  simp [hand]

theorem Writes.binary {op : BinaryOp} (hx : Writes l x) (hy : Writes r y) (hop : op.cls ≠ .logical) :
    Writes (.binary span op l r) (do
      let _ ← x
      let _ ← y
      applyBinary span op) := by
  intro s s' kind h
  simp only [yields_bind] at h
  obtain ⟨left, t₁, h₁, right, t₂, h₂, h⟩ := h
  obtain ⟨len₁, c₁, n₁, hl, rfl⟩ := hx _ _ _ h₁
  obtain ⟨len₂, c₂, n₂, hr, rfl⟩ := hy _ _ _ h₂
  obtain ⟨c, hcode, rfl⟩ := binaryCode_of_yields rfl h
  exact ⟨none, _, n₂, .binary hop hl hr hcode, by simp⟩

theorem Writes.unary {op : UnaryOp} (hx : Writes e x) :
    Writes (.unary span op e) (do applyUnary span op (← x)) := by
  intro s s' kind h
  simp only [yields_bind] at h
  obtain ⟨kind', t, ht, h⟩ := h
  obtain ⟨len, c, n, he, rfl⟩ := hx _ _ _ ht
  obtain ⟨rfl, c', hcode, rfl⟩ := unaryCode_of_yields rfl h
  exact ⟨none, _, n, .unary he hcode, by simp⟩

theorem Writes.assign {op : AssignOp} (hx : Writes e x) :
    Writes (.assign span name op e) (lowerAssign span name op e x) := by
  intro s s' kind h
  unfold lowerAssign at h
  simp only [yields_bind, yields_resolve] at h
  obtain ⟨⟨offset, slot⟩, _, ⟨hslot, rfl⟩, h⟩ := h
  cases hkind : slot.kind with
  | array elem => simp [hkind, SlotKind.scalar?] at h
  | scalar scalar =>
    simp only [hkind, SlotKind.scalar?, Option.isNone_some, Bool.false_eq_true, if_false] at h
    cases hop : op.combine? with
    | none =>
      have hset : op = .set := by
        cases op <;> simp_all [AssignOp.combine?]
      subst hset
      simp only [hop, yields_bind, yields_pure] at h
      obtain ⟨_, t₁, h₁, _, t₂, h₂, rfl, rfl⟩ := h
      obtain ⟨len, c, n, he, rfl⟩ := hx.asKind h₁
      obtain ⟨offset', slot', hslot', rfl⟩ := yields_storeTop rfl h₂
      rw [hslot] at hslot'
      cases hslot'
      exact ⟨len, _, n, .assign hslot hkind he, by simp⟩
    | some b =>
      simp only [hop, yields_bind, yields_pure] at h
      obtain ⟨_, t₁, h₁, right, t₂, h₂, kind', t₃, h₃, _, t₄, h₄, _, t₅, h₅, rfl, rfl⟩ := h
      obtain ⟨offset', slot', hslot', rfl, rfl⟩ := yields_loadVariable h₁
      rw [hslot] at hslot'
      cases hslot'
      obtain ⟨len, c₁, n, he, rfl⟩ := hx _ _ _ h₂
      obtain ⟨c₂, hbinary, rfl⟩ := binaryCode_of_yields rfl h₃
      obtain ⟨c₃, hconvert, rfl⟩ := convertCode_of_yields rfl h₄
      obtain ⟨offset', slot', hslot', rfl⟩ := yields_storeTop rfl h₅
      rw [hslot] at hslot'
      cases hslot'
      rw [hkind] at he hbinary
      exact ⟨none, _, n, .compound hslot hkind hop he hbinary hconvert, by simp⟩

theorem writes_step {op : StepOp} : Writes (.step span name op) (lowerStep span name op) := by
  intro s s' kind h
  unfold lowerStep at h
  simp only [yields_bind, yields_resolve] at h
  obtain ⟨⟨offset, slot⟩, _, ⟨hslot, rfl⟩, h⟩ := h
  dsimp only at h
  split at h
  · rw [yields_fail] at h
    exact h.elim
  · next lines hlines =>
    have hcalled : called lines = [] := by
      unfold stepLines at hlines
      split at hlines <;> cases hlines <;> simp
    simp [hcalled] at h
    obtain ⟨rfl, rfl⟩ := h
    exact ⟨none, _, _, .step hslot hlines, by simp⟩

theorem Writes.ternary {c t : Expr} (hx : Writes c x) (hy : Writes t y) (hz : Writes e z) :
    Writes (.ternary span c t e) (lowerTernary c.span x t.span y e.span z) := by
  intro s s' kind h
  unfold lowerTernary at h
  simp only [yields_bind, yields_freshLabel, and_assoc, exists_eq_left, exists_and_left] at h
  obtain ⟨_, t₁, h₁, _, t₂, h₂, kind', t₃, h₃, _, t₄, h₄, _, t₅, h₅, kind'', t₆, h₆, h⟩ := h
  obtain ⟨len, c₁, n₁, hc, rfl⟩ := hx.condition h₁
  rw [yields_emit (by simp)] at h₂
  subst h₂
  obtain ⟨len₁, c₂, n₂, ht, rfl⟩ := hy _ _ _ h₃
  simp [and_assoc] at h₄
  obtain ⟨-, rfl⟩ := h₄
  rw [yields_emit (by simp)] at h₅
  subst h₅
  obtain ⟨len₂, c₃, n₃, he, rfl⟩ := hz _ _ _ h₆
  by_cases hkind : kind'' = kind'
  · subst hkind
    simp at h
    obtain ⟨rfl, rfl⟩ := h
    exact ⟨len₂, _, n₃, .ternary hc ht he, by simp⟩
  · simp [hkind] at h

theorem Writes.index {i : Expr} (hx : Writes i x) :
    Writes (.index span name i) (lowerIndex span name i x) := by
  intro s s' kind h
  unfold lowerIndex at h
  simp only [yields_bind, yields_pure] at h
  obtain ⟨elem, t₁, h₁, _, t₂, h₂, _, t₃, h₃, _, t₄, h₄, _, t₅, h₅, _, t₆, h₆, rfl, rfl⟩ := h
  obtain ⟨offset, slot, hslot, hkind, rfl⟩ := yields_arrayElement h₁
  obtain ⟨len, c, n, hi, rfl⟩ := hx.asKind h₂
  simp [and_assoc] at h₃
  subst h₃
  rw [yields_elementAddress (by simpa using hslot) h₄] at h₅
  simp at h₅
  subst h₅
  simp at h₆
  subst h₆
  exact ⟨none, _, n, .index hslot hkind hi, by simp⟩

theorem yields_storeElement {offset : Int} {slot : Slot} {elem : Scalar} {len₁ len₂ : Option Nat}
    (hs : s.frame = (f.push .int len₁).push (.scalar elem) len₂)
    (hslot : f.resolve? name = some (offset, slot))
    (h : Yields (do
      emit [.lw .t2 0 .sp, .lw .t0 wordBytes .sp]
      elementAddress span name
      emit [.sw .t2 0 .t0, .sw .t2 wordBytes .sp]
      discard span
      setKindAt 0 (.scalar elem)
      return .scalar elem) s kind s') :
    kind = .scalar elem ∧
      s' = s.write (storeElementCode (offset + wordBytes + wordBytes))
        (f.push (.scalar elem) len₁) s.nextLabel s.data := by
  simp only [yields_bind, yields_pure] at h
  obtain ⟨_, t₁, h₁, _, t₂, h₂, _, t₃, h₃, _, t₄, h₄, _, t₅, h₅, rfl, rfl⟩ := h
  simp at h₁
  subst h₁
  have haddress := yields_elementAddress
    (show _ = some (offset + wordBytes + wordBytes, slot) by simp [hs, hslot]) h₂
  rw [haddress] at h₃
  simp [hs] at h₃
  subst h₃
  simp [and_assoc] at h₄
  subst h₄
  simp at h₅
  subst h₅
  exact ⟨rfl, by simp [storeElementCode]⟩

theorem Writes.indexAssign {i : Expr} {op : AssignOp} (hx : Writes i x) (hy : Writes e y) :
    Writes (.indexAssign span name i op e) (lowerIndexAssign span name i x op e y) := by
  intro s s' kind h
  unfold lowerIndexAssign at h
  rw [yields_bind] at h
  obtain ⟨elem, t₁, h₁, h⟩ := h
  rw [yields_bind] at h
  obtain ⟨_, t₂, h₂, h⟩ := h
  obtain ⟨offset, slot, hslot, hkind, rfl⟩ := yields_arrayElement h₁
  obtain ⟨len₁, c₁, n₁, hi, rfl⟩ := hx.asKind h₂
  cases hop : op.combine? with
  | none =>
    have hset : op = .set := by
      cases op <;> simp_all [AssignOp.combine?]
    subst hset
    simp only [hop] at h
    rw [yields_bind] at h
    obtain ⟨_, t₃, h₃, h⟩ := h
    obtain ⟨len₂, c₂, n₂, he, rfl⟩ := hy.asKind h₃
    obtain ⟨rfl, rfl⟩ := yields_storeElement rfl hslot h
    exact ⟨len₁, _, n₂, .indexAssign hslot hkind hi he, by simp⟩
  | some b =>
    simp only [hop] at h
    rw [yields_bind] at h
    obtain ⟨_, t₃, h₃, h⟩ := h
    rw [yields_bind] at h
    obtain ⟨_, t₄, h₄, h⟩ := h
    rw [yields_bind] at h
    obtain ⟨_, t₅, h₅, h⟩ := h
    rw [yields_bind] at h
    obtain ⟨_, t₆, h₆, h⟩ := h
    rw [yields_bind] at h
    obtain ⟨right, t₇, h₇, h⟩ := h
    rw [yields_bind] at h
    obtain ⟨kind', t₈, h₈, h⟩ := h
    rw [yields_bind] at h
    obtain ⟨_, t₉, h₉, h⟩ := h
    simp at h₃
    subst h₃
    have haddress := yields_elementAddress
      (show _ = some (offset + wordBytes, slot) by simp [hslot]) h₄
    rw [haddress] at h₅
    simp at h₅
    subst h₅
    simp at h₆
    subst h₆
    obtain ⟨len₂, c₂, n₂, he, rfl⟩ := hy _ _ _ h₇
    obtain ⟨c₃, hbinary, rfl⟩ := binaryCode_of_yields rfl h₈
    obtain ⟨c₄, hconvert, rfl⟩ := convertCode_of_yields rfl h₉
    obtain ⟨rfl, rfl⟩ := yields_storeElement rfl hslot h
    exact ⟨len₁, _, n₂, .compoundIndexAssign hslot hkind hop hi he hbinary hconvert, by simp⟩

theorem Writes.indexOf (hx : Writes e x) :
    Writes (.indexOf span name e) (lowerIndexOf span name e x) := by
  intro s s' kind h
  unfold lowerIndexOf at h
  simp only [yields_bind, yields_pure] at h
  obtain ⟨elem, t₁, h₁, _, t₂, h₂, _, t₃, h₃, _, t₄, h₄, _, t₅, h₅, _, t₆, h₆, _, t₇, h₇, rfl, rfl⟩ := h
  obtain ⟨offset, slot, hslot, hkind, rfl⟩ := yields_arrayElement h₁
  obtain ⟨len, c, n, he, rfl⟩ := hx.asKind h₂
  simp [and_assoc] at h₃
  subst h₃
  obtain ⟨offset', slot', hslot', rfl⟩ := yields_loadArray h₄
  rw [State.frame_write, hslot] at hslot'
  cases hslot'
  simp at h₅
  subst h₅
  simp at h₆
  subst h₆
  simp at h₇
  subst h₇
  exact ⟨none, _, n, .indexOf hslot hkind he, by simp⟩

theorem writes_length : Writes (.length span name) (lowerLength span name) := by
  intro s s' kind h
  unfold lowerLength at h
  simp only [yields_bind, yields_pure] at h
  obtain ⟨elem, t₁, h₁, _, t₂, h₂, _, t₃, h₃, _, t₄, h₄, rfl, rfl⟩ := h
  obtain ⟨offset, slot, hslot, hkind, rfl⟩ := yields_arrayElement h₁
  obtain ⟨offset', slot', hslot', rfl⟩ := yields_loadArray h₂
  rw [hslot] at hslot'
  cases hslot'
  simp at h₃
  subst h₃
  simp at h₄
  subst h₄
  exact ⟨none, _, _, .length hslot hkind, by simp⟩

theorem writes_join : Writes (.join span name) (lowerJoin span name) := by
  intro s s' kind h
  unfold lowerJoin at h
  simp only [yields_bind, yields_pure] at h
  obtain ⟨elem, t₁, h₁, _, t₂, h₂, _, t₃, h₃, _, t₄, h₄, _, t₅, h₅, rfl, rfl⟩ := h
  obtain ⟨offset, slot, hslot, hkind, rfl⟩ := yields_arrayElement h₁
  obtain ⟨offset', slot', hslot', rfl⟩ := yields_loadArray h₂
  rw [hslot] at hslot'
  cases hslot'
  simp at h₃
  subst h₃
  simp at h₄
  subst h₄
  simp at h₅
  subst h₅
  exact ⟨none, _, _, .join hslot hkind, by simp⟩

theorem Writes.call {callee : Expr} (hx : Writes e x) :
    Writes (.call span callee [e]) (do
      let fn ← liftAt span (embeddedCallee callee)
      applyEmbedded span e.span fn (← x)) := by
  intro s s' kind h
  simp only [yields_bind, yields_liftAt] at h
  obtain ⟨fn, _, ⟨hfn, rfl⟩, kind', t, ht, h⟩ := h
  obtain ⟨len, c₁, n, he, rfl⟩ := hx _ _ _ ht
  obtain ⟨len', c, hcode, rfl⟩ := embeddedCode_of_yields rfl h
  exact ⟨len', _, n, .call hfn he hcode, by simp⟩

end Expressions

theorem writes_lowerExpr : ∀ e : Expr, Writes e (lowerExpr e)
  | .literal span l => by
    intro s s' kind h
    rw [lowerExpr] at h
    obtain ⟨c, hcode, rfl⟩ := literalCode_of_yields h
    exact ⟨none, c, _, .literal hcode, rfl⟩
  | .binary span op l r => by
    have hl := writes_lowerExpr l
    have hr := writes_lowerExpr r
    unfold lowerExpr
    split
    · exact hl.logical hr rfl rfl
    · exact hl.logical hr rfl rfl
    · next hand hor =>
      apply hl.binary hr
      intro hop
      cases op with
      | and => exact hand rfl
      | or => exact hor rfl
      | _ => cases hop
  | .unary span op e => by
    unfold lowerExpr
    exact (writes_lowerExpr e).unary
  | .grouping span e => by
    intro s s' kind h
    rw [lowerExpr] at h
    obtain ⟨len, c, n, he, rfl⟩ := writes_lowerExpr e _ _ _ h
    exact ⟨len, c, n, .grouping he, rfl⟩
  | .var span name => by
    intro s s' kind h
    rw [lowerExpr] at h
    obtain ⟨offset, slot, hslot, rfl, rfl⟩ := yields_loadVariable h
    exact ⟨slot.length, _, _, .var hslot, rfl⟩
  | .assign span name op e => by
    unfold lowerExpr
    exact (writes_lowerExpr e).assign
  | .step span name op => by
    unfold lowerExpr
    exact writes_step
  | .ternary span c t e => by
    unfold lowerExpr
    exact (writes_lowerExpr c).ternary (writes_lowerExpr t) (writes_lowerExpr e)
  | .arrayLiteral span items => by
    intro s s' kind h
    rw [lowerExpr, yields_fail] at h
    exact h.elim
  | .index span array i => by
    unfold lowerExpr
    exact (writes_lowerExpr i).index
  | .indexAssign span array i op e => by
    unfold lowerExpr
    exact (writes_lowerExpr i).indexAssign (writes_lowerExpr e)
  | .indexOf span array e => by
    unfold lowerExpr
    exact (writes_lowerExpr e).indexOf
  | .length span array => by
    unfold lowerExpr
    exact writes_length
  | .join span array => by
    unfold lowerExpr
    exact writes_join
  | .call span callee [] => by
    intro s s' kind h
    simp [lowerExpr] at h
  | .call span callee [e] => by
    unfold lowerExpr
    exact (writes_lowerExpr e).call
  | .call span callee (_ :: _ :: _) => by
    intro s s' kind h
    simp [lowerExpr] at h

end Arbor.Lowering
