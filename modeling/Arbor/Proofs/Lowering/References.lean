import Arbor.Proofs.Assembly.Text

/-!
This module contains the symbols that code refers to: the routines that it calls, and the fixed strings and the regions
of arrays whose addresses it loads. It also shows that a comment of the code is one line, whatever a program writes in
its literals.
-/

namespace Arbor.Lowering

open Assembly

/--
A line calls a routine only, loads the address of a fixed string or of an array only, and is no comment of more lines.
-/
def LineRefers (d : DataSection) : Line → Prop
  | .instruction (.jal callee) => ∃ r : Routine, callee = r.label
  | .instruction (.la _ address) => (∃ s : FixedString, address = s.label) ∨ address ∈ d.labels
  | .comment text => OneLine text
  | _ => True

def Refers (d : DataSection) (c : List Line) : Prop :=
  ∀ l ∈ c, LineRefers d l

variable {d d' : DataSection} {c c' : List Line} {l : Line}

theorem Refers.mono (h : Refers d c) (hd : d.labels ⊆ d'.labels) : Refers d' c := by
  intro l hl
  have := h l hl
  unfold LineRefers at this ⊢
  split
  · exact this
  · exact this.imp id fun hmem => hd hmem
  · exact this
  · trivial

@[simp]
theorem refers_nil : Refers d [] := by
  simp [Refers]

@[simp]
theorem refers_cons : Refers d (l :: c) ↔ LineRefers d l ∧ Refers d c := by
  simp [Refers]

@[simp]
theorem refers_append : Refers d (c ++ c') ↔ Refers d c ∧ Refers d c' := by
  simp [Refers, or_imp, forall_and]

@[simp]
theorem lineRefers_jal {r : Routine} : LineRefers d (.jal r.label) :=
  ⟨r, rfl⟩

@[simp]
theorem lineRefers_la {rd : Register} {s : FixedString} : LineRefers d (.la rd s.label) :=
  .inl ⟨s, rfl⟩

@[simp]
theorem lineRefers_label {t : Label} : LineRefers d (.label t) :=
  trivial

@[simp]
theorem lineRefers_comment {text : String} : LineRefers d (.comment text) ↔ OneLine text :=
  Iff.rfl

@[simp]
theorem lineRefers_instruction {i : Instruction} (hcall : ∀ t, i ≠ .jal t) (hload : ∀ rd t, i ≠ .la rd t) :
    LineRefers d (.instruction i) := by
  cases i with
  | jal t => exact (hcall t rfl).elim
  | la rd t => exact (hload rd t rfl).elim
  | _ => trivial

section Lines

@[simp]
theorem refers_push {rs : Register} : Refers d (push rs) := by
  simp [push]

@[simp]
theorem refers_pop {rd : Register} : Refers d (pop rd) := by
  simp [pop]

@[simp]
theorem refers_release {n : Int} : Refers d (release n) := by
  unfold release
  split <;> simp

@[simp]
theorem refers_syscall {n : Int} : Refers d (syscall n) := by
  simp [syscall]

@[simp]
theorem refers_promotion {n : Nat} : Refers d (promotion n) := by
  have hcomment : OneLine "int -> float" := by decide
  simp [promotion, hcomment]

@[simp]
theorem refers_promotions {left right : SlotKind} : Refers d (promotions left right) := by
  unfold promotions
  split <;> simp

@[simp]
theorem refers_spellings {left right : SlotKind} : Refers d (spellings left right) := by
  unfold spellings spelling
  split <;> split <;> simp

@[simp]
theorem refers_divisorCheck {op : BinaryOp} : Refers d (divisorCheck op) := by
  unfold divisorCheck
  split <;> simp

@[simp]
theorem refers_intOperation {op : BinaryOp} : Refers d (intOperation op) := by
  cases op <;> simp [intOperation]

@[simp]
theorem refers_intComparison {op : BinaryOp} : Refers d (intComparison op) := by
  cases op <;> simp [intComparison]

@[simp]
theorem refers_floatOperation {op : BinaryOp} : Refers d (floatOperation op) := by
  have hcomment : OneLine "a % b = a - trunc(a / b) * b" := by decide
  cases op <;> simp [floatOperation, hcomment]

@[simp]
theorem refers_floatComparison {op : BinaryOp} : Refers d (floatComparison op) := by
  cases op <;> simp [floatComparison]

@[simp]
theorem refers_stringCode {s : String} : Refers d (stringCode s) := by
  have hwords : ∀ words : List Int, Refers d (words.flatMap appendWord) := by
    intro words
    induction words with
    | nil => simp
    | cons w rest ih => simp [List.flatMap_cons, appendWord, ih]
  have hcomment : OneLine ("string " ++ Text.quoted s) := .append (by decide) (.quoted s)
  simp [stringCode, hwords, hcomment]

@[simp]
theorem refers_addressCode {offset : Int} : Refers d (addressCode offset) := by
  simp [addressCode]

@[simp]
theorem refers_storeElementCode {offset : Int} : Refers d (storeElementCode offset) := by
  simp [storeElementCode]

@[simp]
theorem lineRefers_shortcut {isAnd : Bool} {decided : Label} : LineRefers d (shortcut isAnd decided) := by
  cases isAnd <;> simp [shortcut]

@[simp]
theorem lineRefers_loadZero {rd : Register} {s : Scalar} : LineRefers d (loadZero rd s) := by
  cases s <;> simp [loadZero]

@[simp]
theorem refers_printCode {character : Char} : Refers d (printCode character) := by
  simp [printCode]

@[simp]
theorem refers_heapRegion : Refers d heapRegion := by
  simp [heapRegion]

@[simp]
theorem refers_collectCode {k : Nat} : Refers d (collectCode k) := by
  induction k with
  | zero => simp [collectCode]
  | succ k ih => simp [collectCode, ih]

@[simp]
theorem refers_unrolledFill {length : Nat} : Refers d (unrolledFill length) := by
  simp [Refers, unrolledFill]

@[simp]
theorem refers_unrolledCopy {length : Nat} : Refers d (unrolledCopy length) := by
  unfold unrolledCopy
  induction List.range length with
  | nil => simp
  | cons i rest ih => simp [List.flatMap_cons, ih]

@[simp]
theorem refers_fillLoop {top done : Label} : Refers d (fillLoop top done) := by
  simp [fillLoop]

@[simp]
theorem refers_copyLoop {top done : Label} : Refers d (copyLoop top done) := by
  simp [copyLoop]

theorem BinaryCode.refers {op : BinaryOp} {left right kind : SlotKind}
    (h : BinaryCode op left right kind c) : Refers d c := by
  cases h with
  | texts => split <;> simp
  | _ => simp

theorem UnaryCode.refers {op : UnaryOp} {kind : SlotKind} (h : UnaryCode op kind c) : Refers d c := by
  cases h <;> simp

theorem ConvertCode.refers {kind target : SlotKind} (h : ConvertCode kind target c) : Refers d c := by
  cases h <;> simp

theorem LiteralCode.refers {literal : Literal} {kind : SlotKind} (h : LiteralCode literal kind c) :
    Refers d c := by
  cases h with
  | float x =>
    have hcomment : OneLine ("float " ++ Decimal.FloatForm.printed.text x) := .append (by decide) (.float x)
    simp [hcomment]
  | _ => simp

theorem EmbeddedCode.refers {fn : Embedded} {kind result : SlotKind} {len len' : Option Nat}
    (h : EmbeddedCode fn kind len result len' c) : Refers d c := by
  cases h <;> simp

end Lines

section Trees

variable {f f' : Frame} {n n' : Nat} {limit : Nat} {j : JumpTargets}

theorem ExprCode.refers {want : Option SlotKind} {e : Expr} {kind : SlotKind} {len : Option Nat}
    (h : ExprCode f n want e kind len c n') : Refers d c := by
  induction h with
  | literal hl => exact hl.refers
  | logical _ _ _ ih₁ ih₂ => simp [ih₁, ih₂]
  | binary _ _ _ hop ih₁ ih₂ => simp [ih₁, ih₂, hop.refers]
  | unary _ hop ih => simp [ih, hop.refers]
  | grouping _ ih => exact ih
  | var => simp
  | assign _ _ _ ih => simp [ih]
  | compound _ _ _ _ hop hconvert ih => simp [ih, hop.refers, hconvert.refers]
  | step _ hlines =>
    unfold stepLines at hlines
    split at hlines <;> cases hlines <;> simp
  | ternary _ _ _ ih₁ ih₂ ih₃ => simp [ih₁, ih₂, ih₃]
  | index _ _ _ ih => simp [ih]
  | indexAssign _ _ _ _ ih₁ ih₂ => simp [ih₁, ih₂]
  | compoundIndexAssign _ _ _ _ _ hop hconvert ih₁ ih₂ =>
    simp [ih₁, ih₂, hop.refers, hconvert.refers]
  | indexOf _ _ _ ih => simp [ih]
  | length | join => simp
  | call _ _ hfn ih => simp [ih, hfn.refers]
  | narrowed => simp
  | converted _ _ hconvert ih => simp [ih, hconvert.refers]

theorem ItemsCode.refers {elem? : Option Scalar} {items : List Expr} {elem : Scalar}
    (h : ItemsCode f n elem? items elem c f' n') : Refers d c := by
  induction h with
  | nil => simp
  | known he _ ih | first he _ ih => simp [he.refers, ih]

theorem labels_allocate (d : DataSection) (length : Nat) :
    (d.allocate length).2.labels = d.labels ++ [(d.allocate length).1] := by
  simp [DataSection.allocate, DataSection.labels, List.range_succ]

theorem refers_regionCode {length : Nat} : Refers (d.allocate length).2 (regionCode d length) := by
  have : LineRefers (d.allocate length).2 (.la .t0 (d.allocate length).1) := by
    refine .inr ?_
    rw [labels_allocate]
    simp
  simp [regionCode, this]

theorem refers_upToCode {length : Nat} {unrolled : Nat → List Line} {lines : Label → Label → List Line}
    (hunrolled : ∀ k, Refers d (unrolled k)) (hlines : ∀ top done, Refers d (lines top done)) :
    Refers d (upToCode limit length n unrolled lines) := by
  unfold upToCode
  split
  · exact hunrolled length
  · simp [hlines]

theorem ArrayCode.refers {declared : Option Scalar} {init : ArrayInit} {elem : Scalar}
    {len : Option Nat} (h : ArrayCode limit f n d declared init elem len c n' d') :
    d.labels ⊆ d'.labels ∧ Refers d' c := by
  have hallocate (length : Nat) : d.labels ⊆ (d.allocate length).2.labels := by
    rw [labels_allocate]
    exact List.subset_append_left _ _
  cases h with
  | values hitems => exact ⟨hallocate _, by simp [hitems.refers, refers_regionCode]⟩
  | sized => exact ⟨hallocate _, by simp [refers_regionCode, refers_upToCode]⟩
  | computed _ hlength => exact ⟨List.Subset.refl _, by simp [hlength.refers]⟩
  | copied => exact ⟨hallocate _, by simp [refers_regionCode, refers_upToCode]⟩
  | copiedHeap => exact ⟨List.Subset.refl _, by simp⟩

theorem refers_shownCode {kind : SlotKind} : Refers d (shownCode n kind) := by
  cases kind with
  | array elem => simp [shownCode]
  | scalar s => cases s <;> simp [shownCode]

theorem PrintCode.refers {separator : List Line} {args : List Expr}
    (h : PrintCode f n separator args c n') (hseparator : Refers d separator) : Refers d c := by
  induction h with
  | nil => simp
  | cons he _ ih => simp [hseparator, he.refers, refers_shownCode, ih]

theorem TestCode.refers {done : Label} {cond : Option Expr} (h : TestCode f n done cond c n') :
    Refers d c := by
  cases h with
  | none => simp
  | some he => simp [he.refers]

theorem UpdateCode.refers {update : Option Expr} (h : UpdateCode f n update c n') : Refers d c := by
  cases h with
  | none => simp
  | some he => simp [he.refers]

theorem CasesCode.refers {kind : SlotKind} {cases : List (Expr × Label)}
    (h : CasesCode kind cases c) : Refers d c := by
  cases h with
  | strings hcode =>
    rw [refers_append]
    refine ⟨refers_pop, ?_⟩
    induction hcode with
    | nil => simp
    | cons _ ih => simp [ih]
  | words _ hcode =>
    rw [refers_append]
    refine ⟨refers_pop, ?_⟩
    induction hcode with
    | nil => simp
    | cons _ _ ih => simp [ih]

theorem StmtCode.refers {p : Part} (h : StmtCode limit j f n d p c f' n' d') :
    d.labels ⊆ d'.labels ∧ Refers d' c := by
  induction h with
  | declared _ _ he | inferred _ he | expr he => exact ⟨List.Subset.refl _, by simp [he.refers]⟩
  | arrayDecl _ _ harray => exact harray.refers
  | print hargs =>
    have hcomment : OneLine "print" := by decide
    exact ⟨List.Subset.refl _, by simp [hargs.refers, hcomment]⟩
  | block _ ih => exact ih
  | ifElse hcond _ _ ih₁ ih₂ =>
    exact ⟨List.Subset.trans ih₁.1 ih₂.1, by simp [hcond.refers, ih₁.2.mono ih₂.1, ih₂.2]⟩
  | ifThen hcond _ ih | whileLoop hcond _ ih => exact ⟨ih.1, by simp [hcond.refers, ih.2]⟩
  | forLoop _ htest _ hupdate ih₁ ih₂ =>
    exact ⟨List.Subset.trans ih₁.1 ih₂.1,
      by simp [ih₁.2.mono ih₂.1, htest.refers, ih₂.2, hupdate.refers]⟩
  | forEach _ _ _ _ _ _ ih => exact ⟨ih.1, by simp [ih.2]⟩
  | switch he hcases _ ih => exact ⟨ih.1, by simp [he.refers, hcases.refers, ih.2]⟩
  | zeroed | breakStmt | continueStmt | nil | noBody => exact ⟨List.Subset.refl _, by simp⟩
  | cons _ _ ih₁ ih₂ | body _ _ ih₁ ih₂ =>
    exact ⟨List.Subset.trans ih₁.1 ih₂.1, by simp [ih₁.2.mono ih₂.1, ih₂.2]⟩
  | scope _ ih => exact ⟨ih.1, by simp [ih.2]⟩

end Trees

end Arbor.Lowering
