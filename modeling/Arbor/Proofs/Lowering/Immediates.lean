import Arbor.Proofs.Lowering.Closed
import Arbor.Proofs.Lowering.Parts

/-!
This module contains the numbers that code loads. Each of them is a word, but for two: the label of a case that negates
the lowest int, and the length of a list with more elements than a word can count, where it is copied.
-/

namespace Arbor

def Stmt.caseValues : Stmt → List Expr
  | .switch _ _ cases _ => cases.map SwitchCase.value
  | _ => []

def Stmt.listLength? : Stmt → Option Nat
  | .arrayDecl _ _ _ _ (.values items) => some items.length
  | _ => none

def Expr.negatesLowest : Expr → Bool
  | .grouping _ e => e.negatesLowest
  | .unary _ .neg (.literal _ (.int n)) => n.toInt == -2 ^ 31
  | _ => false

def Assembly.Line.loaded? : Assembly.Line → Option (Assembly.Register × Int)
  | .instruction (.li rd n) => some (rd, n)
  | _ => none

namespace Lowering

open Assembly Agreement

def IsWord (n : Int) : Prop :=
  -2 ^ 31 ≤ n ∧ n < 2 ^ 31

instance {n : Int} : Decidable (IsWord n) :=
  inferInstanceAs (Decidable (_ ∧ _))

/--
The numbers besides words that the code of a program loads, and the registers that it loads them to.
-/
inductive Oversized (limit : Nat) (p : Program) : Register → Int → Prop where
  | negated {s : Stmt} {e : Expr} :
    s ∈ Stmt.partsOfAll p.statements → e ∈ s.caseValues → e.negatesLowest = true →
    Oversized limit p .t1 (2 ^ 31)
  | copied {s : Stmt} {length : Nat} :
    s ∈ Stmt.partsOfAll p.statements → s.listLength? = some length → limit < length → 2 ^ 31 ≤ length →
    Oversized limit p .t2 length

def LineLoads (other : Register → Int → Prop) (l : Line) : Prop :=
  ∀ x ∈ l.loaded?, IsWord x.2 ∨ other x.1 x.2

def Loads (other : Register → Int → Prop) (c : List Line) : Prop :=
  ∀ l ∈ c, LineLoads other l

variable {other : Register → Int → Prop} {c c' : List Line} {l : Line}

/-! Words -/

theorem isWord_of_intWord {n : Int64} {word : Int} (h : intWord n = .ok word) : IsWord word := by
  unfold intWord at h
  split at h
  · next hword =>
    cases h
    exact hword
  · cases h

@[simp]
theorem isWord_toInt (n : Int32) : IsWord n.toInt :=
  ⟨n.le_toInt, n.toInt_lt⟩

@[simp]
theorem isWord_floatWord (x : Float) : IsWord (floatWord x) :=
  isWord_toInt _

@[simp]
theorem isWord_boolWord (b : Bool) : IsWord (boolWord b) := by
  cases b <;> decide

@[simp]
theorem isWord_charCode (c : Char) : IsWord (charCode c) := by
  have hvalid := c.valid
  unfold IsWord charCode
  simp only [Char.toNat]
  rcases hvalid with h | h <;> omega

@[simp]
theorem isWord_elementCode (elem : Scalar) : IsWord (elementCode elem) := by
  cases elem <;> decide

theorem isWord_of_mem_packBytes {bytes : List UInt8} {word : Int} (h : word ∈ packBytes bytes) :
    IsWord word := by
  induction bytes using packBytes.induct with
  | case1 => simp [packBytes] at h
  | case2 | case3 | case4 =>
    rw [packBytes, List.mem_singleton] at h
    exact h ▸ isWord_toInt _
  | case5 b0 b1 b2 b3 rest ih =>
    rw [packBytes, List.mem_cons] at h
    rcases h with rfl | h
    · exact isWord_toInt _
    · exact ih h

/-! Lines -/

@[simp]
theorem loads_nil : Loads other [] := by
  simp [Loads]

@[simp]
theorem loads_cons : Loads other (l :: c) ↔ LineLoads other l ∧ Loads other c := by
  simp [Loads]

@[simp]
theorem loads_append : Loads other (c ++ c') ↔ Loads other c ∧ Loads other c' := by
  simp [Loads, or_imp, forall_and]

theorem loads_flatMap {α : Type} {xs : List α} {lines : α → List Line} (h : ∀ x ∈ xs, Loads other (lines x)) :
    Loads other (xs.flatMap lines) := by
  intro l hl
  obtain ⟨x, hx, hl⟩ := List.mem_flatMap.mp hl
  exact h x hx l hl

@[simp]
theorem lineLoads_li {rd : Register} {n : Int} : LineLoads other (.li rd n) ↔ IsWord n ∨ other rd n := by
  simp [LineLoads, Line.loaded?]

@[simp]
theorem lineLoads_label {t : Label} : LineLoads other (.label t) := by
  simp [LineLoads, Line.loaded?]

@[simp]
theorem lineLoads_comment {text : String} : LineLoads other (.comment text) := by
  simp [LineLoads, Line.loaded?]

@[simp]
theorem lineLoads_instruction {i : Instruction} (h : ∀ rd n, i ≠ .li rd n) : LineLoads other (.instruction i) := by
  cases i with
  | li rd n => exact (h rd n rfl).elim
  | _ => simp [LineLoads, Line.loaded?]

section Lines

@[simp]
theorem loads_push {rs : Register} : Loads other (push rs) := by
  simp [push]

@[simp]
theorem loads_pop {rd : Register} : Loads other (pop rd) := by
  simp [pop]

@[simp]
theorem loads_release {n : Int} : Loads other (release n) := by
  unfold release
  split <;> simp

@[simp]
theorem loads_syscall {n : Int} : Loads other (syscall n) ↔ IsWord n ∨ other .a7 n := by
  simp [syscall]

@[simp]
theorem loads_promotion {n : Nat} : Loads other (promotion n) := by
  simp [promotion]

@[simp]
theorem loads_promotions {left right : SlotKind} : Loads other (promotions left right) := by
  unfold promotions
  split <;> simp

@[simp]
theorem loads_spellings {left right : SlotKind} : Loads other (spellings left right) := by
  unfold spellings spelling
  split <;> split <;> simp

@[simp]
theorem loads_divisorCheck {op : BinaryOp} : Loads other (divisorCheck op) := by
  unfold divisorCheck
  split <;> simp

@[simp]
theorem loads_intOperation {op : BinaryOp} : Loads other (intOperation op) := by
  cases op <;> simp [intOperation]

@[simp]
theorem loads_intComparison {op : BinaryOp} : Loads other (intComparison op) := by
  cases op <;> simp [intComparison]

@[simp]
theorem loads_floatOperation {op : BinaryOp} : Loads other (floatOperation op) := by
  cases op <;> simp [floatOperation]

@[simp]
theorem loads_floatComparison {op : BinaryOp} : Loads other (floatComparison op) := by
  cases op <;> simp [floatComparison]

@[simp]
theorem loads_stringCode {s : String} : Loads other (stringCode s) := by
  have hwords : Loads other ((packString s).flatMap appendWord) := by
    apply loads_flatMap
    intro word hword
    have := isWord_of_mem_packBytes hword
    simp [appendWord, this]
  simp [stringCode, hwords]

@[simp]
theorem loads_addressCode {offset : Int} : Loads other (addressCode offset) := by
  simp [addressCode]

@[simp]
theorem loads_storeElementCode {offset : Int} : Loads other (storeElementCode offset) := by
  simp [storeElementCode]

@[simp]
theorem lineLoads_shortcut {isAnd : Bool} {decided : Label} : LineLoads other (shortcut isAnd decided) := by
  cases isAnd <;> simp [shortcut]

@[simp]
theorem lineLoads_loadZero {rd : Register} {s : Scalar} : LineLoads other (loadZero rd s) := by
  cases s <;> simp [loadZero, IsWord]

@[simp]
theorem loads_printCode {character : Char} : Loads other (printCode character) := by
  have hservice : IsWord 11 := by decide
  simp [printCode, hservice]

@[simp]
theorem loads_heapRegion : Loads other heapRegion := by
  simp [heapRegion]

@[simp]
theorem loads_regionCode {d : DataSection} {length : Nat} : Loads other (regionCode d length) := by
  simp [regionCode]

@[simp]
theorem loads_collectCode {k : Nat} : Loads other (collectCode k) := by
  induction k with
  | zero => simp [collectCode]
  | succ k ih => simp [collectCode, ih]

@[simp]
theorem loads_unrolledFill {length : Nat} : Loads other (unrolledFill length) := by
  simp [Loads, unrolledFill]

@[simp]
theorem loads_unrolledCopy {length : Nat} : Loads other (unrolledCopy length) := by
  unfold unrolledCopy
  exact loads_flatMap fun i _ => by simp

@[simp]
theorem loads_fillLoop {top done : Label} : Loads other (fillLoop top done) := by
  simp [fillLoop, IsWord]

@[simp]
theorem loads_copyLoop {top done : Label} : Loads other (copyLoop top done) := by
  simp [copyLoop, IsWord]

theorem loads_stepLines {op : StepOp} {kind : SlotKind} (h : stepLines op kind = some c) : Loads other c := by
  have hdelta : IsWord op.delta := by cases op <;> decide
  unfold stepLines at h
  split at h <;> cases h <;> simp [hdelta]

theorem loads_shownCode {n : Nat} {kind : SlotKind} : Loads other (shownCode n kind) := by
  cases kind with
  | array elem => simp [shownCode]
  | scalar s => cases s <;> simp [shownCode, IsWord]

theorem BinaryCode.loads {op : BinaryOp} {left right kind : SlotKind}
    (h : BinaryCode op left right kind c) : Loads other c := by
  cases h with
  | texts => split <;> simp
  | _ => simp

theorem UnaryCode.loads {op : UnaryOp} {kind : SlotKind} (h : UnaryCode op kind c) : Loads other c := by
  cases h <;> simp

theorem ConvertCode.loads {kind target : SlotKind} (h : ConvertCode kind target c) : Loads other c := by
  cases h <;> simp

theorem LiteralCode.loads {literal : Literal} {kind : SlotKind} (h : LiteralCode literal kind c) :
    Loads other c := by
  cases h with
  | int hword => simp [isWord_of_intWord hword]
  | _ => simp

theorem EmbeddedCode.loads {fn : Embedded} {kind result : SlotKind} {len len' : Option Nat}
    (h : EmbeddedCode fn kind len result len' c) : Loads other c := by
  cases h <;> simp

end Lines

/-! Expressions -/

section Expressions

variable {f f' : Frame} {n n' : Nat}

theorem ExprCode.loads {want : Option SlotKind} {e : Expr} {kind : SlotKind} {len : Option Nat}
    (h : ExprCode f n want e kind len c n') : Loads other c := by
  induction h with
  | literal hl => exact hl.loads
  | logical _ _ _ ih₁ ih₂ => simp [ih₁, ih₂]
  | binary _ _ _ hop ih₁ ih₂ => simp [ih₁, ih₂, hop.loads]
  | unary _ hop ih => simp [ih, hop.loads]
  | grouping _ ih => exact ih
  | var => simp
  | assign _ _ _ ih => simp [ih]
  | compound _ _ _ _ hop hconvert ih => simp [ih, hop.loads, hconvert.loads]
  | step _ hlines => simp [loads_stepLines hlines]
  | ternary _ _ _ ih₁ ih₂ ih₃ => simp [ih₁, ih₂, ih₃]
  | index _ _ _ ih => simp [ih]
  | indexAssign _ _ _ _ ih₁ ih₂ => simp [ih₁, ih₂]
  | compoundIndexAssign _ _ _ _ _ hop hconvert ih₁ ih₂ => simp [ih₁, ih₂, hop.loads, hconvert.loads]
  | indexOf _ _ _ ih => simp [ih]
  | length | join => simp
  | call _ _ hfn ih => simp [ih, hfn.loads]
  | narrowed => simp
  | converted _ _ hconvert ih => simp [ih, hconvert.loads]

theorem ItemsCode.loads {elem? : Option Scalar} {items : List Expr} {elem : Scalar}
    (h : ItemsCode f n elem? items elem c f' n') : Loads other c := by
  induction h with
  | nil => simp
  | known he _ ih | first he _ ih => simp [he.loads, ih]

theorem PrintCode.loads {separator : List Line} {args : List Expr}
    (h : PrintCode f n separator args c n') (hseparator : Loads other separator) : Loads other c := by
  induction h with
  | nil => simp
  | cons he _ ih => simp [hseparator, he.loads, loads_shownCode, ih]

theorem TestCode.loads {done : Label} {cond : Option Expr} (h : TestCode f n done cond c n') :
    Loads other c := by
  cases h with
  | none => simp
  | some he => simp [he.loads]

theorem UpdateCode.loads {update : Option Expr} (h : UpdateCode f n update c n') : Loads other c := by
  cases h with
  | none => simp
  | some he => simp [he.loads]

end Expressions

/-! Lengths -/

def Frame.LengthsIn (Q : Nat → Prop) (f : Frame) : Prop :=
  ∀ slot ∈ f.slots, ∀ k ∈ slot.length, Q k

section Lengths

variable {Q : Nat → Prop} {f f' : Frame} {n n' : Nat} {kind : SlotKind} {len : Option Nat}

theorem Frame.mem_of_resolve? {name : String} {offset : Int} {slot : Slot}
    (h : f.resolve? name = some (offset, slot)) : slot ∈ f.slots := by
  obtain ⟨above, below, hslots, -⟩ := resolve?_eq_some_iff.mp h
  rw [hslots]
  exact List.mem_append_right _ List.mem_cons_self

namespace Frame.LengthsIn

theorem empty : Frame.empty.LengthsIn Q := by
  rintro _ ⟨⟩

theorem pushNamed (hf : f.LengthsIn Q) (hlen : ∀ k ∈ len, Q k) (name : String) :
    (f.pushNamed kind len name).LengthsIn Q :=
  List.forall_mem_cons.mpr ⟨hlen, hf⟩

theorem openScope (hf : f.LengthsIn Q) : f.openScope.LengthsIn Q :=
  hf

theorem of_resolve? (hf : f.LengthsIn Q) {name : String} {offset : Int} {slot : Slot}
    (h : f.resolve? name = some (offset, slot)) : ∀ k ∈ slot.length, Q k :=
  hf slot (mem_of_resolve? h)

end Frame.LengthsIn

theorem EmbeddedCode.lengthIn {fn : Embedded} {result : SlotKind} {len' : Option Nat}
    (h : EmbeddedCode fn kind len result len' c) (hlen : ∀ k ∈ len, Q k) : ∀ k ∈ len', Q k := by
  cases h with
  | text => exact hlen
  | _ => simp

theorem ExprCode.lengthIn {want : Option SlotKind} {e : Expr} (h : ExprCode f n want e kind len c n') :
    f.LengthsIn Q → ∀ k ∈ len, Q k := by
  induction h with
  | grouping _ ih | assign _ _ _ ih | converted _ _ _ ih => exact ih
  | var hslot => exact fun hf => hf.of_resolve? hslot
  | ternary _ _ _ _ _ ih => exact ih
  | indexAssign _ _ _ _ ih | compoundIndexAssign _ _ _ _ _ _ _ ih => exact ih
  | call _ _ hfn ih => exact fun hf => hfn.lengthIn (ih hf)
  | _ => simp

def Copyable (limit : Nat) (other : Register → Int → Prop) (length : Nat) : Prop :=
  limit < length → IsWord length ∨ other .t2 length

variable {limit length : Nat}

theorem copyable_of_word {word : Int} (h : IsWord word) : Copyable limit other word.toNat := by
  intro _
  obtain ⟨_, _⟩ := h
  exact .inl ⟨by omega, by omega⟩

theorem loads_upToCode {unrolled : Nat → List Line} {lines : Label → Label → List Line}
    (hlength : Copyable limit other length) (hunrolled : ∀ k, Loads other (unrolled k))
    (hlines : ∀ top done, Loads other (lines top done)) :
    Loads other (upToCode limit length n unrolled lines) := by
  unfold upToCode
  split
  · exact hunrolled length
  · next hlimit => simp [hlines, hlength (Nat.lt_of_not_le hlimit)]

theorem ArrayCode.loads {d d' : DataSection} {declared : Option Scalar} {init : ArrayInit} {elem : Scalar}
    (h : ArrayCode limit f n d declared init elem len c n' d') (hf : f.LengthsIn (Copyable limit other))
    (hinit : ∀ items, init = .values items → Copyable limit other items.length) :
    (∀ k ∈ len, Copyable limit other k) ∧ Loads other c := by
  cases h with
  | values hitems =>
    refine ⟨?_, by simp [hitems.loads]⟩
    rintro _ ⟨⟩
    exact hinit _ rfl
  | sized _ _ hword =>
    have hcopyable : Copyable limit other _ := copyable_of_word (isWord_of_intWord hword)
    refine ⟨?_, by simp [loads_upToCode hcopyable]⟩
    rintro _ ⟨⟩
    exact hcopyable
  | computed _ hlength => exact ⟨by simp, by simp [hlength.loads]⟩
  | copied hslot _ _ hlength =>
    have hcopyable := hf.of_resolve? hslot _ hlength
    refine ⟨?_, by simp [loads_upToCode hcopyable]⟩
    rintro _ ⟨⟩
    exact hcopyable
  | copiedHeap => exact ⟨by simp, by simp⟩

end Lengths

/-! Cases -/

section Cases

variable {kind : SlotKind} {e : Expr} {word : Int}

theorem CaseWord.isWord (h : CaseWord kind e word) (hnot : e.negatesLowest = false) : IsWord word := by
  induction h with
  | grouping _ ih => exact ih hnot
  | int hword => exact isWord_of_intWord hword
  | char | bool => simp
  | negative hword =>
    unfold intWord at hword
    split at hword
    · next hrange =>
      cases hword
      rw [Expr.negatesLowest, beq_eq_false_iff_ne] at hnot
      exact ⟨by omega, by omega⟩
    · cases hword

theorem CaseWord.eq_of_negatesLowest (h : CaseWord kind e word) (hnegates : e.negatesLowest = true) :
    word = 2 ^ 31 := by
  induction h with
  | grouping _ ih => exact ih hnegates
  | int | char | bool => cases hnegates
  | negative hword =>
    rw [Expr.negatesLowest, beq_iff_eq] at hnegates
    unfold intWord at hword
    split at hword
    · cases hword
      omega
    · cases hword

variable {cases : List (Expr × Label)}

theorem WordsCode.loads (h : WordsCode kind cases c)
    (hcases : ∀ x ∈ cases, x.1.negatesLowest = true → other .t1 (2 ^ 31)) : Loads other c := by
  induction h with
  | nil => simp
  | @cons e _ _ word _ hword _ ih =>
    rw [List.forall_mem_cons] at hcases
    have hfits : IsWord word ∨ other .t1 word := by
      cases hnegates : e.negatesLowest with
      | false => exact .inl (hword.isWord hnegates)
      | true =>
        rw [hword.eq_of_negatesLowest hnegates]
        exact .inr (hcases.1 hnegates)
    simp [hfits, ih hcases.2]

theorem WordsCode.mem (h : WordsCode kind cases c) {x : Expr × Label} (hx : x ∈ cases)
    (hnegates : x.1.negatesLowest = true) : .li .t1 (2 ^ 31) ∈ c := by
  induction h with
  | nil => cases hx
  | cons hword _ ih =>
    rcases List.mem_cons.mp hx with rfl | hx
    · rw [hword.eq_of_negatesLowest hnegates]
      exact List.mem_append_left _ List.mem_cons_self
    · exact List.mem_append_right _ (ih hx)

theorem StringsCode.loads (h : StringsCode cases c) : Loads other c := by
  induction h with
  | nil => simp
  | cons _ ih => simp [ih]

theorem StringsCode.not_negatesLowest (h : StringsCode cases c) {x : Expr × Label} (hx : x ∈ cases) :
    x.1.negatesLowest = false := by
  induction h with
  | nil => cases hx
  | cons _ ih =>
    rcases List.mem_cons.mp hx with rfl | hx
    · rfl
    · exact ih hx

theorem CasesCode.loads (h : CasesCode kind cases c)
    (hcases : ∀ x ∈ cases, x.1.negatesLowest = true → other .t1 (2 ^ 31)) : Loads other c := by
  cases h with
  | strings hcode => simp [hcode.loads]
  | words _ hcode => simp [hcode.loads hcases]

theorem CasesCode.mem (h : CasesCode kind cases c) {x : Expr × Label} (hx : x ∈ cases)
    (hnegates : x.1.negatesLowest = true) : .li .t1 (2 ^ 31) ∈ c := by
  cases h with
  | strings hcode =>
    rw [hcode.not_negatesLowest hx] at hnegates
    cases hnegates
  | words _ hcode => exact List.mem_append_right _ (hcode.mem hx hnegates)

end Cases

/-! Statements -/

structure Accounted (limit : Nat) (other : Register → Int → Prop) (s : Stmt) : Prop where
  case : ∀ e ∈ s.caseValues, e.negatesLowest = true → other .t1 (2 ^ 31)
  list : ∀ length ∈ s.listLength?, Copyable limit other length

section Statements

variable {limit n n' : Nat} {j : JumpTargets} {f f' : Frame} {d d' : DataSection} {p : Part}

theorem accounted_block (span : Span) (body : List Stmt) : Accounted limit other (.block span body) :=
  ⟨by simp [Stmt.caseValues], by simp [Stmt.listLength?]⟩

/--
The code of a part of a program loads words and what its statements account for. The frame it leaves has no other
lengths either.
-/
theorem StmtCode.loads (h : StmtCode limit j f n d p c f' n' d') :
    p.Each (Accounted limit other) → f.LengthsIn (Copyable limit other) →
      f'.LengthsIn (Copyable limit other) ∧ Loads other c := by
  have hblock : ∀ span body, Accounted limit other (.block span body) := accounted_block
  induction h with
  | declared _ _ he | inferred _ he =>
    exact fun _ hf => ⟨hf.pushNamed (he.lengthIn hf) _, he.loads⟩
  | zeroed => exact fun _ hf => ⟨hf.pushNamed (by simp) _, by simp⟩
  | arrayDecl _ _ harray =>
    intro hp hf
    have hlist := (eachPart_head hp).list
    obtain ⟨hlen, hc⟩ := harray.loads hf (by rintro items rfl; exact hlist _ rfl)
    exact ⟨hf.pushNamed hlen _, hc⟩
  | expr he => exact fun _ hf => ⟨hf, by simp [he.loads]⟩
  | print hargs => exact fun _ hf => ⟨hf, by simp [hargs.loads]⟩
  | block _ ih => exact fun hp => ih ((Part.each_block hblock).mp hp)
  | ifElse hcond _ _ ih₁ ih₂ =>
    intro hp hf
    obtain ⟨-, h₁, h₂⟩ := (Part.each_ifElse hblock).mp hp
    exact ⟨hf, by simp [hcond.loads, (ih₁ h₁ hf).2, (ih₂ h₂ hf).2]⟩
  | ifThen hcond _ ih =>
    intro hp hf
    exact ⟨hf, by simp [hcond.loads, (ih ((Part.each_ifThen hblock).mp hp).2 hf).2]⟩
  | whileLoop hcond _ ih =>
    intro hp hf
    exact ⟨hf, by simp [hcond.loads, (ih ((Part.each_whileLoop hblock).mp hp).2 hf).2]⟩
  | forLoop _ htest _ hupdate ih₁ ih₂ =>
    intro hp hf
    obtain ⟨-, hinit, hbody⟩ := (Part.each_forLoop hblock).mp hp
    obtain ⟨hf₁, h₁⟩ := ih₁ hinit hf
    exact ⟨hf, by simp [h₁, htest.loads, (ih₂ hbody hf₁).2, hupdate.loads]⟩
  | forEach hslot _ _ hf₁ hf₂ _ ih =>
    intro hp hf
    subst hf₁ hf₂
    have hnone : ∀ k ∈ (none : Option Nat), Copyable limit other k := by simp
    have hbody := ih ((Part.each_forEach hblock).mp hp).2
      (((hf.openScope.pushNamed (hf.of_resolve? hslot) _).pushNamed hnone _).openScope.pushNamed hnone _)
    exact ⟨hf, by simp [hbody.2, IsWord]⟩
  | @switch _ _ _ n₁ _ _ _ _ _ cases _ _ _ _ _ _ he hcases _ ih =>
    intro hp hf
    obtain ⟨hs, hbodies⟩ := (Part.each_switch (n := n₁ + 1)).mp hp
    have hvalues : ∀ x ∈ (cases.map SwitchCase.value).zip (labelsFrom (n₁ + 1) cases.length),
        x.1.negatesLowest = true → other .t1 (2 ^ 31) :=
      fun x hx => hs.case x.1 (List.of_mem_zip hx).1
    exact ⟨hf, by simp [he.loads, hcases.loads hvalues, (ih hbodies hf).2]⟩
  | breakStmt | continueStmt | nil | noBody => exact fun _ hf => ⟨hf, by simp⟩
  | cons _ _ ih₁ ih₂ =>
    intro hp hf
    obtain ⟨h₁, h₂⟩ := Part.each_cons.mp hp
    obtain ⟨hf₁, hc₁⟩ := ih₁ h₁ hf
    obtain ⟨hf₂, hc₂⟩ := ih₂ h₂ hf₁
    exact ⟨hf₂, by simp [hc₁, hc₂]⟩
  | scope _ ih => exact fun hp hf => ⟨hf, by simp [(ih hp hf).2]⟩
  | body _ _ ih₁ ih₂ =>
    intro hp hf
    obtain ⟨h₁, h₂⟩ := Part.each_body.mp hp
    exact ⟨hf, by simp [(ih₁ h₁ hf).2, (ih₂ h₂ hf).2]⟩

theorem StmtCode.not_negatesLowest (h : StmtCode limit j f n d p c f' n' d') :
    .li .t1 (2 ^ 31) ∉ c → p.Each fun s => ∀ e ∈ s.caseValues, e.negatesLowest = false := by
  have hblock : ∀ span body, ∀ e ∈ (Stmt.block span body).caseValues, e.negatesLowest = false := by
    simp [Stmt.caseValues]
  induction h with
  | declared | zeroed | inferred | arrayDecl | expr | print | breakStmt | continueStmt =>
    intro _
    rw [Part.each_leaf (by simp [Stmt.parts])]
    simp [Stmt.caseValues]
  | block _ ih => exact fun hc => (Part.each_block hblock).mpr (ih hc)
  | ifElse _ _ _ ih₁ ih₂ =>
    intro hc
    simp only [List.mem_append, not_or] at hc
    exact (Part.each_ifElse hblock).mpr ⟨by simp [Stmt.caseValues], ih₁ (by tauto), ih₂ (by tauto)⟩
  | ifThen _ _ ih =>
    intro hc
    simp only [List.mem_append, not_or] at hc
    exact (Part.each_ifThen hblock).mpr ⟨by simp [Stmt.caseValues], ih (by tauto)⟩
  | whileLoop _ _ ih =>
    intro hc
    simp only [List.mem_append, not_or] at hc
    exact (Part.each_whileLoop hblock).mpr ⟨by simp [Stmt.caseValues], ih (by tauto)⟩
  | forLoop _ _ _ _ ih₁ ih₂ =>
    intro hc
    simp only [List.mem_append, not_or] at hc
    exact (Part.each_forLoop hblock).mpr ⟨by simp [Stmt.caseValues], ih₁ (by tauto), ih₂ (by tauto)⟩
  | forEach _ _ _ _ _ _ ih =>
    intro hc
    simp only [List.mem_append, List.mem_cons, not_or] at hc
    exact (Part.each_forEach hblock).mpr ⟨by simp [Stmt.caseValues], ih (by tauto)⟩
  | @switch _ _ _ n₁ _ _ _ _ _ cases _ _ _ _ _ _ _ hcases _ ih =>
    intro hc
    simp only [List.mem_append, not_or] at hc
    refine (Part.each_switch (n := n₁ + 1)).mpr ⟨?_, ih (by tauto)⟩
    have hzip : ((cases.map SwitchCase.value).zip (labelsFrom (n₁ + 1) cases.length)).map Prod.fst =
        cases.map SwitchCase.value := List.map_fst_zip (by simp)
    intro e he
    rw [Stmt.caseValues, ← hzip] at he
    obtain ⟨x, hx, rfl⟩ := List.mem_map.mp he
    rw [← Bool.not_eq_true]
    exact fun hnegates => hc.1.1.1.2 (hcases.mem hx hnegates)
  | nil => exact fun _ => Part.each_nil
  | noBody => exact fun _ => Part.each_noBody
  | cons _ _ ih₁ ih₂ =>
    intro hc
    simp only [List.mem_append, not_or] at hc
    exact Part.each_cons.mpr ⟨ih₁ hc.1, ih₂ hc.2⟩
  | scope _ ih =>
    intro hc
    simp only [List.mem_append, not_or] at hc
    exact ih hc.1
  | body _ _ ih₁ ih₂ =>
    intro hc
    simp only [List.mem_append, List.mem_cons, not_or] at hc
    exact Part.each_body.mpr ⟨ih₁ hc.1.2, ih₂ hc.2⟩

end Statements

/-! Files -/

section Files

variable {config : GeneratorConfig} {p : Program} {file : File} {rd : Register} {n : Int}

theorem Routine.loads_lines : ∀ r ∈ Routine.all, ∀ l ∈ r.lines, ∀ x ∈ l.loaded?, IsWord x.2 := by
  decide +kernel

theorem loads_main (h : generate config p = .ok file) : Loads (Oversized config.unrollLimit p) file.main := by
  obtain ⟨c, f, n, d, hcode, hmain, _⟩ := stmtCode_of_generate h
  have haccounted : (Part.seq p.statements).Each (Accounted config.unrollLimit (Oversized config.unrollLimit p)) := by
    intro s hs
    refine ⟨fun e he hnegates => .negated hs he hnegates, ?_⟩
    intro length hlength hlimit
    by_cases hword : length < 2 ^ 31
    · exact .inl ⟨by omega, by exact_mod_cast hword⟩
    · exact .inr (.copied hs hlength hlimit (Nat.le_of_not_lt hword))
  have hloads := (hcode.loads haccounted .empty).2
  rw [hmain, loads_append]
  exact ⟨fun l hl => hloads l (mem_of_mem_shown hl), loads_release⟩

theorem loads_runtime (h : generate config p = .ok file) {other : Register → Int → Prop} :
    Loads other file.runtime := by
  intro l hl x hx
  obtain ⟨r, -, hl⟩ := exists_routine_of_mem_runtime h hl
  exact .inl (Routine.loads_lines r r.mem_all l hl x hx)

theorem instruction_mem_shown {comments : Bool} {i : Instruction} (h : .instruction i ∈ c) :
    .instruction i ∈ Line.shown comments c := by
  unfold Line.shown
  split
  · exact h
  · exact List.mem_filter.mpr ⟨h, rfl⟩

theorem li_mem_main (h : generate config p = .ok file) {s : Stmt} {e : Expr}
    (hs : s ∈ Stmt.partsOfAll p.statements) (he : e ∈ s.caseValues) (hnegates : e.negatesLowest = true) :
    .li .t1 (2 ^ 31) ∈ file.main := by
  obtain ⟨c, f, n, d, hcode, hmain, _⟩ := stmtCode_of_generate h
  by_contra hnot
  have hc : .li .t1 (2 ^ 31) ∉ c := by
    intro hmem
    apply hnot
    rw [hmain]
    exact List.mem_append_left _ (instruction_mem_shown hmem)
  have := hcode.not_negatesLowest hc s hs e he
  rw [hnegates] at this
  cases this

/--
Every number that the lines of a file load is a word, or one of two others that only some programs have: the label of a
case that negates the lowest int, and the length of a list that is copied and has more elements than a word can count.
The first of them is loaded whenever the program has such a case.
-/
theorem loads_of_generate (h : generate config p = .ok file) :
    (∀ rd n, .li rd n ∈ File.entry ++ file.main ++ File.exit ++ file.runtime →
      IsWord n ∨ Oversized config.unrollLimit p rd n) ∧
    (.li .t1 (2 ^ 31) ∈ file.main ↔
      ∃ s ∈ Stmt.partsOfAll p.statements, ∃ e ∈ s.caseValues, e.negatesLowest = true) := by
  have hmain := loads_main h
  refine ⟨?_, ?_, ?_⟩
  · intro rd n hmem
    have hentry : Loads (Oversized config.unrollLimit p) File.entry := by simp [File.entry]
    have hexit : Loads (Oversized config.unrollLimit p) File.exit := by simp [File.exit, IsWord]
    have hall : Loads (Oversized config.unrollLimit p) (File.entry ++ file.main ++ File.exit ++ file.runtime) := by
      simp [hentry, hmain, hexit, loads_runtime h]
    exact lineLoads_li.mp (hall _ hmem)
  · intro hmem
    rcases lineLoads_li.mp (hmain _ hmem) with hword | hover
    · exact absurd hword (by decide)
    · generalize hrd : Register.t1 = rd at hover
      cases hover with
      | negated hs he hnegates => exact ⟨_, hs, _, he, hnegates⟩
      | copied => cases hrd
  · rintro ⟨s, hs, e, he, hnegates⟩
    exact li_mem_main h hs he hnegates

def negatedCase : Program where
  statements := [
    .switch .unplaced (.literal .unplaced (.int 1)) [
      .mk .unplaced (.grouping .unplaced (.unary .unplaced .neg (.literal .unplaced (.int (-2147483648))))) []] none]

theorem loads_negatedCase :
    ∃ file, generate .default negatedCase = .ok file ∧ .li .t1 (2 ^ 31) ∈ file.main ∧
      ∀ rd n, .li rd n ∈ File.entry ++ file.main ++ File.exit ++ file.runtime →
        IsWord n ∨ Oversized GeneratorConfig.default.unrollLimit negatedCase rd n := by
  have haccepted : (generate .default negatedCase).isOk = true := by decide +kernel
  cases h : generate .default negatedCase with
  | error e =>
    rw [h] at haccepted
    cases haccepted
  | ok file =>
    obtain ⟨hloads, hnegated⟩ := loads_of_generate h
    refine ⟨file, rfl, hnegated.mpr ?_, hloads⟩
    rw [negatedCase, Stmt.partsOfAll_cons, Stmt.parts]
    exact ⟨_, List.mem_append_left _ List.mem_cons_self, _, List.mem_cons_self, rfl⟩

theorem not_isWord_negatedCase :
    ¬ ∀ config p file, generate config p = .ok file →
      ∀ rd n, .li rd n ∈ file.main ++ file.runtime → IsWord n := by
  have hmem : (generate .default negatedCase).toOption.all (fun file => .li .t1 2147483648 ∈ file.main) = true := by
    decide +kernel
  have haccepted : (generate .default negatedCase).isOk = true := by decide +kernel
  intro hwords
  cases h : generate .default negatedCase with
  | error e =>
    rw [h] at haccepted
    cases haccepted
  | ok file =>
    rw [h] at hmem
    have hmem := of_decide_eq_true hmem
    exact absurd (hwords _ _ _ h _ _ (List.mem_append_left _ hmem)) (by decide)

end Files

end Lowering

end Arbor
