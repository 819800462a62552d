import Arbor.Proofs.Lowering.Level

/-!
This module contains the labels of code: no label is at two places, and the labels of the code of a tree are the
numbers that were taken while it was lowered.
-/

namespace Arbor.Lowering

open Assembly

def labelCount (l : Label) (c : List Line) : Nat :=
  c.countP fun line => line.label? == some l

variable {l : Label} {c c' : List Line}

@[simp]
theorem labelCount_nil : labelCount l [] = 0 :=
  rfl

@[simp]
theorem labelCount_append : labelCount l (c ++ c') = labelCount l c + labelCount l c' :=
  List.countP_append

@[simp]
theorem labelCount_label {l' : Label} :
    labelCount l (.label l' :: c) = labelCount l c + if l' = l then 1 else 0 := by
  simp [labelCount, Line.label?, List.countP_cons]

@[simp]
theorem labelCount_instruction {i : Instruction} :
    labelCount l (.instruction i :: c) = labelCount l c := by
  simp [labelCount, Line.label?]

@[simp]
theorem labelCount_comment {text : String} : labelCount l (.comment text :: c) = labelCount l c := by
  simp [labelCount, Line.label?]

theorem labelCount_eq_zero : labelCount l c = 0 ↔ Line.label l ∉ c := by
  unfold labelCount
  rw [List.countP_eq_zero]
  constructor
  · intro h hmem
    simpa [Line.label?] using h _ hmem
  · intro h line hline heq
    cases line with
    | label l' =>
      simp only [Line.label?, beq_iff_eq, Option.some.injEq] at heq
      exact h (heq ▸ hline)
    | _ => simp [Line.label?] at heq

def isWithin (low high : Nat) : Label → Bool
  | .numbered k => low ≤ k && k < high
  | _ => false

structure Numbered (low : Nat) (c : List Line) (high : Nat) : Prop where
  le : low ≤ high
  count : ∀ l, labelCount l c ≤ if isWithin low high l then 1 else 0

namespace Numbered

variable {a b z n : Nat}

theorem of_numbered (hle : a ≤ b) (h : ∀ k, labelCount (.numbered k) c ≤ if a ≤ k ∧ k < b then 1 else 0)
    (hother : ∀ l, (∀ k, l ≠ .numbered k) → labelCount l c = 0) : Numbered a c b := by
  refine ⟨hle, fun l => ?_⟩
  cases l with
  | numbered k => simpa [isWithin] using h k
  | _ => simp [isWithin, hother]

theorem count_numbered (h : Numbered a c b) (k : Nat) :
    labelCount (.numbered k) c ≤ if a ≤ k ∧ k < b then 1 else 0 := by
  simpa [isWithin] using h.count (.numbered k)

theorem count_other (h : Numbered a c b) (hl : ∀ k, l ≠ .numbered k) : labelCount l c = 0 := by
  have := h.count l
  cases l with
  | numbered k => exact (hl k rfl).elim
  | _ => simpa [isWithin] using this

theorem none (h : ∀ l, labelCount l c = 0) : Numbered n c n := by
  refine ⟨Nat.le_refl _, fun l => ?_⟩
  rw [h]
  exact Nat.zero_le _

theorem append (hc : Numbered a c b) (hc' : Numbered b c' z) : Numbered a (c ++ c') z := by
  apply of_numbered (Nat.le_trans hc.le hc'.le)
  · intro k
    have := hc.count_numbered k
    have := hc'.count_numbered k
    have := hc.le
    have := hc'.le
    rw [labelCount_append]
    grind
  · intro l hl
    rw [labelCount_append, hc.count_other hl, hc'.count_other hl]

theorem pair (hc : Numbered (a + 2) c b) (h : ∀ l, labelCount l c' = labelCount l c +
    (if .numbered a = l then 1 else 0) + if .numbered (a + 1) = l then 1 else 0) :
    Numbered a c' b := by
  have hle := hc.le
  apply of_numbered (by omega)
  · intro k
    have := hc.count_numbered k
    rw [h]
    grind
  · intro l hl
    rw [h, hc.count_other hl, if_neg (Ne.symm (hl _)), if_neg (Ne.symm (hl _))]

theorem first (hc : Numbered (a + 1) c b)
    (h : ∀ l, labelCount l c' = labelCount l c + if .numbered a = l then 1 else 0) :
    Numbered a c' b := by
  have hle := hc.le
  apply of_numbered (by omega)
  · intro k
    have := hc.count_numbered k
    rw [h]
    grind
  · intro l hl
    rw [h, hc.count_other hl, if_neg (Ne.symm (hl _))]

theorem cons (hc : Numbered (a + 1) c b) : Numbered a (.label (.numbered a) :: c) b :=
  hc.first fun _ => labelCount_label

theorem congr (hc : Numbered a c b) (h : ∀ l, labelCount l c' = labelCount l c) : Numbered a c' b :=
  ⟨hc.le, fun l => h l ▸ hc.count l⟩

end Numbered

section Lines

@[simp]
theorem labelCount_push {rs : Register} : labelCount l (push rs) = 0 := by
  simp [push]

@[simp]
theorem labelCount_pop {rd : Register} : labelCount l (pop rd) = 0 := by
  simp [pop]

@[simp]
theorem labelCount_release {n : Int} : labelCount l (release n) = 0 := by
  unfold release
  split <;> simp

@[simp]
theorem labelCount_syscall {n : Int} : labelCount l (syscall n) = 0 := by
  simp [syscall]

@[simp]
theorem labelCount_promotion {n : Nat} : labelCount l (promotion n) = 0 := by
  simp [promotion]

@[simp]
theorem labelCount_promotions {left right : SlotKind} :
    labelCount l (promotions left right) = 0 := by
  unfold promotions
  split <;> simp

@[simp]
theorem labelCount_spellings {left right : SlotKind} :
    labelCount l (spellings left right) = 0 := by
  unfold spellings spelling
  split <;> split <;> simp

@[simp]
theorem labelCount_divisorCheck {op : BinaryOp} : labelCount l (divisorCheck op) = 0 := by
  unfold divisorCheck
  split <;> simp

@[simp]
theorem labelCount_intOperation {op : BinaryOp} : labelCount l (intOperation op) = 0 := by
  cases op <;> simp [intOperation]

@[simp]
theorem labelCount_intComparison {op : BinaryOp} : labelCount l (intComparison op) = 0 := by
  cases op <;> simp [intComparison]

@[simp]
theorem labelCount_floatOperation {op : BinaryOp} : labelCount l (floatOperation op) = 0 := by
  cases op <;> simp [floatOperation]

@[simp]
theorem labelCount_floatComparison {op : BinaryOp} : labelCount l (floatComparison op) = 0 := by
  cases op <;> simp [floatComparison]

@[simp]
theorem labelCount_stringCode {s : String} : labelCount l (stringCode s) = 0 := by
  have hwords : ∀ words : List Int, labelCount l (words.flatMap appendWord) = 0 := by
    intro words
    induction words with
    | nil => rfl
    | cons w rest ih => simp [List.flatMap_cons, appendWord, ih]
  simp [stringCode, hwords]

@[simp]
theorem labelCount_addressCode {offset : Int} : labelCount l (addressCode offset) = 0 := by
  simp [addressCode]

@[simp]
theorem labelCount_storeElementCode {offset : Int} :
    labelCount l (storeElementCode offset) = 0 := by
  simp [storeElementCode]

@[simp]
theorem labelCount_shortcut {isAnd : Bool} {decided : Label} :
    labelCount l (shortcut isAnd decided :: c) = labelCount l c := by
  cases isAnd <;> simp [shortcut]

@[simp]
theorem labelCount_loadZero {rd : Register} {s : Scalar} :
    labelCount l (loadZero rd s :: c) = labelCount l c := by
  cases s <;> simp [loadZero]

@[simp]
theorem labelCount_printCode {character : Char} : labelCount l (printCode character) = 0 := by
  simp [printCode]

@[simp]
theorem labelCount_heapRegion : labelCount l heapRegion = 0 := by
  simp [heapRegion]

@[simp]
theorem labelCount_regionCode {d : DataSection} {length : Nat} :
    labelCount l (regionCode d length) = 0 := by
  simp [regionCode]

@[simp]
theorem labelCount_collectCode {k : Nat} : labelCount l (collectCode k) = 0 := by
  induction k with
  | zero => rfl
  | succ k ih => simp [collectCode, ih]

@[simp]
theorem labelCount_unrolledFill (length : Nat) : labelCount l (unrolledFill length) = 0 := by
  simp [labelCount_eq_zero, unrolledFill]

@[simp]
theorem labelCount_unrolledCopy (length : Nat) : labelCount l (unrolledCopy length) = 0 := by
  simp [labelCount_eq_zero, unrolledCopy]

theorem BinaryCode.labelCount {op : BinaryOp} {left right kind : SlotKind}
    (h : BinaryCode op left right kind c) : labelCount l c = 0 := by
  cases h with
  | texts => split <;> simp
  | _ => simp

theorem UnaryCode.labelCount {op : UnaryOp} {kind : SlotKind} (h : UnaryCode op kind c) :
    labelCount l c = 0 := by
  cases h <;> simp

theorem ConvertCode.labelCount {kind target : SlotKind} (h : ConvertCode kind target c) :
    labelCount l c = 0 := by
  cases h <;> simp

theorem LiteralCode.labelCount {literal : Literal} {kind : SlotKind} (h : LiteralCode literal kind c) :
    labelCount l c = 0 := by
  cases h <;> simp

theorem EmbeddedCode.labelCount {fn : Embedded} {kind result : SlotKind} {len len' : Option Nat}
    (h : EmbeddedCode fn kind len result len' c) : labelCount l c = 0 := by
  cases h <;> simp

end Lines

section Trees

variable {f f' : Frame} {n n' : Nat} {limit : Nat} {j : JumpTargets} {d d' : DataSection}

theorem ExprCode.numbered {want : Option SlotKind} {e : Expr} {kind : SlotKind} {len : Option Nat}
    (h : ExprCode f n want e kind len c n') : Numbered n c n' := by
  induction h with
  | literal hl => exact .none fun _ => hl.labelCount
  | logical _ _ _ ih₁ ih₂ => exact (ih₁.append ih₂).pair fun l => by simp; omega
  | binary _ _ _ hop ih₁ ih₂ => exact (ih₁.append ih₂).congr fun l => by simp [hop.labelCount]
  | unary _ hop ih => exact ih.congr fun l => by simp [hop.labelCount]
  | grouping _ ih => exact ih
  | var => exact .none fun _ => by simp
  | assign _ _ _ ih => exact ih.congr fun l => by simp
  | compound _ _ _ _ hop hconvert ih =>
    exact ih.congr fun l => by simp [hop.labelCount, hconvert.labelCount]
  | step _ hlines =>
    refine .none fun l => ?_
    unfold stepLines at hlines
    split at hlines <;> cases hlines <;> simp
  | ternary _ _ _ ih₁ ih₂ ih₃ => exact ((ih₁.append ih₂).append ih₃).pair fun l => by simp; omega
  | index _ _ _ ih => exact ih.congr fun l => by simp
  | indexAssign _ _ _ _ ih₁ ih₂ => exact (ih₁.append ih₂).congr fun l => by simp
  | compoundIndexAssign _ _ _ _ _ hop hconvert ih₁ ih₂ =>
    exact (ih₁.append ih₂).congr fun l => by simp [hop.labelCount, hconvert.labelCount]
  | indexOf _ _ _ ih => exact ih.congr fun l => by simp
  | length | join => exact .none fun _ => by simp
  | call _ _ hfn ih => exact ih.congr fun l => by simp [hfn.labelCount]
  | narrowed => exact .none fun _ => by simp
  | converted _ _ hconvert ih => exact ih.congr fun l => by simp [hconvert.labelCount]

theorem ItemsCode.numbered {elem? : Option Scalar} {items : List Expr} {elem : Scalar}
    (h : ItemsCode f n elem? items elem c f' n') : Numbered n c n' := by
  induction h with
  | nil => exact .none fun _ => rfl
  | known he _ ih | first he _ ih => exact he.numbered.append ih

theorem numbered_upToCode {length : Nat} {unrolled : Nat → List Line}
    {lines : Label → Label → List Line} (hunrolled : ∀ l k, labelCount l (unrolled k) = 0)
    (hlines : ∀ l top done, labelCount l (lines top done) =
      (if top = l then 1 else 0) + if done = l then 1 else 0) :
    Numbered n (upToCode limit length n unrolled lines) (n + upToLabels limit length) := by
  unfold upToCode upToLabels
  split
  · exact .none fun l => hunrolled l length
  · exact (Numbered.none (c := []) (n := n + 2) fun _ => rfl).pair fun l => by simp [hlines]

theorem labelCount_fillLoop (l top done : Label) :
    labelCount l (fillLoop top done) = (if top = l then 1 else 0) + if done = l then 1 else 0 := by
  simp [fillLoop, Nat.add_comm]

theorem labelCount_copyLoop (l top done : Label) :
    labelCount l (copyLoop top done) = (if top = l then 1 else 0) + if done = l then 1 else 0 := by
  simp [copyLoop, Nat.add_comm]

theorem ArrayCode.numbered {declared : Option Scalar} {init : ArrayInit} {elem : Scalar}
    {len : Option Nat} (h : ArrayCode limit f n d declared init elem len c n' d') :
    Numbered n c n' := by
  have hloop (m : Nat) (lines : Label → Label → List Line)
      (hlines : ∀ l top done, labelCount l (lines top done) =
        (if top = l then 1 else 0) + if done = l then 1 else 0) :
      Numbered m (lines (.numbered m) (.numbered (m + 1))) (m + 2) :=
    (Numbered.none (c := []) (n := m + 2) fun _ => rfl).pair fun l => by simp [hlines]
  cases h with
  | values hitems => exact hitems.numbered.congr fun l => by simp
  | sized =>
    exact (numbered_upToCode (fun _ => labelCount_unrolledFill)
      labelCount_fillLoop).congr
        fun l => by simp
  | computed _ hlength =>
    exact (hlength.numbered.append (hloop _ _ labelCount_fillLoop)).congr fun l => by simp
  | copied =>
    exact (numbered_upToCode (fun _ => labelCount_unrolledCopy)
      labelCount_copyLoop).congr
        fun l => by simp
  | copiedHeap => exact (hloop _ _ labelCount_copyLoop).congr fun l => by simp

theorem numbered_shownCode {kind : SlotKind} :
    Numbered n (shownCode n kind) (n + shownLabels kind) := by
  cases kind with
  | array elem => exact .none fun _ => by simp [shownCode]
  | scalar s =>
    cases s with
    | bool =>
      exact (Numbered.none (c := []) (n := n + 1) fun _ => rfl).first fun l => by simp [shownCode]
    | _ => exact .none fun _ => by simp [shownCode]

theorem PrintCode.numbered {separator : List Line} {args : List Expr}
    (h : PrintCode f n separator args c n') (hseparator : ∀ l, labelCount l separator = 0) :
    Numbered n c n' := by
  induction h with
  | nil => exact .none fun _ => rfl
  | cons he _ ih =>
    exact ((he.numbered.append numbered_shownCode).append (ih fun _ => labelCount_printCode)).congr
      fun l => by simp [hseparator]

theorem TestCode.numbered {done : Label} {cond : Option Expr} (h : TestCode f n done cond c n') :
    Numbered n c n' := by
  cases h with
  | none => exact .none fun _ => rfl
  | some he => exact he.numbered.congr fun l => by simp

theorem UpdateCode.numbered {update : Option Expr} (h : UpdateCode f n update c n') :
    Numbered n c n' := by
  cases h with
  | none => exact .none fun _ => rfl
  | some he => exact he.numbered.congr fun l => by simp

theorem CasesCode.labelCount {kind : SlotKind} {cases : List (Expr × Label)} {l : Label}
    (h : CasesCode kind cases c) : labelCount l c = 0 := by
  cases h with
  | strings hcode =>
    rw [labelCount_append, labelCount_pop, Nat.zero_add]
    induction hcode with
    | nil => rfl
    | cons _ ih => simp [ih]
  | words _ hcode =>
    rw [labelCount_append, labelCount_pop, Nat.zero_add]
    induction hcode with
    | nil => rfl
    | cons _ _ ih => simp [ih]

/--
Besides the labels of its own code, the code of the bodies of a switch places the labels they are at.
-/
def Part.labels : Part → List Label
  | .bodies entries => entries.map Prod.fst
  | _ => []

theorem count_labelsFrom {k m : Nat} {l : Label} :
    (labelsFrom m k).count l = if isWithin m (m + k) l then 1 else 0 := by
  unfold labelsFrom
  induction k generalizing m with
  | zero =>
    have : isWithin m m l = false := by
      cases l <;> simp [isWithin]
    simp [this]
  | succ k ih =>
    rw [List.range'_succ, List.map_cons, List.count_cons, ih]
    cases l with
    | numbered i => simp [isWithin]; grind
    | _ => simp [isWithin]

theorem labelCount_map_label {l : Label} {ls : List Label} :
    labelCount l (ls.map Line.label) = ls.count l := by
  unfold labelCount
  rw [List.countP_map, List.count]
  congr

theorem numbered_labelsFrom {m k : Nat} :
    Numbered m ((labelsFrom m k).map Line.label) (m + k) := by
  refine ⟨by omega, fun l => ?_⟩
  exact Nat.le_of_eq (labelCount_map_label.trans count_labelsFrom)

theorem fst_switchBodies {m : Nat} {cases : List SwitchCase} {default : Option (List Stmt)} :
    (switchBodies m cases default).map Prod.fst =
      labelsFrom m (cases.length + default.toList.length) := by
  unfold switchBodies
  rw [List.map_fst_zip]
  simp

theorem mem_labelsFrom {m k : Nat} {l : Label} :
    l ∈ labelsFrom m k ↔ ∃ i, m ≤ i ∧ i < m + k ∧ l = .numbered i := by
  simp [labelsFrom, and_assoc, eq_comm]

theorem switchDefault_mem (m : Nat) (cases : List SwitchCase) (default : Option (List Stmt))
    (done : Label) :
    switchDefault m cases default done = done ∨
      switchDefault m cases default done ∈ labelsFrom m (cases.length + default.toList.length) := by
  cases default with
  | none => exact .inl rfl
  | some body =>
    refine .inr (mem_labelsFrom.mpr ⟨m + cases.length, by omega, ?_, rfl⟩)
    simp

theorem StmtCode.numbered {p : Part} (h : StmtCode limit j f n d p c f' n' d') :
    ∃ own, Numbered n own n' ∧ ∀ l, labelCount l c = labelCount l own + p.labels.count l := by
  induction h with
  | declared _ _ he | inferred _ he | expr he =>
    exact ⟨_, he.numbered, fun l => by simp [Part.labels]⟩
  | zeroed => exact ⟨[], .none fun _ => rfl, fun l => by simp [Part.labels]⟩
  | arrayDecl _ _ harray => exact ⟨_, harray.numbered, fun l => by simp [Part.labels]⟩
  | print hargs => exact ⟨_, hargs.numbered fun _ => rfl, fun l => by simp [Part.labels]⟩
  | block _ ih => exact ih
  | ifElse hcond _ _ ih₁ ih₂ =>
    obtain ⟨own₁, h₁, hcount₁⟩ := ih₁
    obtain ⟨own₂, h₂, hcount₂⟩ := ih₂
    refine ⟨_, (hcond.numbered.append (h₁.append h₂).cons).cons, fun l => ?_⟩
    simp [Part.labels] at hcount₁ hcount₂ ⊢
    rw [hcount₁, hcount₂]
    omega
  | ifThen hcond _ ih =>
    obtain ⟨own, h, hcount⟩ := ih
    refine ⟨_, (hcond.numbered.append h).cons, fun l => ?_⟩
    simp [Part.labels] at hcount ⊢
    rw [hcount]
    omega
  | whileLoop hcond _ ih =>
    obtain ⟨own, h, hcount⟩ := ih
    refine ⟨_, (hcond.numbered.append h).cons.cons, fun l => ?_⟩
    simp [Part.labels] at hcount ⊢
    rw [hcount]
    omega
  | forLoop _ htest _ hupdate ih₁ ih₂ =>
    obtain ⟨own₁, h₁, hcount₁⟩ := ih₁
    obtain ⟨own₂, h₂, hcount₂⟩ := ih₂
    refine ⟨_, (((h₁.append htest.numbered).append h₂).append hupdate.numbered).cons.cons.cons,
      fun l => ?_⟩
    simp [Part.labels] at hcount₁ hcount₂ ⊢
    rw [hcount₁, hcount₂]
    omega
  | forEach _ _ _ _ _ _ ih =>
    obtain ⟨own, h, hcount⟩ := ih
    refine ⟨_, h.cons.cons.cons, fun l => ?_⟩
    simp [Part.labels] at hcount ⊢
    rw [hcount]
    omega
  | switch he hcases _ ih =>
    obtain ⟨own, h, hcount⟩ := ih
    refine ⟨_, he.numbered.append (numbered_labelsFrom.append h).cons, fun l => ?_⟩
    simp [Part.labels, hcases.labelCount, fst_switchBodies, labelCount_map_label] at hcount ⊢
    rw [hcount]
    omega
  | breakStmt | continueStmt => exact ⟨[], .none fun _ => rfl, fun l => by simp [Part.labels]⟩
  | nil => exact ⟨[], .none fun _ => rfl, fun l => by simp [Part.labels]⟩
  | cons _ _ ih₁ ih₂ =>
    obtain ⟨own₁, h₁, hcount₁⟩ := ih₁
    obtain ⟨own₂, h₂, hcount₂⟩ := ih₂
    refine ⟨_, h₁.append h₂, fun l => ?_⟩
    simp [Part.labels] at hcount₁ hcount₂ ⊢
    rw [hcount₁, hcount₂]
  | scope _ ih =>
    obtain ⟨own, h, hcount⟩ := ih
    exact ⟨own, h, fun l => by simpa [Part.labels] using hcount l⟩
  | noBody => exact ⟨[], .none fun _ => rfl, fun l => by simp [Part.labels]⟩
  | body _ _ ih₁ ih₂ =>
    obtain ⟨own₁, h₁, hcount₁⟩ := ih₁
    obtain ⟨own₂, h₂, hcount₂⟩ := ih₂
    refine ⟨_, h₁.append h₂, fun l => ?_⟩
    simp [Part.labels, List.count_cons] at hcount₁ hcount₂ ⊢
    rw [hcount₁, hcount₂]
    omega

end Trees

/-! Programs -/

theorem labelCount_shown {comments : Bool} : labelCount l (Line.shown comments c) = labelCount l c := by
  cases comments with
  | true => rw [Line.shown_true]
  | false =>
    unfold labelCount Line.shown
    rw [if_neg (by decide), List.countP_filter]
    apply List.countP_congr
    intro line _
    cases line <;> simp [Line.label?, Line.isComment]

theorem labelCount_main_le_one {config : GeneratorConfig} {p : Program} {file : File}
    (h : generate config p = .ok file) : labelCount l file.main ≤ 1 := by
  obtain ⟨c, f, n, d, hcode, hmain, _⟩ := stmtCode_of_generate h
  obtain ⟨own, hown, hcount⟩ := hcode.numbered
  rw [hmain, labelCount_append, labelCount_release, labelCount_shown, hcount]
  simp only [Part.labels, List.count_nil, Nat.add_zero]
  have := hown.count l
  grind

theorem eq_of_labelCount_le_one {code : List Line} (h : labelCount l code ≤ 1) {i k : Nat}
    (hi : code[i]? = some (.label l)) (hk : code[k]? = some (.label l)) : i = k := by
  induction code generalizing i k with
  | nil => simp at hi
  | cons line rest ih =>
    have hpast {m : Nat} (hm : rest[m]? = some (.label l)) : labelCount l rest ≠ 0 := by
      intro hzero
      exact labelCount_eq_zero.mp hzero (List.mem_of_getElem? hm)
    cases i with
    | zero =>
      cases k with
      | zero => rfl
      | succ k =>
        rw [List.getElem?_cons_zero, Option.some.injEq] at hi
        subst hi
        rw [labelCount_label, if_pos rfl] at h
        exact (hpast hk (by omega)).elim
    | succ i =>
      cases k with
      | zero =>
        rw [List.getElem?_cons_zero, Option.some.injEq] at hk
        subst hk
        rw [labelCount_label, if_pos rfl] at h
        exact (hpast hi (by omega)).elim
      | succ k =>
        have hle : labelCount l rest ≤ 1 :=
          Nat.le_trans (List.sublist_cons_self line rest).countP_le h
        rw [ih hle hi hk]

end Arbor.Lowering
