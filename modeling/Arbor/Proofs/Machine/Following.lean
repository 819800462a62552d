import Arbor.Proofs.Machine.Elements

/-!
This module contains the code of expressions on ints, bools and chars that read and assign the elements of arrays. In
every workspace it keeps up with the evaluation of the expression.
-/

namespace Arbor

open Lowering (Frame Slot SlotKind addressCode BinaryCode UnaryCode LiteralCode ExprCode ConvertCode singleChar?)

/-! Frames -/

namespace Lowering.Frame

variable {f g : Frame} {name : String} {offset : Int} {slot slot' : Slot}

inductive Above (f : Frame) : Frame → Prop where
  | refl : f.Above f
  | push {g : Frame} {kind : SlotKind} {len : Option Nat} : f.Above g → f.Above (g.push kind len)

theorem Above.resolve? (h : f.Above g) (hslot : f.resolve? name = some (offset, slot)) :
    ∃ offset, g.resolve? name = some (offset, slot) := by
  induction h with
  | refl => exact ⟨offset, hslot⟩
  | push _ ih =>
    obtain ⟨offset, hslot⟩ := ih
    exact ⟨_, by rw [resolve?_push, hslot, Option.map_some]⟩

theorem Above.slot_eq (h : f.Above g) (hslot : f.resolve? name = some (offset, slot)) {offset' : Int}
    (hslot' : g.resolve? name = some (offset', slot')) : slot' = slot := by
  obtain ⟨_, hfound⟩ := h.resolve? hslot
  rw [hfound] at hslot'
  cases hslot'
  rfl

theorem Above.place?_eq (h : f.Above g) (name : String) : g.place? name = f.place? name := by
  induction h with
  | refl => rfl
  | push _ ih => rw [place?_push, ih]

end Lowering.Frame

/-! Expressions -/

theorem Lowering.BinaryCode.kind_eq {op : BinaryOp} {left right kind kind' : SlotKind} {c c' : List Assembly.Line}
    (h : BinaryCode op left right kind c) (h' : BinaryCode op left right kind' c') : kind = kind' := by
  have hwords {k : SlotKind} (hk : Lowering.comparesWords op k = true) : op.cls ≠ .arithmetic := by
    cases op <;> simp_all [Lowering.comparesWords, BinaryOp.cls]
  have htext {k : SlotKind} (hk : k.isText = true) : k.isNumeric = false := by
    unfold SlotKind.isText at hk
    split at hk <;> first | rfl | cases hk
  have hadd : BinaryOp.add.cls = .arithmetic := rfl
  have hint : SlotKind.int.isText = false := rfl
  cases h <;> cases h' <;> first | rfl | simp_all

structure Declares (f : Frame) (name : String) (kind : SlotKind) : Prop where
  plain : Agreement.Plain name
  resolved : ∃ offset slot, f.resolve? name = some (offset, slot) ∧ slot.kind = kind

theorem Declares.kind_eq {f g : Frame} {name : String} {kind : SlotKind} {offset : Int} {slot : Slot}
    (h : Declares f name kind) (hg : f.Above g) (hslot : g.resolve? name = some (offset, slot)) : slot.kind = kind := by
  obtain ⟨-, _, _, hfound, hkind⟩ := h
  rw [hg.slot_eq hfound hslot, hkind]

/--
The expressions on ints, bools and chars that read and assign variables and elements of arrays, their kind, and the
number of words that their code has pushed at a time. There is no `+` on chars, which is a concatenation.
-/
inductive OnWords (f : Frame) : Expr → Scalar → Nat → Prop where
  | literal {span : Span} {l : Literal} {s : Scalar} {c : List Assembly.Line} :
    LiteralCode l (.scalar s) c → s.isCell = true → OnWords f (.literal span l) s 1
  | var {span : Span} {name : String} {s : Scalar} :
    Declares f name (.scalar s) → s.isCell = true → OnWords f (.var span name) s 1
  | step {span : Span} {name : String} {op : StepOp} :
    Declares f name .int → OnWords f (.step span name op) .int 1
  | length {span : Span} {array : String} {elem : Scalar} :
    Declares f array (.array elem) → elem.isCell = true → OnWords f (.length span array) .int 1
  | grouping {span : Span} {e : Expr} {s : Scalar} {h : Nat} :
    OnWords f e s h → OnWords f (.grouping span e) s h
  | unary {span : Span} {op : UnaryOp} {e : Expr} {s : Scalar} {h : Nat} {c : List Assembly.Line} :
    UnaryCode op (.scalar s) c → OnWords f e s h → OnWords f (.unary span op e) s h
  | logical {span : Span} {op : BinaryOp} {l r : Expr} {h h' : Nat} :
    op.cls = .logical → OnWords f l .bool h → OnWords f r .bool h' →
    OnWords f (.binary span op l r) .bool (max h h')
  | binary {span : Span} {op : BinaryOp} {l r : Expr} {left right s : Scalar} {h h' : Nat} {c : List Assembly.Line} :
    op.cls ≠ .logical → BinaryCode op (.scalar left) (.scalar right) (.scalar s) c → (op = .add → left ≠ .char) →
    OnWords f l left h → OnWords f r right h' → OnWords f (.binary span op l r) s (max h (h' + 1))
  | ternary {span : Span} {cond t e : Expr} {s : Scalar} {h h₁ h₂ : Nat} :
    OnWords f cond .bool h → OnWords f t s h₁ → OnWords f e s h₂ →
    OnWords f (.ternary span cond t e) s (max h (max h₁ h₂))
  | assign {span : Span} {name : String} {e : Expr} {s : Scalar} {h : Nat} :
    Declares f name (.scalar s) → OnWords f e s h → OnWords f (.assign span name .set e) s h
  | index {span : Span} {array : String} {i : Expr} {elem : Scalar} {h : Nat} :
    Declares f array (.array elem) → elem.isCell = true → OnWords f i .int h →
    OnWords f (.index span array i) elem h
  | indexAssign {span : Span} {array : String} {i e : Expr} {elem : Scalar} {h h' : Nat} :
    Declares f array (.array elem) → OnWords f i .int h → OnWords f e elem h' →
    OnWords f (.indexAssign span array i .set e) elem (max h (h' + 1))

namespace OnWords

variable {f : Frame} {e : Expr} {s : Scalar} {h : Nat}

theorem pos (he : OnWords f e s h) : 0 < h := by
  induction he with
  | literal | var | step | length => decide
  | grouping _ ih | unary _ _ ih | assign _ _ ih | index _ _ _ ih => exact ih
  | _ => omega

theorem isCell (he : OnWords f e s h) : s.isCell = true := by
  induction he with
  | literal _ hcell | var _ hcell => exact hcell
  | index _ hcell => exact hcell
  | step | length | logical => rfl
  | grouping _ ih | unary _ _ ih | assign _ _ ih => exact ih
  | ternary _ _ _ _ ih => exact ih
  | indexAssign _ _ _ _ ih => exact ih
  | @binary _ _ _ _ left right _ _ _ _ _ hcode hplus _ _ ihl ihr =>
    cases hcode with
    | ints | words | comparedFloats | texts => rfl
    | concatenation hleft => cases left <;> simp_all [SlotKind.isText, Scalar.isCell]
    | floats _ hleft hright hints => cases left <;> cases right <;> simp_all [SlotKind.isNumeric, Scalar.isCell]

end OnWords

namespace Machine

open Assembly Evaluation

section

variable {p : Workspace} {cx : Context} {f g : Frame} {e l r : Expr} {kind : SlotKind} {s left right elem : Scalar}
  {height h h' n n' k k' : Nat} {len : Option Nat} {c : List Line} {kept : Nat → Word} {heap heap₁ heap₂ : Heap}
  {name array : String} {span : Span} {offset : Int} {slot : Slot}

/--
The code of an expression pushes the word of its value, if there is room for a number of words above those of a frame.
What is known of the heap may be something else afterwards.
-/
structure Workspace.Pushes (p : Workspace) (cx : Context) (f : Frame) (e : Expr) (kind : SlotKind) (height : Nat)
    (heap : Heap) : Prop where
  singleChar? : singleChar? e = none
  kind_eq : ∀ {g : Frame} {n n' : Nat} {kind' : SlotKind} {len : Option Nat} {c : List Line}, f.Above g →
    ExprCode g n none e kind' len c n' → kind' = kind
  run : ∀ {g : Frame} {n n' k k' : Nat} {len : Option Nat} {c : List Line} {kept : Nat → Word}, f.Above g →
    ExprCode g n none e kind len c n' → g.slots.length + height ≤ p.limit → CodeAt p.lines k c k' →
    Triple (p.tracker.At k (p.Holds g kept)) (evaluate cx e) ((p.withHeap heap).tracker.Pushed g kept kind len k')
      p.Halts

/--
The code of an expression keeps up with its evaluation in every listing, and from every machine that agrees with the
evaluator.
-/
def Workspace.Follows (p : Workspace) (cx : Context) (f : Frame) (e : Expr) (kind : SlotKind) (height : Nat)
    (heap : Heap) : Prop :=
  ∀ ⦃lines : List Line⦄ (hlinked : Linked p.layout lines) ⦃start : Hart⦄, p.Resumes start →
    (p.relisted hlinked start).Pushes cx f e kind height heap

namespace Workspace

theorem Resumes.withHeap {start : Hart} (hstart : p.Resumes start) : (p.withHeap heap).Resumes start :=
  fun a ha => hstart a ⟨ha.spared, ha.stack, ha.regions⟩

theorem Follows.pushes (he : p.Follows cx f e kind height heap) : p.Pushes cx f e kind height heap :=
  he p.linked fun _ _ => rfl

/-! Rules -/

theorem names (hname : Declares f name (.scalar s)) (hcell : s.isCell = true) (hg : f.Above g)
    (hslot : g.resolve? name = some (offset, slot)) : p.tracker.Names name slot :=
  ⟨hname.plain, s, hname.kind_eq hg hslot, hcell⟩

theorem arraySlot (hname : Declares f name (.array s)) (hcell : s.isCell = true) (hg : f.Above g)
    (hslot : g.resolve? name = some (offset, slot)) (hkind : slot.kind = .array elem) :
    ArraySlot g name offset slot elem := by
  cases hkind.symm.trans (hname.kind_eq hg hslot)
  exact ⟨hname.plain, hslot, hkind, hcell⟩

theorem follows_binary {op : BinaryOp} {left right kind : SlotKind} {len len' : Option Nat} {v w : Value} (span : Span)
    (hcode : BinaryCode op left right kind c) (hplus : op = .add → left ≠ .char) (hroom : g.slots.length < p.limit)
    (hc : CodeAt p.lines k c k') (hv : HasCell left v) (hw : HasCell right w) :
    Triple
      (p.tracker.At k (p.Holds ((g.push left len).push right len')
        (Function.update (Function.update kept g.slots.length (wordOf v)) (g.slots.length + 1) (wordOf w))))
      (liftAt span (Value.binary op v w)) (p.tracker.Pushed g kept kind none k') p.Halts := by
  apply (Tracker.follows_binary hcode hplus hroom hc hv hw).conseq (fun _ h => h) (fun _ _ h => h)
  exact fun _ _ h => halts_of_tracker h

namespace Pushes

theorem asked (he : p.Pushes cx f e kind height heap) (hg : f.Above g)
    (hcode : ExprCode g n (some kind) e kind len c n') (hroom : g.slots.length + height ≤ p.limit)
    (hc : CodeAt p.lines k c k') :
    Triple (p.tracker.At k (p.Holds g kept)) (evaluate cx e) ((p.withHeap heap).tracker.Pushed g kept kind len k')
      p.Halts := by
  cases hcode with
  | narrowed hchar =>
    rw [he.singleChar?] at hchar
    cases hchar
  | converted _ hcode hconvert =>
    cases he.kind_eq hg hcode
    cases hconvert with
    | same =>
      rw [List.append_nil] at hc
      exact he.run hg hcode hroom hc

theorem literal {lit : Literal} (hl : LiteralCode lit (.scalar s) c) (hcell : s.isCell = true) :
    p.Pushes cx f (.literal span lit) (.scalar s) 1 p.heap where
  singleChar? := by
    cases hl with
    | string => cases hcell
    | _ => rfl
  kind_eq _ hcode := by
    cases hcode with
    | literal hl' => cases hl <;> cases hl' <;> rfl
  run hg hcode hroom hc := by
    cases hcode with
    | literal hl' =>
      refine Tracker.follows_literalCode (Nat.lt_of_succ_le hroom) hl' ?_ hc
      cases hl with
      | int | bool | char => rfl
      | float | string => cases hcell

theorem var (hname : Declares f name (.scalar s)) (hcell : s.isCell = true) :
    p.Pushes cx f (.var span name) (.scalar s) 1 p.heap where
  singleChar? := rfl
  kind_eq hg hcode := by
    cases hcode with
    | var hslot => exact hname.kind_eq hg hslot
  run hg hcode hroom hc := by
    generalize SlotKind.scalar s = kind at hcode ⊢
    cases hcode with
    | var hslot =>
      rw [evaluate]
      exact Tracker.follows_var (Nat.lt_of_succ_le hroom) (names hname hcell hg hslot) hslot hc

theorem step {op : StepOp} (hname : Declares f name .int) : p.Pushes cx f (.step span name op) .int 1 p.heap where
  singleChar? := rfl
  kind_eq hg hcode := by
    cases hcode with
    | step hslot => exact hname.kind_eq hg hslot
  run hg hcode hroom hc := by
    generalize SlotKind.int = kind at hcode ⊢
    cases hcode with
    | step hslot hlines =>
      rw [evaluate]
      exact Tracker.follows_step (Nat.lt_of_succ_le hroom) (names hname rfl hg hslot) hslot hlines hc

theorem length (hname : Declares f array (.array elem)) (hcell : elem.isCell = true) :
    p.Pushes cx f (.length span array) .int 1 p.heap where
  singleChar? := rfl
  kind_eq _ hcode := by
    cases hcode
    rfl
  run hg hcode hroom hc := by
    cases hcode with
    | length hslot hkind =>
      rw [evaluate]
      exact follows_lengthOf (arraySlot hname hcell hg hslot hkind) (Nat.lt_of_succ_le hroom) hc

theorem grouping (he : p.Pushes cx f e kind h heap) : p.Pushes cx f (.grouping span e) kind h heap where
  singleChar? := he.singleChar?
  kind_eq hg hcode := by
    cases hcode with
    | grouping hcode => exact he.kind_eq hg hcode
  run hg hcode hroom hc := by
    cases hcode with
    | grouping hcode =>
      rw [evaluate]
      exact he.run hg hcode hroom hc

theorem unary {op : UnaryOp} (hpos : 0 < h) (he : p.Pushes cx f e kind h heap) :
    p.Pushes cx f (.unary span op e) kind h heap where
  singleChar? := rfl
  kind_eq hg hcode := by
    cases hcode with
    | unary hcode => exact he.kind_eq hg hcode
  run hg hcode hroom hc := by
    cases hcode with
    | unary hcode hop =>
      exact Tracker.follows_unary (p := (p.withHeap heap).tracker) (show _ < p.limit by omega) hop
        (he.run hg hcode hroom) hc

/--
The second operand may not be evaluated.
-/
theorem logical {op : BinaryOp} (hop : op.cls = .logical) (hpos : 0 < h) (hl : p.Pushes cx f l .bool h heap₁)
    (hr : (p.withHeap heap₁).Pushes cx f r .bool h' heap₂) (hheap : heap₁.Within heap₂) :
    p.Pushes cx f (.binary span op l r) .bool (max h h') heap₂ where
  singleChar? := rfl
  kind_eq _ hcode := by
    cases hcode with
    | logical => rfl
    | binary hop' => exact absurd hop hop'
  run hg hcode hroom hc := by
    cases hcode with
    | binary hop' => exact absurd hop hop'
    | logical _ hlcode hrcode =>
      exact Tracker.follows_logical (p := (p.withHeap heap₂).tracker) hop (show _ < p.limit by omega)
        (fun h => Holds.widened (p := p.withHeap heap₁) h hheap)
        (fun hc₁ htest hm => Tracker.follows_test (hl.run hg hlcode (by omega) hc₁) htest hm)
        (hr.run hg hrcode (show _ ≤ p.limit by omega)) hc

theorem binary {op : BinaryOp} {left right : SlotKind} (hop : op.cls ≠ .logical)
    (hcode : BinaryCode op left right kind c)
    (hplus : op = .add → left ≠ .char) (hl : p.Pushes cx f l left h heap₁)
    (hr : (p.withHeap heap₁).Pushes cx f r right h' heap₂) :
    p.Pushes cx f (.binary span op l r) kind (max h (h' + 1)) heap₂ where
  singleChar? := rfl
  kind_eq hg hcode' := by
    cases hcode' with
    | logical hop' => exact absurd hop' hop
    | binary _ hlcode hrcode hbinary =>
      cases hl.kind_eq hg hlcode
      cases hr.kind_eq hg.push hrcode
      exact hbinary.kind_eq hcode
  run {g _ _ _ _ _ _ _} hg hcode' hroom hc := by
    cases hcode' with
    | logical hop' => exact absurd hop' hop
    | binary _ hlcode hrcode hbinary =>
      cases hl.kind_eq hg hlcode
      cases hr.kind_eq hg.push hrcode
      obtain ⟨m₂, hoperands, hc⟩ := codeAt_append.mp hc
      obtain ⟨m₁, hc₁, hc₂⟩ := codeAt_append.mp hoperands
      rw [evaluate_binary _ _ _ _ hop]
      apply Triple.bind (Tracker.follows_literal (hl.run hg hlcode (by omega) hc₁))
      intro v
      apply Triple.assuming fun _ hs => hs.value
      intro hv
      apply Triple.pre _ fun _ hs => hs.holds
      -- The right operand is evaluated with the left one on the stack.
      have hroom₂ : g.slots.length + 1 + h' ≤ p.limit := by omega
      apply Triple.bind (Tracker.follows_literal (hr.run hg.push hrcode hroom₂ hc₂))
      intro w
      apply Triple.assuming fun _ hs => hs.value
      intro hw
      apply Triple.pre _ fun _ hs => hs.holds
      exact follows_binary (p := p.withHeap heap₂) _ hbinary hplus (show _ < p.limit by omega) hc hv hw

theorem ternary {cond t e : Expr} {h₁ h₂ : Nat} (hcond : p.Pushes cx f cond .bool h heap₁)
    (ht : (p.withHeap heap₁).Pushes cx f t kind h₁ heap₂) (he : (p.withHeap heap₁).Pushes cx f e kind h₂ heap₂) :
    p.Pushes cx f (.ternary span cond t e) kind (max h (max h₁ h₂)) heap₂ where
  singleChar? := rfl
  kind_eq hg hcode := by
    cases hcode with
    | ternary _ htcode _ => exact ht.kind_eq hg htcode
  run {g _ _ _ _ _ _ kept} hg hcode hroom hc := by
    cases hcode with
    | ternary hccode htcode hecode =>
      exact Tracker.follows_ternary (p := (p.withHeap heap₂).tracker) (R := (p.withHeap heap₁).Holds g kept)
        (fun hc₁ htest hm => Tracker.follows_beqz (p := (p.withHeap heap₁).tracker)
          (hcond.run hg hccode (by omega) hc₁) htest hm)
        (ht.run hg htcode (show _ ≤ p.limit by omega)) (he.run hg hecode (show _ ≤ p.limit by omega)) hc

theorem assign (hname : Declares f name (.scalar s)) (hcell : s.isCell = true)
    (he : p.Pushes cx f e (.scalar s) h heap) :
    p.Pushes cx f (.assign span name .set e) (.scalar s) h heap where
  singleChar? := rfl
  kind_eq hg hcode := by
    cases hcode with
    | assign hslot hkind => rw [← hkind, hname.kind_eq hg hslot]
    | compound _ _ hop => cases hop
  run hg hcode hroom hc := by
    cases hcode with
    | compound _ _ hop => cases hop
    | assign hslot hkind hcode =>
      have hnames : (p.withHeap heap).tracker.Names _ _ := names hname hcell hg hslot
      obtain ⟨m, hc₁, hc₂⟩ := codeAt_append.mp hc
      rw [evaluate]
      apply Triple.bind (Tracker.follows_literal (he.asked hg hcode hroom hc₁))
      intro v
      apply Triple.assuming fun _ hs => hs.value
      intro hv
      rw [← hkind] at hv ⊢
      exact Tracker.follows_assign hnames hslot hv hc₂

theorem index {i : Expr} (hname : Declares f array (.array elem)) (hcell : elem.isCell = true) (hpos : 0 < h)
    (hi : p.Pushes cx f i .int h heap) : p.Pushes cx f (.index span array i) (.scalar elem) h heap where
  singleChar? := rfl
  kind_eq hg hcode := by
    cases hcode with
    | index hslot hkind =>
      cases hkind.symm.trans (hname.kind_eq hg hslot)
      rfl
  run hg hcode hroom hc := by
    cases hcode with
    | index hslot hkind hcode =>
      have ha := arraySlot hname hcell hg hslot hkind
      simp only [List.append_assoc] at hc
      obtain ⟨m, hc₁, hc₂⟩ := codeAt_append.mp hc
      rw [evaluate]
      exact follows_readElement (p := p.withHeap heap) ha (show _ < p.limit by omega) (hi.asked hg hcode hroom hc₁) hc₂

theorem indexAssign {i e : Expr} (hname : Declares f array (.array elem)) (hcell : elem.isCell = true)
    (hi : p.Pushes cx f i .int h heap₁) (he : (p.withHeap heap₁).Pushes cx f e (.scalar elem) h' heap₂) :
    p.Pushes cx f (.indexAssign span array i .set e) (.scalar elem) (max h (h' + 1)) heap₂ where
  singleChar? := rfl
  kind_eq hg hcode := by
    cases hcode with
    | indexAssign hslot hkind =>
      cases hkind.symm.trans (hname.kind_eq hg hslot)
      rfl
    | compoundIndexAssign _ _ hop => cases hop
  run {g _ _ _ _ _ _ _} hg hcode hroom hc := by
    cases hcode with
    | compoundIndexAssign _ _ hop => cases hop
    | indexAssign hslot hkind hicode hecode =>
      have ha := arraySlot hname hcell hg hslot hkind
      obtain ⟨m₂, hparts, hc⟩ := codeAt_append.mp hc
      obtain ⟨m₁, hc₁, hc₂⟩ := codeAt_append.mp hparts
      rw [evaluate]
      apply Triple.bind (Tracker.follows_literal (hi.asked hg hicode (by omega) hc₁))
      intro v
      apply Triple.assuming fun _ hs => hs.value
      intro hv
      obtain ⟨i, rfl⟩ := (hv.hasWord (by decide)).exists_int
      apply Triple.pre _ fun _ hs => hs.holds
      -- The value is evaluated with the index on the stack.
      have hroom₂ : g.slots.length + 1 + h' ≤ p.limit := by omega
      apply Triple.bind (Tracker.follows_literal (he.asked hg.push hecode hroom₂ hc₂))
      intro w
      apply Triple.assuming fun _ hs => hs.value
      intro hw
      exact follows_writeElement (p := p.withHeap heap₂) ha hw hc

end Pushes

/--
The code of expressions on words keeps up with their evaluation, and leaves the heap as it is.
-/
theorem pushes_of_onWords (he : OnWords f e s height) : p.Pushes cx f e (.scalar s) height p.heap := by
  induction he with
  | literal hl hcell => exact .literal hl hcell
  | var hname hcell => exact .var hname hcell
  | step hname => exact .step hname
  | length hname hcell => exact .length hname hcell
  | grouping _ ih => exact .grouping ih
  | unary _ he ih => exact .unary he.pos ih
  | logical hop hl _ ihl ihr => exact .logical hop hl.pos ihl ihr (.refl _)
  | @binary _ op _ _ left _ _ _ _ _ hop hcode hplus _ _ ihl ihr =>
    have hchars : op = .add → SlotKind.scalar left ≠ .char := fun hadd hchar => hplus hadd (by cases hchar; rfl)
    exact .binary hop hcode hchars ihl ihr
  | ternary _ _ _ ihc iht ihe => exact .ternary ihc iht ihe
  | assign hname he ih => exact .assign hname he.isCell ih
  | index hname hcell hi ih => exact .index hname hcell hi.pos ih
  | indexAssign hname _ he ihi ihe => exact .indexAssign hname he.isCell ihi ihe

theorem follows_of_onWords (he : OnWords f e s height) : p.Follows cx f e (.scalar s) height p.heap :=
  fun _ _ _ _ => pushes_of_onWords he

end Workspace

end

end Machine

end Arbor
