import Arbor.Proofs.Evaluation.WellKinded
import Arbor.Proofs.Machine.Tracker

/-!
This module contains the code of expressions on ints, bools and chars. It pushes the word of the value that the
expression evaluates to, and changes the variables as the evaluation does.
-/

namespace Arbor

namespace Evaluation

/-! Variables -/

section Variables

variable {s : State} {span : Span} {name : String} {b : Binding} {u v : Value} {env : Environment}

theorem writeVariable_eq (hset : s.env.set name v = .ok env) :
    writeVariable span name v s = .ok () { s with env } := by
  change EStateM.bind (liftAt span (s.env.set name v)) setEnvironment s = _
  rw [hset]
  rfl

def combined (op : AssignOp) (old v : Value) : Except EvalErrorKind Value :=
  match op.combine? with
  | none => .ok v
  | some op => Value.binary op old v

theorem assign_eq {op : AssignOp} (hget : s.env.get name = .ok b) (hu : combined op b.value v = .ok u)
    (hcoerce : u.coerce b.kind = .ok u) (hset : s.env.set name u = .ok env) :
    assign span name op v s = .ok u { s with env } := by
  have hassign : assign span name op v s = (do
      writeVariable span name u
      return u : Run Value) s := by
    have hstored : assignValue span name b.kind u = (do
        writeVariable span name u
        return u : Run Value) := by
      unfold assignValue
      rw [hcoerce]
    rw [← hstored]
    change EStateM.bind (liftAt span (s.env.get name)) _ s = _
    rw [hget]
    cases op with
    | set =>
      cases hu
      rfl
    | add | sub =>
      dsimp only [combined, AssignOp.combine?] at hu
      change EStateM.bind (liftAt span (Value.binary _ b.value v)) (assignValue span name b.kind) s = _
      rw [hu]
      rfl
  rw [hassign]
  change EStateM.bind (writeVariable span name u) _ s = _
  unfold EStateM.bind
  rw [writeVariable_eq hset]
  rfl

theorem stepVariable_eq {op : StepOp} (hget : s.env.get name = .ok b) (hstep : Value.step op b.value = .ok u)
    (hset : s.env.set name u = .ok env) : stepVariable span name op s = .ok u { s with env } := by
  change EStateM.bind (readVariable span name) _ s = _
  unfold EStateM.bind
  rw [readVariable_eq hget]
  change EStateM.bind (liftAt span (Value.step op b.value)) _ s = _
  rw [hstep]
  change EStateM.bind (writeVariable span name u) _ s = _
  unfold EStateM.bind
  rw [writeVariable_eq hset]
  rfl

end Variables

/-! Logical operators -/

theorem evaluate_logical (cx : Context) {op : BinaryOp} {l r : Expr} (hop : op.cls = .logical) :
    evaluate cx (.binary span op l r) = (do
      let b ← condition l.span (evaluate cx l)
      if b = (op == .and) then return .bool (← condition r.span (evaluate cx r))
      else return .bool b) := by
  cases op with
  | and =>
    rw [evaluate]
    congr 1
    funext b
    cases b <;> rfl
  | or =>
    rw [evaluate]
    congr 1
    funext b
    cases b <;> rfl
  | _ => cases hop

end Evaluation

namespace Machine.Tracker

open Assembly Evaluation
open Lowering (Frame Slot SlotKind ExprCode LiteralCode boolWord)

/-! Values that are asked for -/

section Values

variable {p : Tracker} {k : Nat} {f : Frame} {kept : Nat → Word} {kind : SlotKind} {len : Option Nat}
  {span : Span} {P : State → Prop} {E : Halt → State → Prop} {x : Run Value}

theorem follows_literal (hx : Triple P x (p.Pushed f kept kind len k) E) :
    Triple P (literal span x) (p.Pushed f kept kind len k) E := by
  apply Triple.literal hx (fun _ _ hs _ => hs)
  intro fn s e hs
  cases hs.value.isLiteral

theorem follows_condition (hx : Triple P x (p.Pushed f kept .bool len k) E) :
    Triple P (condition span x) (fun b => p.Pushed f kept .bool len k (.bool b)) E := by
  apply Triple.condition (follows_literal hx) (fun _ _ hs => hs)
  exact fun v s hs hne => (hne hs.value.kind_eq).elim

end Values

section Forms

variable {p : Tracker} {k k₁ k₂ k' m n : Nat} {f : Frame} {kept : Nat → Word} {kind : SlotKind}
  {len len' : Option Nat} {span : Span} {P : State → Prop} {E : Halt → State → Prop} {cx : Context}
  {c c₁ c₂ c₃ : List Line} {v : Value} {l : Label}

theorem follows_test {x : Run Value} {isAnd : Bool} (hx : Triple P x (p.Pushed f kept .bool len k) E)
    (hc : CodeAt p.lines k (pop .t0 ++ [Lowering.shortcut isAnd l]) k') (hm : p.lines[m]? = some (.label l)) :
    Triple P (condition span x) (fun b => p.At (if b = isAnd then k' else m) (p.Holds f kept)) E := by
  apply (follows_condition hx).post
  rintro b s ⟨-, core, hg, h⟩
  exact tested hg h hc hm

theorem follows_beqz {x : Run Value} (hx : Triple P x (p.Pushed f kept .bool len k) E)
    (hc : CodeAt p.lines k (pop .t0 ++ [.beqz .t0 l]) k') (hm : p.lines[m]? = some (.label l)) :
    Triple P (condition span x) (fun b => p.At (if b then k' else m) (p.Holds f kept)) E := by
  have hc : CodeAt p.lines k (pop .t0 ++ [Lowering.shortcut true l]) k' := hc
  exact follows_test hx hc hm

theorem follows_logical {op : BinaryOp} {l r : Expr} {R : State → Core → Prop} (hop : op.cls = .logical)
    (hroom : p.HasRoom f.slots.length) (hR : ∀ {s core}, R s core → p.Holds f kept s core)
    (hl : ∀ {k₁ k₂ m}, CodeAt p.lines k c₁ k₁ →
      CodeAt p.lines k₁ (pop .t0 ++ [Lowering.shortcut (op == .and) (.numbered n)]) k₂ →
      p.lines[m]? = some (.label (.numbered n)) → Triple P (condition l.span (evaluate cx l))
        (fun b => p.At (if b = (op == .and) then k₂ else m) R) E)
    (hr : ∀ {k k'}, CodeAt p.lines k c₂ k' → Triple (p.At k R) (evaluate cx r) (p.Pushed f kept .bool len' k') E)
    (hc : CodeAt p.lines k
      (c₁ ++ pop .t0 ++ [Lowering.shortcut (op == .and) (.numbered n)] ++ c₂ ++ pop .t0
        ++ [Lowering.shortcut (op == .and) (.numbered n), .li .t0 (boolWord (op == .and)),
          .j (.numbered (n + 1)), .label (.numbered n), .li .t0 (boolWord !(op == .and)),
          .label (.numbered (n + 1))]
        ++ push .t0) k') :
    Triple P (evaluate cx (.binary span op l r)) (p.Pushed f kept .bool none k') E := by
  generalize hand : (op == .and) = isAnd at hc hl
  have hc : CodeAt p.lines k (c₁ ++ ((pop .t0 ++ [Lowering.shortcut isAnd (.numbered n)]) ++ (c₂ ++
      ((pop .t0 ++ [Lowering.shortcut isAnd (.numbered n)]) ++ (.li .t0 (boolWord isAnd) ::
        .j (.numbered (n + 1)) :: ([.label (.numbered n), .li .t0 (boolWord !isAnd),
          .label (.numbered (n + 1))] ++ push .t0)))))) k' := by
    simpa only [List.append_assoc, List.cons_append, List.nil_append] using hc
  obtain ⟨k₁, hc₁, hc⟩ := codeAt_append.mp hc
  obtain ⟨k₂, htest₁, hc⟩ := codeAt_append.mp hc
  obtain ⟨k₃, hc₂, hc⟩ := codeAt_append.mp hc
  obtain ⟨k₄, htest₂, hc⟩ := codeAt_append.mp hc
  obtain ⟨hli, hc⟩ := codeAt_instruction.mp hc
  obtain ⟨hj, hdecided⟩ := codeAt_instruction.mp hc
  have hlabels := hdecided
  simp only [List.cons_append, List.nil_append, codeAt_label, codeAt_instruction] at hlabels
  obtain ⟨hlabel, hli', hend, hpush⟩ := hlabels
  -- Both jumps lead to where the other value is loaded.
  have hother {s : State} (h : p.At (k₄ + 1 + 1) (p.Holds f kept) s) :
      p.Pushed f kept .bool none k' (.bool !isAnd) s := by
    obtain ⟨core, hg, h⟩ := h
    exact computed hg h hroom hdecided (.bool _) rfl
  have hboth {s : State} (h : p.At k₄ (p.Holds f kept) s) :
      p.Pushed f kept .bool none k' (.bool isAnd) s := by
    obtain ⟨core, hg, h⟩ := h
    have hloaded : Reaches p.layout p.lines p.start ⟨core.set .t0 (wordOf (.bool isAnd)), k₄ + 1⟩ :=
      hg.step (step_instruction hli rfl)
    have hc : CodeAt p.lines (k₄ + 1 + 1 + 1 + 1) ([.label (.numbered (n + 1))] ++ push .t0) k' :=
      codeAt_label.mpr ⟨hend, hpush⟩
    apply computed (hloaded.jump hj hend (p.unique _)) (p.set h (by decide)) hroom hc (.bool _)
    rw [Core.set_set]
    rfl
  have hresult {b : Bool} {s : State} (h : p.At (if b = isAnd then k₄ else k₄ + 1 + 1) (p.Holds f kept) s) :
      p.Pushed f kept .bool none k' (.bool b) s := by
    split at h
    · next heq =>
      subst heq
      exact hboth h
    · next hne =>
      rw [Bool.eq_not.mpr hne]
      exact hother h
  rw [evaluate_logical cx hop, hand]
  apply Triple.bind (hl hc₁ htest₁ hlabel)
  intro b
  split
  · next heq =>
    apply Triple.bind (follows_test (hr hc₂) htest₂ hlabel)
    exact fun b' => Triple.pure fun s hs => hresult hs
  · next hne =>
    apply Triple.pure
    rintro s ⟨core, hg, hs⟩
    rw [Bool.eq_not.mpr hne]
    exact hother ⟨core, hg, hR hs⟩

theorem follows_ternary {cond whenTrue whenFalse : Expr} {len₁ len₂ : Option Nat} {R : State → Core → Prop}
    (hcond : ∀ {k₁ k₂ m}, CodeAt p.lines k c₁ k₁ → CodeAt p.lines k₁ (pop .t0 ++ [.beqz .t0 (.numbered n)]) k₂ →
      p.lines[m]? = some (.label (.numbered n)) → Triple P (condition cond.span (evaluate cx cond))
        (fun b => p.At (if b then k₂ else m) R) E)
    (htrue : ∀ {k k'}, CodeAt p.lines k c₂ k' → Triple (p.At k R) (evaluate cx whenTrue)
      (p.Pushed f kept kind len₁ k') E)
    (hfalse : ∀ {k k'}, CodeAt p.lines k c₃ k' → Triple (p.At k R) (evaluate cx whenFalse)
      (p.Pushed f kept kind len₂ k') E)
    (hc : CodeAt p.lines k
      (c₁ ++ pop .t0 ++ [.beqz .t0 (.numbered n)] ++ c₂ ++ [.j (.numbered (n + 1)), .label (.numbered n)]
        ++ c₃ ++ [.label (.numbered (n + 1))]) k') :
    Triple P (evaluate cx (.ternary span cond whenTrue whenFalse)) (p.Pushed f kept kind len₂ k') E := by
  have hc : CodeAt p.lines k (c₁ ++ ((pop .t0 ++ [.beqz .t0 (.numbered n)]) ++ (c₂ ++
      (.j (.numbered (n + 1)) :: .label (.numbered n) :: (c₃ ++ [.label (.numbered (n + 1))]))))) k' := by
    simpa only [List.append_assoc, List.cons_append, List.nil_append] using hc
  obtain ⟨k₁, hc₁, hc⟩ := codeAt_append.mp hc
  obtain ⟨k₂, htest, hc⟩ := codeAt_append.mp hc
  obtain ⟨k₃, hc₂, hc⟩ := codeAt_append.mp hc
  obtain ⟨hj, hc⟩ := codeAt_instruction.mp hc
  obtain ⟨hlabel, hc⟩ := codeAt_label.mp hc
  obtain ⟨k₄, hc₃, hc⟩ := codeAt_append.mp hc
  obtain ⟨hend, rfl⟩ := codeAt_label.mp hc
  rw [evaluate]
  apply Triple.bind (hcond hc₁ htest hlabel)
  intro b
  cases b with
  | true =>
    apply (htrue hc₂).post
    rintro v s ⟨hv, core, hg, h⟩
    exact ⟨hv, core, (hg.jump hj hend (p.unique _)).label hend, p.retyped h⟩
  | false =>
    apply (hfalse hc₃).conseq
    · rintro s ⟨core, hg, h⟩
      exact ⟨core, hg.label hlabel, h⟩
    · rintro v s ⟨hv, core, hg, h⟩
      exact ⟨hv, core, hg.label hend, h⟩
    · exact fun _ _ h => h

theorem follows_var {name : String} {offset : Int} {slot : Slot} (hroom : p.HasRoom f.slots.length)
    (hname : p.Names name slot) (hslot : f.resolve? name = some (offset, slot))
    (hc : CodeAt p.lines k (.lw .t0 offset .sp :: push .t0) k') :
    Triple (p.At k (p.Holds f kept)) (readVariable span name) (p.Pushed f kept slot.kind slot.length k')
      E := by
  rintro s ⟨core, hg, h⟩
  obtain ⟨b, hget, -, hvalue, hload⟩ := p.loaded h hname hslot
  rw [readVariable_eq hget]
  apply computed hg h hroom (c := [.lw .t0 offset .sp]) hc hvalue
  rw [runLines_cons, runLine, hload]
  rfl

theorem follows_assign {name : String} {offset : Int} {slot : Slot} (hname : p.Names name slot)
    (hslot : f.resolve? name = some (offset, slot)) (hv : HasCell slot.kind v)
    (hc : CodeAt p.lines k [.lw .t0 0 .sp, .sw .t0 (offset + wordBytes) .sp] k') :
    Triple (p.Pushed f kept slot.kind len k v) (assign span name .set v) (p.Pushed f kept slot.kind len k')
      E := by
  rintro s ⟨-, core, hg, h⟩
  have hslot' : (f.push slot.kind len).resolve? name = some (offset + wordBytes, slot) := by
    rw [Frame.resolve?_push, hslot]
    rfl
  simp only [codeAt_instruction, codeAt_nil] at hc
  obtain ⟨hlw, hsw, rfl⟩ := hc
  have hloaded : Reaches p.layout p.lines p.start ⟨core.set .t0 (wordOf v), k + 1⟩ := by
    apply hg.step
    apply step_instruction hlw
    simp [effect, p.top h]
  obtain ⟨env, core', hset, hg', h', -⟩ :=
    p.stored hloaded (p.set h (by decide)) hsw hname hslot' hv (Core.get_set (by decide))
  obtain ⟨b, hget, hkind, -, -⟩ := p.loaded h hname hslot'
  have hcoerce : v.coerce b.kind = .ok v := hkind ▸ Agreement.coerce_of_kind hv.kind_eq
  rw [assign_eq hget rfl hcoerce hset]
  exact ⟨hv, core', hg', h'⟩

theorem follows_step {name : String} {op : StepOp} {offset : Int} {slot : Slot}
    (hroom : p.HasRoom f.slots.length) (hname : p.Names name slot) (hslot : f.resolve? name = some (offset, slot))
    (hop : Lowering.stepLines op slot.kind = some c)
    (hc : CodeAt p.lines k (.lw .t0 offset .sp :: c ++ [.sw .t0 offset .sp] ++ push .t0) k') :
    Triple (p.At k (p.Holds f kept)) (stepVariable span name op) (p.Pushed f kept slot.kind none k')
      E := by
  rintro s ⟨core, hg, h⟩
  have hc : CodeAt p.lines k ((.lw .t0 offset .sp :: c) ++ (.sw .t0 offset .sp :: push .t0)) k' := by
    simpa only [List.append_assoc, List.cons_append, List.nil_append] using hc
  obtain ⟨m, hcompute, hc⟩ := codeAt_append.mp hc
  obtain ⟨hsw, hpush⟩ := codeAt_instruction.mp hc
  obtain ⟨b, hget, -, hvalue, hload⟩ := p.loaded h hname hslot
  have hint : slot.kind ≠ .char := by
    rintro hchar
    rw [hchar] at hop
    cases hop
  have ht₀ : (core.set .t0 (wordOf b.value)).get .t0 = wordOf b.value := Core.get_set (by decide)
  obtain ⟨u, hu, hword, hrun⟩ := runLines_step (L := p.layout) (hvalue.hasWord hint) ht₀ hop
  rw [Core.set_set] at hrun
  have hstepped : Reaches p.layout p.lines p.start ⟨core.set .t0 (wordOf u), m⟩ := by
    apply Reaches.straight hcompute _ hg
    rw [runLines_cons, runLine, hload]
    exact hrun
  obtain ⟨env, core', hset, hg', h', hsame⟩ :=
    p.stored hstepped (p.set h (by decide)) hsw hname hslot hword.hasCell (Core.get_set (by decide))
  rw [stepVariable_eq hget hu hset]
  obtain ⟨core'', hg'', h''⟩ := p.pushed hg' h' hroom hpush
  have ht₀ : core'.get .t0 = wordOf u := (hsame .t0).trans (Core.get_set (by decide))
  rw [ht₀] at h''
  exact ⟨hword.hasCell, core'', hg'', h''⟩

theorem follows_literalCode {literal : Literal} (hroom : p.HasRoom f.slots.length)
    (hl : LiteralCode literal kind c) (hcells : (Expr.literal span literal).onCells f = true)
    (hc : CodeAt p.lines k c k') :
    Triple (p.At k (p.Holds f kept)) (evaluate cx (.literal span literal)) (p.Pushed f kept kind none k')
      E := by
  rintro s ⟨core, hg, h⟩
  cases hl with
  | @int n word hword =>
    unfold Lowering.intWord at hword
    split at hword
    · next hrange =>
      cases hword
      rw [evaluate, Value.ofLiteral, if_pos hrange]
      apply computed hg h hroom (c := [.li .t0 n.toInt]) hc (.int _)
      rw [wordOf, Int32.toBitVec_ofInt]
      rfl
    · cases hword
  | bool b => exact computed hg h hroom (c := [.li .t0 (boolWord b)]) hc (.bool b) rfl
  | char char => exact computed hg h hroom (c := [.li .t0 (charCode char)]) hc (.char char) rfl
  | float | string => cases hcells

theorem follows_unary {op : UnaryOp} {e : Expr} (hroom : p.HasRoom f.slots.length)
    (hop : Lowering.UnaryCode op kind c₂)
    (he : ∀ {k'}, CodeAt p.lines k c₁ k' → Triple P (evaluate cx e) (p.Pushed f kept kind len k') E)
    (hc : CodeAt p.lines k (c₁ ++ c₂) k') :
    Triple P (evaluate cx (.unary span op e)) (p.Pushed f kept kind none k') E := by
  obtain ⟨m, hc₁, hc₂⟩ := codeAt_append.mp hc
  have hchar : kind ≠ .char := by
    rintro rfl
    cases hop
  rw [evaluate]
  apply Triple.bind (follows_literal (he hc₁))
  rintro v s ⟨hv, core, hg, h⟩
  obtain ⟨c, u, rfl, hu, hword, hrun⟩ := runLines_unary (L := p.layout) (hv.hasWord hchar) hop
  rw [List.append_assoc] at hc₂
  obtain ⟨i, hpop, hc⟩ := codeAt_append.mp hc₂
  obtain ⟨core', hg', h', ht₀, -⟩ := p.popped hg h hpop (by decide)
  rw [hu]
  exact computed hg' h' hroom hc hword.hasCell (hrun core' ht₀)

end Forms

/--
The code of an expression keeps up with its evaluation, if there is room for all words that it pushes.
-/
theorem follows_evaluate {p : Tracker} {cx : Context} {f : Frame} {n n' : Nat} {want : Option SlotKind}
    {e : Expr} {kind : SlotKind} {len : Option Nat} {c : List Line} (hexpr : ExprCode f n want e kind len c n')
    (hcells : e.onCells f = true) (hwant : want ≠ some .float) (hnames : ∀ name ∈ e.names, ∀ slot, p.Names name slot)
    {kept : Nat → Word} (hroom : ∀ i < e.height, p.HasRoom (f.slots.length + i)) {k k' : Nat}
    (hc : CodeAt p.lines k c k') :
    Triple (p.At k (p.Holds f kept)) (evaluate cx e) (p.Pushed f kept kind len k') p.Halts := by
  induction hexpr generalizing kept k k' with
  | literal hl => exact follows_literalCode (hroom 0 (Expr.height_pos _)) hl hcells hc
  | @logical _ _ _ _ _ _ l r _ _ _ _ hop _ _ ih₁ ih₂ =>
    simp only [Expr.onCells, Bool.and_eq_true] at hcells
    simp only [Expr.names, List.forall_mem_append] at hnames
    rw [Expr.height, if_pos hop] at hroom
    have hl := l.height_pos
    have hleft {k₁ : Nat} (hc₁ : CodeAt p.lines k _ k₁) :
        Triple (p.At k (p.Holds _ kept)) (evaluate cx l) (p.Pushed _ kept .bool _ k₁) p.Halts :=
      ih₁ hcells.1.2 (by simp) hnames.1 (fun i hi => hroom i (by omega)) hc₁
    exact follows_logical hop (hroom 0 (by omega)) id (fun hc₁ htest hm => follows_test (hleft hc₁) htest hm)
      (ih₂ hcells.2 (by simp) hnames.2 fun i hi => hroom i (by omega)) hc
  | @binary f _ _ _ _ op l r left right kind len₁ len₂ _ _ _ hop hleft _ hbinary ih₁ ih₂ =>
    simp only [Expr.onCells, Bool.and_eq_true] at hcells
    simp only [Expr.names, List.forall_mem_append] at hnames
    rw [Expr.height, if_neg hop] at hroom
    have hplus : op = .add → left ≠ .char := by
      rintro rfl hchar
      simp [Expr.isChar_of_exprCode hleft hcells.1.2 hchar] at hcells
    have hl := l.height_pos
    obtain ⟨m₂, hoperands, hc⟩ := codeAt_append.mp hc
    obtain ⟨m₁, hc₁, hc₂⟩ := codeAt_append.mp hoperands
    rw [evaluate_binary _ _ _ _ hop]
    apply Triple.bind (follows_literal (ih₁ hcells.1.2 (by simp) hnames.1 (fun i hi => hroom i (by omega)) hc₁))
    intro v
    apply Triple.assuming fun _ hs => hs.value
    intro hv
    apply Triple.pre _ fun _ hs => hs.holds
    -- The right operand is evaluated with the left one on the stack.
    have hroom₂ : ∀ i < r.height, p.HasRoom ((f.push left len₁).slots.length + i) := by
      intro i hi
      have hnext := hroom (i + 1) (by omega)
      rwa [Nat.add_comm i 1, ← Nat.add_assoc] at hnext
    apply Triple.bind (follows_literal (ih₂ (by simpa using hcells.2) (by simp) hnames.2 hroom₂ hc₂))
    intro w
    apply Triple.assuming fun _ hs => hs.value
    intro hw
    apply Triple.pre _ fun _ hs => hs.holds
    exact follows_binary hbinary hplus (hroom 0 (by omega)) hc hv hw
  | @unary _ _ _ _ _ e _ _ _ _ _ hop ih =>
    exact follows_unary (hroom 0 (Expr.height_pos _)) hop (ih hcells (by simp) hnames hroom) hc
  | grouping _ ih =>
    rw [evaluate]
    exact ih hcells hwant hnames hroom hc
  | @var _ _ _ _ _ slot hslot =>
    rw [evaluate]
    exact follows_var (hroom 0 (Expr.height_pos _)) (hnames _ (by simp [Expr.names]) slot) hslot hc
  | @assign f _ _ _ name e offset slot scalar _ _ hslot hkind _ ih =>
    simp only [Expr.names, List.forall_mem_cons] at hnames
    obtain ⟨m, hc₁, hc₂⟩ := codeAt_append.mp hc
    rw [← hkind] at ih ⊢
    -- Only the state tells that the variable is no float: every variable holds a cell.
    apply Triple.assuming (p := slot.kind ≠ .float)
    · rintro s ⟨core, hg, h⟩
      obtain ⟨b, -, -, hvalue, -⟩ := p.loaded h (hnames.1 slot) hslot
      exact hvalue.ne_float
    intro hfloat
    rw [evaluate]
    apply Triple.bind (follows_literal (ih hcells (by simpa using hfloat) hnames.2 hroom hc₁))
    intro v
    apply Triple.assuming fun _ hs => hs.value
    intro hv
    exact follows_assign (hnames.1 slot) hslot hv hc₂
  | @compound _ _ _ _ _ op _ _ _ _ _ _ _ _ _ _ _ _ _ hop =>
    cases op with
    | set => cases hop
    | add | sub => cases hcells
  | @step _ _ _ _ _ _ slot _ hslot hlines =>
    rw [evaluate]
    exact follows_step (hroom 0 (Expr.height_pos _)) (hnames _ (by simp [Expr.names]) slot) hslot hlines hc
  | @ternary _ _ _ _ _ _ cond t e _ _ _ _ _ _ _ _ _ _ ih₁ ih₂ ih₃ =>
    simp only [Expr.onCells, Bool.and_eq_true] at hcells
    simp only [Expr.names, List.forall_mem_append] at hnames
    rw [Expr.height] at hroom
    have hcond {k₁ : Nat} (hc₁ : CodeAt p.lines k _ k₁) :
        Triple (p.At k (p.Holds _ kept)) (evaluate cx cond) (p.Pushed _ kept .bool _ k₁) p.Halts :=
      ih₁ hcells.1.1 (by simp) hnames.1.1 (fun i hi => hroom i (by omega)) hc₁
    exact follows_ternary (fun hc₁ htest hm => follows_beqz (hcond hc₁) htest hm)
      (ih₂ hcells.1.2 (by simp) hnames.1.2 fun i hi => hroom i (by omega))
      (ih₃ hcells.2 (by simp) hnames.2 fun i hi => hroom i (by omega)) hc
  | narrowed hchar =>
    rw [Expr.not_onCells_of_singleChar? hchar] at hcells
    cases hcells
  | converted _ _ hconvert ih =>
    cases hconvert with
    | same =>
      rw [List.append_nil] at hc
      exact ih hcells (by simp) hnames hroom hc
    | widen => exact (hwant rfl).elim
  | _ => cases hcells

end Machine.Tracker

end Arbor
