import Arbor.Proofs.Lowering.ExpressionCode
import Arbor.Proofs.Machine.AnyStack
import Arbor.Proofs.Machine.Following

/-!
This module contains the assignments `+=` and `-=` to variables and to elements of arrays. The evaluator reads the
old value after the right-hand side, and the code reads it before.
-/

namespace Arbor

open Lowering (Frame Slot SlotKind ExprCode lowerExpr)

def AssignOp.onInts (op : AssignOp) (old n : Int32) : Int32 :=
  match op with
  | .set => n
  | .add => old + n
  | .sub => old - n

theorem AssignOp.onInts_inj {op : AssignOp} {old new n : Int32} (h : op ≠ .set) :
    op.onInts old n = op.onInts new n ↔ old = new := by
  cases op with
  | set => exact absurd rfl h
  | add => exact Int32.add_left_inj n
  | sub => exact Int32.sub_left_inj n

inductive Target where
  | var (name : String)
  | element (array : String) (index : Expr)

namespace Target

open Evaluation
open Machine (Workspace Heap intResult?)

def assignment (span : Span) (op : AssignOp) (e : Expr) : Target → Expr
  | var name => .assign span name op e
  | element array i => .indexAssign span array i op e

def locate (cx : Context) : Target → Run Int
  | var _ => return 0
  | element _ i => do liftAt i.span (indexOfValue (← literal i.span (evaluate cx i)))

def read (span : Span) (position : Int) : Target → Run Value
  | var name => readVariable span name
  | element array _ => readElement span array position

def write (span : Span) (position : Int) (op : AssignOp) (v : Value) : Target → Run Value
  | var name => assign span name op v
  | element array _ => writeElement span array position op v

theorem evaluate_assignment (t : Target) (cx : Context) (span : Span) (op : AssignOp) (e : Expr) :
    evaluate cx (t.assignment span op e) = (do
      let position ← t.locate cx
      t.write span position op (← literal e.span (evaluate cx e))) := by
  cases t with
  | var name =>
    rw [assignment, evaluate]
    rfl
  | element array i =>
    rw [assignment, evaluate, locate, bind_assoc]
    rfl

theorem locate_eq {cx : Context} (array : String) {e : Expr} {i : Int32} {s s' : State}
    (h : evaluate cx e s = .ok (.int i) s') : (element array e).locate cx s = .ok i.toInt s' := by
  change EStateM.bind (EStateM.bind (evaluate cx e) _) _ s = _
  unfold EStateM.bind
  rw [h]
  rfl

/--
The value of the target before the right-hand side of an assignment, the value of the right-hand side, and the value of
the target after it.
-/
structure Operands (t : Target) (cx : Context) (span : Span) (e : Expr) (position : Int) (s₀ s₁ : State)
    (old n new : Int32) : Prop where
  before : t.read span position s₀ = .ok (.int old) s₀
  operand : evaluate cx e s₀ = .ok (.int n) s₁
  after : t.read span position s₁ = .ok (.int new) s₁

def operands? (t : Target) (cx : Context) (span : Span) (e : Expr) (s : State) : Option (Int32 × Int32 × Int32) :=
  match t.locate cx s with
  | .ok position s₀ => do
    let (old, _) ← intResult? (t.read span position s₀)
    let (n, s₁) ← intResult? (evaluate cx e s₀)
    let (new, _) ← intResult? (t.read span position s₁)
    return (old, n, new)
  | .error .. => none

theorem operands?_eq {t : Target} {cx : Context} {span : Span} {e : Expr} {position : Int} {s s₀ s₁ : State}
    {old n new : Int32} (hlocate : t.locate cx s = .ok position s₀)
    (h : t.Operands cx span e position s₀ s₁ old n new) : t.operands? cx span e s = some (old, n, new) := by
  simp [operands?, hlocate, h.before, h.operand, h.after, intResult?]

def Declared (f : Frame) : Target → Prop
  | var name => Declares f name .int
  | element array _ => Declares f array (.array .int)

/--
Such a target, with an index whose code keeps up with its evaluation. What is known of the heap may be something else
afterwards.
-/
inductive OnInts (p : Workspace) (cx : Context) (f : Frame) (height : Nat) : Heap → Target → Prop where
  | var {name : String} : Declares f name .int → OnInts p cx f height p.heap (.var name)
  | element {array : String} {i : Expr} {heap : Heap} : Declares f array (.array .int) →
    p.Follows cx f i .int height heap → OnInts p cx f height heap (.element array i)

def InRange (p : Workspace) (f : Frame) (position : Int) : Target → Prop
  | .var _ => True
  | .element array _ => ∃ n slot r, f.place? array = some (n, slot) ∧ p.regions n = some r ∧ 0 ≤ position ∧
      position < r.length

end Target

theorem Evaluation.combined_ints (op : AssignOp) (old n : Int32) :
    combined op (.int old) (.int n) = .ok (.int (op.onInts old n)) := by
  cases op <;> rfl

namespace Machine

open Assembly Evaluation

section Targets

variable {f g : Frame} {t : Target} {p : Workspace} {kept : Nat → Word} {s : State}
  {core : Core} {position : Int}

theorem reads_of_inRange (span : Span) (hholds : p.Holds g kept s core) (ht : t.Declared f) (hg : f.Above g)
    (hin : t.InRange p f position) :
    ∃ old, t.read span position s = .ok (.int old) s ∧
      ∀ op n, ∃ s', t.write span position op (.int n) s = .ok (.int (op.onInts old n)) s' ∧
        t.write span position .set (.int (op.onInts old n)) s = .ok (.int (op.onInts old n)) s' := by
  cases t with
  | var name =>
    obtain ⟨hplain, _, slot, hfound, hkind⟩ := ht
    obtain ⟨offset, hslot⟩ := hg.resolve? hfound
    obtain ⟨⟨kind, value⟩, hget, hb, hvalue, -⟩ := hholds.loaded hplain hslot hkind rfl
    rw [hkind] at hb hvalue
    obtain ⟨old, rfl⟩ := (hvalue.hasWord nofun).exists_int
    cases hb
    refine ⟨old, readVariable_eq hget, fun op n => ?_⟩
    have hu : HasCell slot.kind (.int (op.onInts old n)) := hkind ▸ .int _
    obtain ⟨env, hset, -⟩ := hholds.stored hplain hslot hkind hu
    have hplain : combined .set (.int old) (.int (op.onInts old n)) = .ok (.int (op.onInts old n)) := rfl
    exact ⟨_, assign_eq hget (combined_ints op old n) rfl hset, assign_eq hget hplain rfl hset⟩
  | element array i =>
    obtain ⟨n, slot, r, hplace, hr, hpos, hlt⟩ := hin
    obtain ⟨hplain, _, slot', hfound, hkind⟩ := ht
    obtain ⟨offset, hslot⟩ := hg.resolve? hfound
    obtain ⟨n', r', items, hplace', hr', hget, hitems, haddress⟩ := hholds.array hplain hslot hkind rfl
    rw [hg.place?_eq, hplace] at hplace'
    cases hplace'
    cases hr.symm.trans hr'
    have hrange : position.toNat < items.length := by
      rw [hitems.length]
      omega
    have hin : checkedIndex position items.length = .ok position.toNat := by
      rw [checkedIndex, if_pos]
      omega
    have hold : items[position.toNat]? = some items[position.toNat] := List.getElem?_eq_getElem hrange
    obtain ⟨old, hint⟩ := ((hitems.cells _ (List.mem_of_getElem? hold)).hasWord nofun).exists_int
    rw [hint] at hold
    refine ⟨old, readElement_eq hget hin hold, fun op n => ?_⟩
    have hu : elementOf (.int (op.onInts old n)) (.scalar .int) = .ok (.int (op.onInts old n)) := rfl
    have hplain' : combined .set (.int old) (.int (op.onInts old n)) = .ok (.int (op.onInts old n)) := rfl
    obtain ⟨env, hset, -⟩ := hholds.storedElement hplain hslot hkind rfl hget haddress hitems.length hrange
      (.int (op.onInts old n))
    exact ⟨_, writeElement_eq hget hin hold (combined_ints op old n) hu hset,
      writeElement_eq hget hin hold hplain' hu hset⟩

theorem refuses_of_not_inRange (span : Span) (hholds : p.Holds g kept s core) (ht : t.Declared f) (hg : f.Above g)
    (hin : ¬t.InRange p f position) :
    ∃ err, t.read span position s = .error (.error err) s ∧
      ∀ op v, t.write span position op v s = .error (.error err) s := by
  cases t with
  | var name => exact absurd trivial hin
  | element array i =>
    obtain ⟨hplain, _, slot, hfound, hkind⟩ := ht
    obtain ⟨offset, hslot⟩ := hg.resolve? hfound
    obtain ⟨n, r, items, hplace, hr, hget, hitems, -⟩ := hholds.array hplain hslot hkind rfl
    have hout : checkedIndex position items.length = .error (.indexOutOfBounds position items.length) := by
      rw [checkedIndex, if_neg]
      rintro ⟨hpos, hlt⟩
      rw [hitems.length] at hlt
      exact hin ⟨n, slot, r, (hg.place?_eq array) ▸ hplace, hr, hpos, hlt⟩
    exact ⟨_, readElement_error hget hout, fun op v => writeElement_error hget hout⟩

end Targets

section Code

variable {cx : Context} {f : Frame} {t : Target} {span : Span} {op : AssignOp} {b : BinaryOp} {e : Expr}
  {kind : SlotKind} {len : Option Nat} {c : List Line} {n n' h h' k k' : Nat} {p : Workspace} {kept : Nat → Word}
  {heap heap₁ heap₂ : Heap}

theorem kind_of_convertCode {right : SlotKind} {c c' : List Line} (hcode : Lowering.BinaryCode b .int right kind c)
    (hconvert : Lowering.ConvertCode kind .int c') : right = .int ∧ kind = .int ∧ c' = [] := by
  cases hconvert with
  | same =>
    cases hcode with
    | ints => exact ⟨rfl, rfl, rfl⟩

theorem follows_operand (span : Span) {g : Frame} {s₀ : State} {position : Int} {kept₀ : Nat → Word}
    {len₁ len₂ : Option Nat}
    {c₁ c₂ : List Line} {m₀ m₁ m₂ m₃ : Nat} (ht : t.Declared f) (he : p.Follows cx f e .int h' heap) (hg : f.Above g)
    (hop : op.combine? = some b) (hcode : ExprCode (g.push .int len₁) n none e .int len₂ c₁ n')
    (hbinary : Lowering.BinaryCode b .int .int .int c₂) (hroom : g.slots.length + (h' + 1) ≤ p.limit)
    (hc₁ : CodeAt p.lines m₁ c₁ m₂) (hc₂ : CodeAt p.lines m₂ c₂ m₃) (hs : p.tracker.At m₀ (p.Holds g kept₀) s₀)
    (hread : Triple (· = s₀) (t.read span position) (p.tracker.Pushed g kept₀ .int len₁ m₁) p.Halts)
    (hwrite : ∀ u, HasCell .int u → Triple ((p.withHeap heap).tracker.Pushed g kept₀ .int none m₃ u)
      (t.write span position .set u) ((p.withHeap heap).tracker.Pushed f kept .int len k') p.Halts) :
    Triple (· = s₀) (do t.write span position op (← literal e.span (evaluate cx e)))
      (fun v s' => ∃ s₁ old n new, t.Operands cx span e position s₀ s₁ old n new ∧ v = .int (op.onInts new n) ∧
        t.write span position .set v s₁ = .ok v s' ∧
        ∃ s'', t.write span position .set (.int (op.onInts old n)) s₁ = .ok (.int (op.onInts old n)) s'' ∧
          (p.withHeap heap).tracker.Pushed f kept .int len k' (.int (op.onInts old n)) s'') p.Halts := by
  obtain ⟨core, hg₀, hholds⟩ := hs
  have hroom₁ : g.slots.length + 1 + h' ≤ p.limit := by omega
  have hread := hread s₀ rfl
  by_cases hin : t.InRange p f position
  · obtain ⟨old, hold, -⟩ := reads_of_inRange span hholds ht hg hin
    rw [hold] at hread
    have hoperand := (he.pushes.run hg.push hcode hroom₁ hc₁).recording hread.holds
    apply Triple.bind (hoperand.literal (fun v s hv _ => hv) fun fn s err hfn => nomatch hfn.2.value.isLiteral)
    rintro v s₁ ⟨hvalue, hpushed⟩
    obtain ⟨n, rfl⟩ := (hpushed.value.hasWord nofun).exists_int
    obtain ⟨core₁, -, hholds₁⟩ := hpushed.holds
    obtain ⟨new, hnew, hwrites⟩ := reads_of_inRange (p := p.withHeap heap) span hholds₁ ht hg.push.push hin
    obtain ⟨s', hop', hset⟩ := hwrites op n
    obtain ⟨s'', hset'', -⟩ := hwrites .set (op.onInts old n)
    have hcombined : Value.binary b (.int old) (.int n) = .ok (.int (op.onInts old n)) := by
      have hcombined := combined_ints op old n
      rwa [combined, hop] at hcombined
    have hresult := Workspace.follows_binary (p := p.withHeap heap) span hbinary (by simp)
      (show _ < p.limit by omega) hc₂ (.int old) (.int n) s₁ hpushed.holds
    rw [hcombined] at hresult
    have hstored := hwrite _ hresult.value s₁ hresult
    rw [hop']
    rw [hset''] at hstored
    exact ⟨s₁, old, n, new, ⟨hold, hvalue, hnew⟩, rfl, hset, s'', hset'', hstored⟩
  · obtain ⟨err, herr, -⟩ := refuses_of_not_inRange span hholds ht hg hin
    rw [herr] at hread
    have hexits : p.Exits := hread
    -- The machine exits before the right-hand side, so its code is run from another machine.
    let core₀ := (core.set .sp (slotAt p.base g.slots.length)).storeWord (slotAt p.base g.slots.length) 0
    let q := p.relisted p.linked ⟨core₀, m₁⟩
    have hplaced : p.Holds (g.push .int len₁) (Function.update kept₀ g.slots.length 0) s₀ core₀ :=
      hholds.placed (by omega)
    have hstart : q.tracker.At m₁ (q.Holds (g.push .int len₁) (Function.update kept₀ g.slots.length 0)) s₀ :=
      ⟨_, .refl _, hplaced.relisted p.linked⟩
    have hresumes : p.Resumes ⟨core₀, m₁⟩ := hplaced.memory
    have hoperand := ((he p.linked hresumes).run (p := q) hg.push hcode hroom₁ hc₁).recording hstart
    have hhalts : ∀ halt s, q.Halts halt s → p.Halts halt s := fun halt s _ => hexits.halts
    have hoperand := hoperand.conseq (fun _ h => h) (fun _ _ h => h) hhalts
    apply Triple.bind (hoperand.literal (fun v s hv _ => hv) fun fn s err hfn => nomatch hfn.2.value.isLiteral)
    rintro v s₁ ⟨-, -, core₁, -, hholds₁⟩
    obtain ⟨err, -, hrefused⟩ := refuses_of_not_inRange (p := q.withHeap heap) span hholds₁ ht hg.push.push hin
    rw [hrefused]
    exact hexits

/--
The code of a compound assignment combines the value of the right-hand side with the value that the target had
before it, and the evaluator combines it with the value that the target has after it.
-/
theorem follows_compoundAssignment {s : State} (ht : t.OnInts p cx f h heap₁)
    (he : (p.withHeap heap₁).Follows cx f e .int h' heap₂)
    (hop : op ≠ .set) (hcode : ExprCode f n none (t.assignment span op e) kind len c n')
    (hroom : f.slots.length + max h (h' + 2) ≤ p.limit) (hc : CodeAt p.lines k c k')
    (hs : p.tracker.At k (p.Holds f kept) s) :
    Triple (· = s) (evaluate cx (t.assignment span op e)) (fun v s' => ∃ position s₀ s₁ old n new,
        t.locate cx s = .ok position s₀ ∧ t.Operands cx span e position s₀ s₁ old n new ∧
        v = .int (op.onInts new n) ∧ t.write span position .set v s₁ = .ok v s' ∧
        ∃ s'', t.write span position .set (.int (op.onInts old n)) s₁ = .ok (.int (op.onInts old n)) s'' ∧
          (p.withHeap heap₂).tracker.Pushed f kept .int len k' (.int (op.onInts old n)) s'') p.Halts := by
  rw [Target.evaluate_assignment]
  cases ht with
  | @var name hname =>
    cases hcode with
    | assign => exact absurd rfl hop
    | compound hslot hkind hop' hecode hbinary hconvert =>
      cases hkind.symm.trans (hname.kind_eq .refl hslot)
      obtain ⟨rfl, rfl, rfl⟩ := kind_of_convertCode hbinary hconvert
      obtain ⟨m₃, hparts, hstore⟩ := codeAt_append.mp hc
      rw [List.append_nil] at hparts
      obtain ⟨m₂, hparts, hcombine⟩ := codeAt_append.mp hparts
      obtain ⟨m₁, hload, hvalue⟩ := codeAt_append.mp hparts
      have hnames : p.tracker.Names _ _ := Workspace.names hname rfl .refl hslot
      have hread : Triple (p.tracker.At k (p.Holds f kept)) (readVariable span name) (p.tracker.Pushed f kept .int _ m₁)
          p.Halts :=
        hkind ▸ Tracker.follows_var (show f.slots.length < p.limit by omega) hnames hslot hload
      rw [Target.locate, pure_bind]
      have hdeclared : (Target.var name).Declared f := hname
      apply (follows_operand span hdeclared he .refl hop' hecode hbinary (show _ ≤ p.limit by omega) hvalue hcombine hs
        (hread.pre fun _ hs' => hs' ▸ hs) ?_).post
      · rintro v s' ⟨s₁, old, n, new, h⟩
        exact ⟨0, s, s₁, old, n, new, rfl, h⟩
      · intro u hu
        have hint : SlotKind.int = _ := hkind.symm
        rw [hint] at hu ⊢
        have hnames : (p.withHeap heap₂).tracker.Names _ _ := Workspace.names hname rfl .refl hslot
        exact Tracker.follows_assign hnames hslot hu hstore
  | @element array i _ harray hi =>
    cases hcode with
    | indexAssign => exact absurd rfl hop
    | compoundIndexAssign hslot hkind hop' hicode hecode hbinary hconvert =>
      cases hkind.symm.trans (harray.kind_eq .refl hslot)
      obtain ⟨rfl, rfl, rfl⟩ := kind_of_convertCode hbinary hconvert
      have ha := Workspace.arraySlot harray rfl .refl hslot hkind
      obtain ⟨m₄, hparts, hstore⟩ := codeAt_append.mp hc
      rw [List.append_nil] at hparts
      obtain ⟨m₃, hparts, hcombine⟩ := codeAt_append.mp hparts
      obtain ⟨m₂, hparts, hvalue⟩ := codeAt_append.mp hparts
      simp only [List.append_assoc] at hparts
      obtain ⟨m₁, hindex, hread⟩ := codeAt_append.mp hparts
      have hdeclared : (Target.element array i).Declared f := harray
      have hlocate := (hi.pushes.asked .refl hicode (by omega) hindex).recording hs
      rw [Target.locate, bind_assoc]
      apply Triple.bind (hlocate.literal (fun v s hv _ => hv) fun fn s err hfn => nomatch hfn.2.value.isLiteral)
      rintro v s₀ ⟨hposition, hpushed⟩
      obtain ⟨i, rfl⟩ := (hpushed.value.hasWord nofun).exists_int
      have hroom₁ : f.slots.length + 1 + (h' + 1) ≤ p.limit := by omega
      let q := p.withHeap heap₁
      have hreads : Triple (q.tracker.Pushed f kept .int len m₁ (.int i)) (readElement span array i.toInt)
          (q.tracker.Pushed (f.push .int len) (Function.update kept f.slots.length i.toBitVec) .int none m₂) p.Halts :=
        Workspace.follows_keepingIndex (p := q) ha (show _ < p.limit by omega) hread
      have hfollows := follows_operand (p := q) span hdeclared he Lowering.Frame.Above.refl.push hop' hecode hbinary
        hroom₁ hvalue hcombine hpushed.holds (hreads.pre fun _ hs' => hs' ▸ hpushed)
        fun u hu => Workspace.follows_writeElement (p := q.withHeap heap₂) ha hu hstore
      apply hfollows.post _ s₀ rfl
      rintro v s' ⟨s₁, old, n, new, h⟩
      exact ⟨i.toInt, s₀, s₁, old, n, new, Target.locate_eq array hposition, h⟩

/--
A compound assignment in the generated code and in the evaluator. Both combine the value of the right-hand side with the
value of the target, the code with the one before the right-hand side and the evaluator with the one after it. So they
store and yield the same int if and only if the right-hand side leaves the target as it was. If the evaluation fails, so
does the machine. The code of the index and of the right-hand side is to keep up with their evaluation, and may change
what is known of the heap.
-/
theorem compoundAssignment_of_lowerExpr {g g' : Lowering.State}
    (haccepted : lowerExpr (t.assignment span op e) g = .ok kind g') (hop : op ≠ .set) :
    ∃ c len, g'.assembler = g.assembler.write c ∧
      ∀ {p : Workspace} {heap₁ heap₂ : Heap} {cx : Context} {h h' k k' : Nat} {kept : Nat → Word} {s : State},
        t.OnInts p cx g.frame h heap₁ → (p.withHeap heap₁).Follows cx g.frame e .int h' heap₂ →
        g.frame.slots.length + max h (h' + 2) ≤ p.limit → CodeAt p.lines k c k' →
        p.tracker.At k (p.Holds g.frame kept) s →
        match evaluate cx (t.assignment span op e) s with
        | .error halt s' => p.Halts halt s'
        | .ok v s' => ∃ position s₀ s₁ old n new, t.locate cx s = .ok position s₀ ∧
            t.Operands cx span e position s₀ s₁ old n new ∧
            v = .int (op.onInts new n) ∧ t.write span position .set v s₁ = .ok v s' ∧
            ∃ u s'', u = .int (op.onInts old n) ∧ t.write span position .set u s₁ = .ok u s'' ∧
              (p.withHeap heap₂).tracker.Pushed g.frame kept .int len k' u s'' ∧ (u = v ↔ old = new) := by
  obtain ⟨len, c, n, hcode, rfl⟩ := Lowering.writes_lowerExpr _ g g' kind haccepted
  refine ⟨c, len, Lowering.State.assembler_write, ?_⟩
  intro p heap₁ heap₂ cx h h' k k' kept s ht he hroom hc hs
  have hfollows := follows_compoundAssignment ht he hop hcode hroom hc hs s rfl
  cases hvalue : evaluate cx (t.assignment span op e) s with
  | error halt s' =>
    rw [hvalue] at hfollows
    exact hfollows
  | ok v s' =>
    rw [hvalue] at hfollows
    obtain ⟨position, s₀, s₁, old, n, new, hlocate, hoperands, rfl, hset, s'', hset'', hpushed⟩ := hfollows
    refine ⟨position, s₀, s₁, old, n, new, hlocate, hoperands, rfl, hset, _, s'', rfl, hset'', hpushed, ?_⟩
    rw [Value.int.injEq, AssignOp.onInts_inj hop]

end Code

/--
A right-hand side that assigns to the target, and steps the variable of its index: `(v[i] = 5) + ++i`.
-/
def rowOperand : Expr :=
  .binary .unplaced .add
    (.grouping .unplaced (.indexAssign .unplaced "v" (.var .unplaced "i") .set (.literal .unplaced (.int 5))))
    (.step .unplaced "i" .up)

def rowTarget : Target :=
  .element "v" (.var .unplaced "i")

theorem compoundAssignment_rowOperand :
    let e := rowTarget.assignment .unplaced .sub rowOperand
    ∃ cx s' core' k', evaluate cx e rowState = .ok (.int (-1)) s' ∧
      Reaches (.usual (rowLines e)) (rowLines e) ⟨rowCore, 0⟩ ⟨core', k'⟩ ∧ core'.loadWord (core'.get .sp) = -5 := by
  intro e
  let cx : Context := ⟨0, 0, fun _ _ _ => throw .outOfFuel⟩
  have hlinked : Linked (.usual (rowLines e)) (rowLines e) :=
    linked_usual (by decide +kernel) (by decide +kernel) (by decide +kernel)
  have hi : Declares rowGenerator.frame "i" .int :=
    ⟨by decide, 4, ⟨.int, 4, 0, some "i", none⟩, by decide +kernel, rfl⟩
  have hv : Declares rowGenerator.frame "v" (.array .int) :=
    ⟨by decide, 0, ⟨.array .int, 4, 0, some "v", some 2⟩, by decide +kernel, rfl⟩
  have hindex : OnWords rowGenerator.frame (.var .unplaced "i") .int 1 := .var hi rfl
  have hfive : OnWords rowGenerator.frame (.literal .unplaced (.int 5)) .int 1 :=
    .literal (@Lowering.LiteralCode.int 5 5 rfl) rfl
  have hoperand : OnWords rowGenerator.frame rowOperand .int 2 :=
    .binary (by decide) (.ints rfl) (by decide) (.grouping (.indexAssign hv hindex hfive)) (.step hi)
  have hlowered : (finished? (lowerExpr e rowGenerator)).isSome = true := by decide +kernel
  have hoperands : rowTarget.operands? cx .unplaced rowOperand rowState = some (1, 6, 5) := by decide +kernel
  have hevaluated : (intResult? (evaluate cx e rowState)).map Prod.fst = some (-1) := by decide +kernel
  obtain ⟨⟨m, s'⟩, hresult, rfl⟩ := Option.map_eq_some_iff.mp hevaluated
  obtain ⟨kind, g, haccepted⟩ := ok_of_isSome_finished? hlowered
  obtain ⟨c, len, hcode, hassigns⟩ := compoundAssignment_of_lowerExpr haccepted (by decide)
  have hlines : rowLines e = c ++ Routine.checkBounds.lines := by
    simp [rowLines, rowCode, haccepted, hcode, comments_rowGenerator, ← Array.length_toList]
  have hc : CodeAt (rowLines e) 0 c c.length := by
    rw [hlines]
    exact codeAt_start _
  have hassigned := @hassigns (rowWorkspace _ hlinked) _ _ cx 1 2 0 c.length _ rowState
    (.element hv (Workspace.follows_of_onWords hindex)) (Workspace.follows_of_onWords hoperand)
    (show _ ≤ 16 by decide +kernel) hc ⟨rowCore, .refl _, holds_rowCore hlinked⟩
  rw [eq_ok_of_intResult? hresult] at hassigned
  obtain ⟨position, s₀, s₁, old, n, new, hlocate, hparts, -, -, u, s'', rfl, -, ⟨-, core', hreaches, h⟩, -⟩ := hassigned
  cases (Target.operands?_eq hlocate hparts).symm.trans hoperands
  exact ⟨cx, s', core', c.length, eq_ok_of_intResult? hresult, hreaches,
    (Workspace.Holds.top h).trans (by decide)⟩

def selfAssignment : Expr :=
  .assign .unplaced "i" .add (.assign .unplaced "i" .set (.literal .unplaced (.int 5)))

theorem compoundAssignment_selfAssignment :
    ∃ hlinked kept cx s' core',
      (rowWorkspace (rowLines selfAssignment) hlinked).Holds rowGenerator.frame kept rowState rowCore ∧
      evaluate cx selfAssignment rowState = .ok (.int 10) s' ∧ intOf? s'.env "i" = some 10 ∧
      Reaches (.usual (rowLines selfAssignment)) (rowLines selfAssignment) ⟨rowCore, 0⟩
        ⟨core', (rowCode selfAssignment).length⟩ ∧
      core'.loadWord (core'.get .sp) = 5 ∧ core'.loadWord (slotAt 0x7fffeffc 0) = 5 := by
  have hlinked : Linked (.usual (rowLines selfAssignment)) (rowLines selfAssignment) :=
    linked_usual (by decide +kernel) (by decide +kernel) (by decide +kernel)
  let cx : Context := ⟨0, 0, fun _ _ _ => throw .outOfFuel⟩
  have hevaluated : (intResult? (evaluate cx selfAssignment rowState)).map (fun r => (r.1, intOf? r.2.env "i")) =
      some (10, some 10) := by
    decide +kernel
  obtain ⟨⟨m, s'⟩, hresult, hleft⟩ := Option.map_eq_some_iff.mp hevaluated
  obtain ⟨rfl, hi⟩ := Prod.mk.inj hleft
  have hrun : (runLines (.usual (rowLines selfAssignment)) rowCore (rowCode selfAssignment)).map (fun core =>
      (core.loadWord (core.get .sp), core.loadWord (slotAt 0x7fffeffc 0))) = some (5, 5) := by
    decide +kernel
  obtain ⟨core', hcore', hwords⟩ := Option.map_eq_some_iff.mp hrun
  obtain ⟨htop, hslot⟩ := Prod.mk.inj hwords
  exact ⟨hlinked, _, cx, s', core', holds_rowCore hlinked, eq_ok_of_intResult? hresult, hi,
    Reaches.straight (codeAt_start _) hcore' (.refl _), htop, hslot⟩

end Machine

end Arbor
