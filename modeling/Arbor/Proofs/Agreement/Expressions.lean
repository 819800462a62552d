import Arbor.Proofs.Agreement.Names
import Arbor.Proofs.Agreement.Store
import Arbor.Proofs.Evaluation.WellKinded

/-!
This module contains the evaluation of the expressions that are lowered in a frame: from a state that agrees with the
frame, an expression yields a value of the kind of its slot.
-/

namespace Arbor.Agreement

open Lowering (Frame Slot SlotKind ExprCode singleChar? embeddedCallee)
open Evaluation

/--
What is known of a value. Where a kind is asked for, the value is only convertible to it.
-/
structure Suits (want : Option SlotKind) (slotKind : SlotKind) (v : Value) : Prop where
  wellKinded : v.WellKinded
  kind : want = none → v.kind = slotKind.kind
  coerce : ∀ target, want = some target → ∃ w, v.coerce target.kind = .ok w

namespace Suits

variable {kind target : SlotKind} {v : Value}

theorem of_kind (hkind : v.kind = kind.kind) (hv : v.WellKinded) : Suits none kind v :=
  ⟨hv, fun _ => hkind, by simp⟩

theorem of_scalar {s : Scalar} (hkind : v.kind = .scalar s) : Suits none (.scalar s) v :=
  .of_kind hkind (Value.wellKinded_of_kind hkind)

theorem isLiteral {want : Option SlotKind} (h : Suits want kind v) : v.isLiteral = true := by
  cases want with
  | none => exact isLiteral_of_kind (h.kind rfl)
  | some target =>
    obtain ⟨w, hw⟩ := h.coerce target rfl
    cases v with
    | function f => cases target <;> simp [Value.coerce, SlotKind.kind] at hw
    | _ => rfl

theorem exists_int (h : Suits (some .int) kind v) : ∃ n, v = .int n := by
  obtain ⟨w, hw⟩ := h.coerce _ rfl
  cases v with
  | int n => exact ⟨n, rfl⟩
  | _ => simp [Value.coerce, SlotKind.kind] at hw

end Suits

theorem evaluate_of_singleChar? (cx : Context) {c : Char} : ∀ {e : Expr}, singleChar? e = some c →
    ∃ t, evaluate cx e = pure (.text t) ∧ t.toList = [c]
  | .literal span (.string raw), h => by
    unfold singleChar? at h
    split at h
    · next hraw =>
      cases h
      exact ⟨Text.unescape raw, rfl, hraw⟩
    · cases h
  | .grouping span e, h => by
    unfold singleChar? at h
    rw [evaluate]
    exact evaluate_of_singleChar? cx h

theorem embeddedCallee_eq {callee : Expr} {fn : Embedded} (h : embeddedCallee callee = .ok fn) :
    ∃ span, callee = .var span fn.name := by
  unfold embeddedCallee at h
  split at h
  · next span name =>
    split at h
    · next hname =>
      cases h
      unfold Embedded.ofName? at hname
      have := List.find?_some hname
      simp only [beq_iff_eq] at this
      exact ⟨span, by rw [this]⟩
    · cases h
  · cases h

theorem evaluate_call (cx : Context) {span place : Span} {fn : Embedded} {arg : Expr} {s : State}
    (hget : s.env.get fn.name = .ok ⟨.function, .function (.embedded fn)⟩) :
    evaluate cx (.call span (.var place fn.name) [arg]) s = (do
      let v ← literal arg.span (evaluate cx arg)
      liftAt span (fn.apply [v]) : Run Value) s := by
  rw [evaluate, evaluate]
  change EStateM.bind (readVariable place fn.name) _ s = _
  unfold EStateM.bind
  rw [readVariable_eq hget]
  simp only [Callable.arity, List.length_singleton, ne_eq, not_true_eq_false, if_false, evaluateAll, bind_assoc,
    pure_bind]

section

variable {cx : Context} {f : Frame} {n n' : Nat} {want : Option SlotKind} {kind : SlotKind}
  {len : Option Nat} {c : List Assembly.Line}

theorem Sound.suits_literal {span : Span} {x : Run Value} (hx : Sound f x (Suits want kind)) :
    Sound f (Evaluation.literal span x) (Suits want kind) :=
  hx.literal fun _ hv => hv.isLiteral

theorem Sound.suits_condition {span : Span} {x : Run Value} (hx : Sound f x (Suits none .bool)) :
    Sound f (Evaluation.condition span x) fun _ => True :=
  (hx.imp fun _ hv => hv.kind rfl).condition

theorem sound_logical {span : Span} {op : BinaryOp} {l r : Expr} (hop : op.cls = .logical)
    (hl : Sound f (evaluate cx l) (Suits none .bool)) (hr : Sound f (evaluate cx r) (Suits none .bool)) :
    Sound f (evaluate cx (.binary span op l r)) (Suits none .bool) := by
  have hdecided (b : Bool) : Sound f (Pure.pure (Value.bool b) : Run Value) (Suits none .bool) :=
    .pure (.of_scalar rfl)
  have hsecond : Sound f (do return Value.bool (← condition r.span (evaluate cx r)))
      (Suits none .bool) :=
    hr.suits_condition.bind fun b _ => hdecided b
  cases op with
  | and =>
    apply hl.suits_condition.bind
    intro b _
    split
    · exact hsecond
    · exact hdecided false
  | or =>
    apply hl.suits_condition.bind
    intro b _
    split
    · exact hdecided true
    · exact hsecond
  | _ => cases hop

/--
An expression that is lowered in a frame evaluates to a value of the kind that its code leaves.
-/
theorem sound_evaluate {e : Expr} (h : ExprCode f n want e kind len c n') (hnames : PlainNames e) :
    Sound f (evaluate cx e) (Suits want kind) := by
  induction h with
  | literal hl =>
    obtain ⟨v, hv, hkind⟩ := computes_literal hl
    rw [evaluate, hv]
    have hwell := Value.kind_ofLiteral hv
    exact .pure (.of_kind hkind (Value.wellKinded_of_kind hwell))
  | logical hop _ _ ih₁ ih₂ =>
    rw [plainNames_binary] at hnames
    exact sound_logical hop (ih₁ hnames.1) (ih₂ hnames.2)
  | binary hop _ _ hbinary ih₁ ih₂ =>
    rw [plainNames_binary] at hnames
    rw [evaluate_binary _ _ _ _ hop]
    apply (ih₁ hnames.1).suits_literal.bind
    intro v hv
    apply (Sound.push_iff.mp (ih₂ hnames.2)).suits_literal.bind
    intro w hw
    have hcomputes := computes_binary hbinary (hv.kind rfl) (hw.kind rfl)
    exact (Sound.computes hcomputes fun _ => Value.wellKinded_binary).imp
      fun _ hu => .of_kind hu.1 hu.2
  | unary _ hop ih =>
    rw [evaluate]
    apply (ih hnames).suits_literal.bind
    intro v hv
    have hcomputes := computes_unary hop (hv.kind rfl)
    exact (Sound.computes hcomputes fun _ => Value.wellKinded_unary).imp
      fun _ hu => .of_kind hu.1 hu.2
  | grouping _ ih =>
    rw [evaluate]
    exact ih hnames
  | var hslot =>
    rw [evaluate]
    exact (sound_readVariable (hnames _ List.mem_cons_self) hslot).imp fun _ hv => .of_kind hv.1 hv.2
  | assign hslot hkind _ ih =>
    rw [plainNames_assign] at hnames
    rw [evaluate]
    apply (ih hnames.2).suits_literal.bind
    intro v hv
    obtain ⟨w, hw⟩ := hv.coerce _ rfl
    rw [← hkind] at hw ⊢
    exact (sound_assign hnames.1 hslot hv.wellKinded ⟨w, hw⟩).imp fun _ hu => .of_kind hu.1 hu.2
  | compound hslot hkind hop _ hbinary hconvert ih =>
    rw [plainNames_assign] at hnames
    rw [evaluate]
    apply (Sound.push_iff.mp (ih hnames.2)).suits_literal.bind
    intro v hv
    rw [← hkind] at hbinary hconvert ⊢
    exact (sound_assignCompound hnames.1 hslot hop hbinary hconvert (hv.kind rfl)).imp
      fun _ hu => .of_kind hu.1 hu.2
  | step hslot hlines =>
    rw [evaluate]
    exact (sound_stepVariable (hnames _ List.mem_cons_self) hslot hlines).imp
      fun _ hv => .of_kind hv.1 hv.2
  | ternary _ _ _ ih₁ ih₂ ih₃ =>
    rw [plainNames_ternary] at hnames
    rw [evaluate]
    apply (ih₁ hnames.1).suits_condition.bind
    intro b _
    split
    · exact ih₂ hnames.2.1
    · exact ih₃ hnames.2.2
  | index hslot hkind _ ih =>
    rw [plainNames_index] at hnames
    rw [evaluate]
    apply (ih hnames.2).suits_literal.bind
    intro v hv
    obtain ⟨i, rfl⟩ := hv.exists_int
    exact (sound_readElement hnames.1 hslot hkind).imp fun _ hu => .of_kind hu.1 hu.2
  | indexAssign hslot hkind _ _ ih₁ ih₂ =>
    rw [plainNames_indexAssign] at hnames
    rw [evaluate]
    apply (ih₁ hnames.2.1).suits_literal.bind
    intro v hv
    obtain ⟨i, rfl⟩ := hv.exists_int
    apply (Sound.push_iff.mp (ih₂ hnames.2.2)).suits_literal.bind
    intro w hw
    exact (sound_writeElement hnames.1 hslot hkind hw.wellKinded (hw.coerce _ rfl)).imp
      fun _ hu => .of_kind hu.1 hu.2
  | compoundIndexAssign hslot hkind hop _ _ hbinary hconvert ih₁ ih₂ =>
    rw [plainNames_indexAssign] at hnames
    rw [evaluate]
    apply (ih₁ hnames.2.1).suits_literal.bind
    intro v hv
    obtain ⟨i, rfl⟩ := hv.exists_int
    apply (Sound.push_iff.mp (Sound.push_iff.mp (ih₂ hnames.2.2))).suits_literal.bind
    intro w hw
    exact (sound_writeElementCompound hnames.1 hslot hkind hop hbinary hconvert (hw.kind rfl)).imp
      fun _ hu => .of_kind hu.1 hu.2
  | indexOf hslot hkind _ ih =>
    rw [plainNames_indexOf] at hnames
    rw [evaluate]
    apply (ih hnames.2).suits_literal.bind
    intro v _
    exact (sound_positionOf hnames.1 hslot hkind).imp fun _ hu => .of_scalar hu
  | length hslot hkind =>
    rw [evaluate]
    exact (sound_lengthOf (hnames _ List.mem_cons_self) hslot hkind).imp fun _ hu => .of_scalar hu
  | join hslot hkind =>
    rw [evaluate]
    exact (sound_joined (hnames _ List.mem_cons_self) hslot hkind).imp fun _ hu => .of_scalar hu
  | call hcallee _ hfn ih =>
    rw [plainNames_call] at hnames
    obtain ⟨span, rfl⟩ := embeddedCallee_eq hcallee
    intro s hs
    rw [evaluate_call cx (hs.embedded _)]
    apply (ih hnames.2).suits_literal.bind _ s hs
    intro v hv
    have hcomputes := computes_apply hfn (hv.kind rfl)
    exact (Sound.computes hcomputes fun _ hu => Value.wellKinded_of_kind (Embedded.kind_apply hu)).imp
      fun _ hu => .of_kind hu.1 hu.2
  | @narrowed _ _ _ char hc =>
    obtain ⟨t, ht, hlist⟩ := evaluate_of_singleChar? cx hc
    rw [ht]
    refine .pure ⟨.text t, by simp, ?_⟩
    rintro _ ⟨⟩
    exact ⟨.char char, by simp [Value.coerce, SlotKind.kind, hlist]⟩
  | converted _ _ hconvert ih =>
    apply (ih hnames).imp
    intro v hv
    refine ⟨hv.wellKinded, by simp, ?_⟩
    rintro _ ⟨⟩
    exact coerce_of_convertCode hconvert (hv.kind rfl)

end

end Arbor.Agreement
