import Arbor.Proofs.Agreement.Operators
import Arbor.Proofs.Agreement.Scopes
import Arbor.Proofs.Evaluation.Triple

/-!
This module contains the agreement of a frame with a state of the evaluator, in which every variable has the kind of
its slot, and the operations on the variables of such a state.
-/

namespace Arbor.Agreement

open Lowering (Frame Slot SlotKind)
open Evaluation

structure Fits (slotKind : SlotKind) (b : Binding) : Prop where
  kind : b.kind = slotKind.kind
  value : b.value.kind = slotKind.kind
  wellKinded : b.value.WellKinded

/--
The scopes of a state are those of a frame.
-/
def Agrees (f : Frame) (s : State) : Prop :=
  Bound Plain (fun _ slot b => Fits slot.kind b) (fun _ => True) f s.env

def inEach (f : Frame) (base : SlotKind) (len : Option Nat) (elem : SlotKind) (name : String) : Frame :=
  ((f.openScope.pushNamed base len "#base").pushNamed .int none "#idx").openScope.pushNamed elem none name

/--
A run halts only because of its fuel, or with an error that is found only by running a program.
-/
def Expected : Halt → Prop
  | .error e => Dynamic e.kind
  | .outOfFuel => True

namespace Agrees

variable {f g : Frame} {s : State} {kind : SlotKind} {len : Option Nat} {name : String}

theorem start (config : EvaluatorConfig) : Agrees .empty (Session.start config).state :=
  Bound.start

theorem push_iff : Agrees (f.push kind len) s ↔ Agrees f s :=
  ⟨fun h => (Bound.of_push h).1, fun h => Bound.push h trivial⟩

theorem openScope (h : Agrees f s) : Agrees f.openScope { s with env := s.env.push } :=
  Bound.openScope h

theorem closeScope {added : List Slot} {t : State} (h : Agrees g s) (hfg : f.openScope.Extends g added)
    (hf : Agrees f t) : Agrees f { s with env := s.env.pop } :=
  Bound.closeScope h hfg hf

theorem openEach (h : Agrees f s) :
    Agrees ((f.openScope.pushNamed kind len "#base").pushNamed .int none "#idx").openScope
      { s with env := s.env.push } :=
  Bound.openEach h not_plain_base not_plain_idx

theorem closeEach {elem : SlotKind} (h : Agrees (inEach f kind len elem name) s) :
    Agrees f { s with env := s.env.pop } :=
  Bound.closeEach h not_plain_idx

theorem isDeclared_openEach :
    ((f.openScope.pushNamed kind len "#base").pushNamed .int none "#idx").openScope.isDeclared name =
      false := by
  simp [Frame.isDeclared, Frame.currentScope, Frame.openScope, Frame.pushNamed]

theorem get {offset : Int} {slot : Slot} (h : Agrees f s) (hname : Plain name)
    (hslot : f.resolve? name = some (offset, slot)) :
    ∃ b, s.env.get name = .ok b ∧ Fits slot.kind b := by
  obtain ⟨n, b, hfound, _⟩ := Bound.found h hname hslot
  exact ⟨b, hfound.get, hfound.holds⟩

theorem set {offset : Int} {slot : Slot} {v : Value} (h : Agrees f s) (hname : Plain name)
    (hslot : f.resolve? name = some (offset, slot)) (hkind : v.kind = slot.kind.kind)
    (hv : v.WellKinded) : ∃ env, s.env.set name v = .ok env ∧ Agrees f { s with env } := by
  obtain ⟨n, b, hfound, _⟩ := Bound.found h hname hslot
  exact hfound.set (fun _ _ _ _ h => h) (fun _ _ _ => trivial) ⟨hfound.holds.kind, hkind, hv⟩

theorem declare {v : Value} (h : Agrees f s) (hfree : f.isDeclared name = false)
    (hname : Declarable Plain name) (hkind : v.kind = kind.kind) (hv : v.WellKinded) :
    ∃ env, s.env.declare name kind.kind v = .ok env ∧
      Agrees (f.pushNamed kind len name) { s with env } :=
  Bound.declare h hfree hname ⟨rfl, hkind, hv⟩

theorem embedded (h : Agrees f s) (fn : Embedded) :
    s.env.get fn.name = .ok ⟨.function, .function (.embedded fn)⟩ :=
  Bound.embedded h fn

end Agrees

/--
From a state that agrees with a frame, a run ends or halts in such a state; a result has a property.
-/
def Sound {α : Type} (f : Frame) (x : Run α) (Q : α → Prop) : Prop :=
  Triple (Agrees f) x (fun a s => Q a ∧ Agrees f s) (fun h s => Expected h ∧ Agrees f s)

namespace Sound

variable {α β : Type} {f : Frame}

theorem pure {Q : α → Prop} {a : α} (h : Q a) : Sound f (Pure.pure a) Q :=
  Triple.pure fun _ hs => ⟨h, hs⟩

theorem bind {x : Run α} {y : α → Run β} {R : α → Prop} {Q : β → Prop} (hx : Sound f x R)
    (hy : ∀ a, R a → Sound f (y a) Q) : Sound f (x >>= y) Q := by
  apply Triple.bind hx
  intro a
  apply Triple.assuming fun _ hs => hs.1
  intro ha
  exact (hy a ha).pre fun _ hs => hs.2

theorem imp {x : Run α} {Q R : α → Prop} (hx : Sound f x Q) (h : ∀ a, Q a → R a) : Sound f x R :=
  hx.post fun a _ hs => ⟨h a hs.1, hs.2⟩

theorem raise {Q : α → Prop} {span : Span} {e : EvalErrorKind} (he : Dynamic e) :
    Sound f (Evaluation.raise span e) Q :=
  Triple.raise fun _ hs => ⟨he, hs⟩

theorem liftAt {span : Span} {x : Except EvalErrorKind α} {Q : α → Prop}
    (hok : ∀ a, x = .ok a → Q a) (herror : ∀ e, x = .error e → Dynamic e) :
    Sound f (Evaluation.liftAt span x) Q :=
  Triple.liftAt (fun a _ hx hs => ⟨hok a hx, hs⟩) (fun e _ hx hs => ⟨herror e hx, hs⟩)

theorem computes {span : Span} {kind : Kind} {x : Except EvalErrorKind Value} (h : Computes kind x)
    (hwell : ∀ v, x = .ok v → v.WellKinded) :
    Sound f (Evaluation.liftAt span x) fun v => v.kind = kind ∧ v.WellKinded := by
  cases h with
  | ok hv => exact pure ⟨hv, hwell _ rfl⟩
  | error he => exact raise he

theorem push_iff {kind : SlotKind} {len : Option Nat} {x : Run α} {Q : α → Prop} :
    Sound (f.push kind len) x Q ↔ Sound f x Q := by
  unfold Sound Triple
  simp only [Agrees.push_iff]

theorem literal {span : Span} {x : Run Value} {Q : Value → Prop} (hx : Sound f x Q)
    (hQ : ∀ v, Q v → v.isLiteral = true) : Sound f (Evaluation.literal span x) Q := by
  apply Triple.literal hx (fun _ _ hs _ => hs)
  intro fn s e hs
  cases hQ _ hs.1

theorem condition {span : Span} {x : Run Value} (hx : Sound f x fun v => v.kind = .scalar .bool) :
    Sound f (Evaluation.condition span x) fun _ => True := by
  have hliteral : Sound f (Evaluation.literal span x) fun v => v.kind = .scalar .bool := by
    apply hx.literal
    intro v hv
    exact isLiteral_of_kind (show v.kind = SlotKind.bool.kind from hv)
  apply Triple.condition hliteral (fun _ _ hs => ⟨trivial, hs.2⟩)
  exact fun v s hs hne => (hne hs.1).elim

end Sound

/-! Variables -/

section Variables

variable {f : Frame} {span : Span} {name : String} {offset : Int} {slot : Slot} {kind : SlotKind}

theorem triple_get {β : Type} {y : Binding → Run β} {Q : β → Prop} (hname : Plain name)
    (hslot : f.resolve? name = some (offset, slot))
    (hy : ∀ b, Fits slot.kind b → Sound f (y b) Q) :
    Sound f (do y (← liftAt span ((← environment).get name))) Q := by
  intro s hs
  obtain ⟨b, hget, hb⟩ := hs.get hname hslot
  have hrun : (do y (← liftAt span ((← environment).get name)) : Run β) s = y b s := by
    change EStateM.bind (liftAt span (s.env.get name)) y s = _
    rw [hget]
    rfl
  have := hy b hb s hs
  rwa [hrun]

theorem sound_readVariable (hname : Plain name) (hslot : f.resolve? name = some (offset, slot)) :
    Sound f (readVariable span name) fun v => v.kind = slot.kind.kind ∧ v.WellKinded := by
  apply triple_get hname hslot
  intro b hb
  exact .pure ⟨hb.value, hb.wellKinded⟩

theorem sound_writeVariable {v : Value} (hname : Plain name)
    (hslot : f.resolve? name = some (offset, slot)) (hkind : v.kind = slot.kind.kind)
    (hv : v.WellKinded) : Sound f (writeVariable span name v) fun _ => True := by
  intro s hs
  obtain ⟨env, hset, henv⟩ := hs.set hname hslot hkind hv
  have hrun : writeVariable span name v s = .ok () { s with env } := by
    change EStateM.bind (liftAt span (s.env.set name v)) setEnvironment s = _
    rw [hset]
    rfl
  rw [hrun]
  exact ⟨trivial, henv⟩

theorem sound_assignValue {v : Value} {b : Binding} (hname : Plain name)
    (hslot : f.resolve? name = some (offset, slot)) (hb : Fits slot.kind b) (hv : v.WellKinded)
    (hcoerce : ∃ w, v.coerce slot.kind.kind = .ok w) :
    Sound f (assignValue span name b.kind v) fun w => w.kind = slot.kind.kind ∧ w.WellKinded := by
  obtain ⟨w, hw⟩ := hcoerce
  have hkind := Value.kind_of_coerce hw
  have hwell := hv.coerce hw
  unfold assignValue
  rw [hb.kind, hw]
  exact (sound_writeVariable hname hslot hkind hwell).bind fun _ _ => .pure ⟨hkind, hwell⟩

theorem sound_assign {v : Value} (hname : Plain name) (hslot : f.resolve? name = some (offset, slot))
    (hv : v.WellKinded) (hcoerce : ∃ w, v.coerce slot.kind.kind = .ok w) :
    Sound f (assign span name .set v) fun w => w.kind = slot.kind.kind ∧ w.WellKinded := by
  apply triple_get hname hslot
  intro b hb
  exact sound_assignValue hname hslot hb hv hcoerce

theorem sound_assignCompound {v : Value} {op : AssignOp} {b : BinaryOp} {right : SlotKind}
    {c₁ c₂ : List Assembly.Line} (hname : Plain name) (hslot : f.resolve? name = some (offset, slot))
    (hop : op.combine? = some b) (hbinary : Lowering.BinaryCode b slot.kind right kind c₁)
    (hconvert : Lowering.ConvertCode kind slot.kind c₂) (hv : v.kind = right.kind) :
    Sound f (assign span name op v) fun w => w.kind = slot.kind.kind ∧ w.WellKinded := by
  apply triple_get hname hslot
  intro binding hb
  simp only [hop]
  have hcomputes := computes_binary hbinary hb.value hv
  apply (Sound.computes hcomputes fun _ => Value.wellKinded_binary).bind
  intro w hw
  exact sound_assignValue hname hslot hb hw.2 (coerce_of_convertCode hconvert hw.1)

theorem sound_stepVariable {op : StepOp} {c : List Assembly.Line} (hname : Plain name)
    (hslot : f.resolve? name = some (offset, slot)) (hop : Lowering.stepLines op slot.kind = some c) :
    Sound f (stepVariable span name op) fun w => w.kind = slot.kind.kind ∧ w.WellKinded := by
  apply (sound_readVariable hname hslot).bind
  intro v hv
  have hcomputes := computes_step hop hv.1
  apply (Sound.computes hcomputes fun _ => Value.wellKinded_step).bind
  intro w hw
  exact (sound_writeVariable hname hslot hw.1 hw.2).bind fun _ _ => .pure hw

end Variables

/-! Arrays -/

section Arrays

variable {f : Frame} {span : Span} {name : String} {offset : Int} {slot : Slot} {elem : Scalar}

theorem sound_readArray (hname : Plain name) (hslot : f.resolve? name = some (offset, slot))
    (hkind : slot.kind = .array elem) :
    Sound f (readArray span name)
      fun a => a.1 = .scalar elem ∧ (Value.array (.scalar elem) a.2).WellKinded := by
  apply (sound_readVariable hname hslot).bind
  rintro v ⟨hv, hwell⟩
  rw [hkind] at hv
  obtain ⟨items, rfl⟩ := exists_array hv
  exact .pure ⟨rfl, hwell⟩

theorem sound_copyArray (hname : Plain name) (hslot : f.resolve? name = some (offset, slot))
    (hkind : slot.kind = .array elem) :
    Sound f (copyArray span (.array (.scalar elem)) name)
      fun v => v.kind = .array (.scalar elem) ∧ v.WellKinded := by
  apply (sound_readVariable hname hslot).bind
  rintro v ⟨hv, hwell⟩
  rw [hkind] at hv
  obtain ⟨items, rfl⟩ := exists_array hv
  dsimp only
  rw [if_pos rfl]
  exact .pure ⟨rfl, hwell⟩

theorem sound_readElement {i : Int} (hname : Plain name)
    (hslot : f.resolve? name = some (offset, slot)) (hkind : slot.kind = .array elem) :
    Sound f (readElement span name i) fun v => v.kind = .scalar elem ∧ v.WellKinded := by
  apply (sound_readArray hname hslot hkind).bind
  rintro ⟨_, items⟩ ⟨_, hwell⟩
  have hchecked : Sound f (liftAt span (checkedIndex i items.length)) fun _ => True := by
    apply Sound.liftAt fun _ _ => trivial
    intro e he
    unfold checkedIndex at he
    split at he <;> cases he
    exact .indexOutOfBounds i items.length
  apply hchecked.bind
  intro k _
  split
  · next hv =>
    have hmem := List.mem_of_getElem? hv
    exact .pure ⟨hwell.kind_of_mem hmem, hwell.of_mem hmem⟩
  · exact .raise (.indexOutOfBounds i items.length)

theorem sound_storeElement {items : List Value} {i : Nat} {v : Value} (hname : Plain name)
    (hslot : f.resolve? name = some (offset, slot)) (hkind : slot.kind = .array elem)
    (hitems : (Value.array (.scalar elem) items).WellKinded) (hv : v.WellKinded)
    (hcoerce : ∃ w, v.coerce (.scalar elem) = .ok w) :
    Sound f (do
      let stored ← liftAt span (elementOf v (.scalar elem))
      writeVariable span name (.array (.scalar elem) (items.set i stored))
      return stored) fun w => w.kind = .scalar elem ∧ w.WellKinded := by
  obtain ⟨w, hw⟩ := hcoerce
  have hwkind := Value.kind_of_coerce hw
  have hwell := hv.coerce hw
  have helement : elementOf v (.scalar elem) = .ok w := by rw [elementOf, hw]
  rw [helement]
  apply (sound_writeVariable hname hslot _ (hitems.set hwkind hwell i)).bind fun _ _ => .pure ⟨hwkind, hwell⟩
  rw [hkind]
  rfl

theorem sound_writeElement {i : Int} {v : Value} (hname : Plain name)
    (hslot : f.resolve? name = some (offset, slot)) (hkind : slot.kind = .array elem)
    (hv : v.WellKinded) (hcoerce : ∃ w, v.coerce (.scalar elem) = .ok w) :
    Sound f (writeElement span name i .set v) fun w => w.kind = .scalar elem ∧ w.WellKinded := by
  apply (sound_readArray hname hslot hkind).bind
  rintro ⟨_, items⟩ ⟨rfl, hwell⟩
  apply (sound_readElement hname hslot hkind).bind
  intro old _
  exact sound_storeElement hname hslot hkind hwell hv hcoerce

theorem sound_writeElementCompound {i : Int} {v : Value} {op : AssignOp} {b : BinaryOp}
    {right kind : SlotKind} {c₁ c₂ : List Assembly.Line} (hname : Plain name)
    (hslot : f.resolve? name = some (offset, slot)) (hkind : slot.kind = .array elem)
    (hop : op.combine? = some b) (hbinary : Lowering.BinaryCode b (.scalar elem) right kind c₁)
    (hconvert : Lowering.ConvertCode kind (.scalar elem) c₂) (hv : v.kind = right.kind) :
    Sound f (writeElement span name i op v) fun w => w.kind = .scalar elem ∧ w.WellKinded := by
  apply (sound_readArray hname hslot hkind).bind
  rintro ⟨_, items⟩ ⟨rfl, hwell⟩
  apply (sound_readElement hname hslot hkind).bind
  intro old hold
  simp only [hop]
  have hcomputes := computes_binary hbinary hold.1 hv
  apply (Sound.computes hcomputes fun _ => Value.wellKinded_binary).bind
  intro w hw
  exact sound_storeElement hname hslot hkind hwell hw.2 (coerce_of_convertCode hconvert hw.1)

theorem sound_positionOf {v : Value} (hname : Plain name)
    (hslot : f.resolve? name = some (offset, slot)) (hkind : slot.kind = .array elem) :
    Sound f (positionOf span name v) fun w => w.kind = .scalar .int := by
  apply (sound_readArray hname hslot hkind).bind
  rintro ⟨_, items⟩ _
  dsimp only
  split <;> exact .pure rfl

theorem sound_lengthOf (hname : Plain name) (hslot : f.resolve? name = some (offset, slot))
    (hkind : slot.kind = .array elem) :
    Sound f (lengthOf span name) fun w => w.kind = .scalar .int :=
  (sound_readArray hname hslot hkind).bind fun _ _ => .pure rfl

theorem sound_joined (hname : Plain name) (hslot : f.resolve? name = some (offset, slot))
    (hkind : slot.kind = .array elem) :
    Sound f (joined span name) fun w => w.kind = .scalar .string :=
  (sound_readArray hname hslot hkind).bind fun _ _ => .pure rfl

end Arrays

end Arbor.Agreement
