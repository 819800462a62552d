import Arbor.Proofs.Evaluation.Store
import Arbor.Proofs.Evaluation.Triple

/-!
This module contains the proof that no run makes a store ill-kinded: whatever is evaluated or executed, and
however it ends, the environment binds well-kinded values before and after.
-/

namespace Arbor.Evaluation

open Value (WellKinded)

def State.WellKinded (s : State) : Prop :=
  s.env.WellKinded

/--
A run keeps the store well-kinded, however it ends, and its result has a property.
-/
def Keeps {α : Type} (x : Run α) (Q : α → Prop) : Prop :=
  Triple State.WellKinded x (fun a s => Q a ∧ s.WellKinded) (fun _ s => s.WellKinded)

namespace Keeps

variable {α β : Type}

theorem pure {Q : α → Prop} {a : α} (h : Q a) : Keeps (Pure.pure a) Q :=
  Triple.pure fun _ hs => ⟨h, hs⟩

theorem bind {x : Run α} {f : α → Run β} {R : α → Prop} {Q : β → Prop} (hx : Keeps x R)
    (hf : ∀ a, R a → Keeps (f a) Q) : Keeps (x >>= f) Q := by
  apply Triple.bind hx
  intro a
  apply Triple.assuming fun _ hs => hs.1
  intro ha
  exact (hf a ha).pre fun _ hs => hs.2

theorem imp {x : Run α} {Q R : α → Prop} (hx : Keeps x Q) (h : ∀ a, Q a → R a) : Keeps x R :=
  hx.post fun a _ hs => ⟨h a hs.1, hs.2⟩

theorem throw {Q : α → Prop} {h : Halt} : Keeps (MonadExcept.throw h) Q :=
  Triple.throw fun _ hs => hs

theorem raise {Q : α → Prop} {span : Span} {e : EvalErrorKind} :
    Keeps (Evaluation.raise span e) Q :=
  Triple.raise fun _ hs => hs

theorem liftAt {span : Span} {x : Except EvalErrorKind α} {Q : α → Prop}
    (h : ∀ a, x = .ok a → Q a) : Keeps (Evaluation.liftAt span x) Q :=
  Triple.liftAt (fun a _ hx hs => ⟨h a hx, hs⟩) (fun _ _ _ hs => hs)

theorem inScope {x : Run α} {Q : α → Prop} (hx : Keeps x Q) : Keeps (Evaluation.inScope x) Q := by
  apply Triple.inScope
  apply hx.conseq
  · rintro _ ⟨t, ht, rfl⟩
    exact Environment.WellKinded.push ht
  · intro a s hs
    exact ⟨hs.1, Environment.WellKinded.pop hs.2⟩
  · intro h s hs
    exact Environment.WellKinded.pop hs

theorem inCall {x : Run α} {Q : α → Prop} {scope : Nat} (hx : Keeps x Q) :
    Keeps (Evaluation.inCall scope x) Q := by
  intro s hs
  have hx := hx { s with env := s.env.enter scope, callDepth := s.callDepth + 1 }
    (Environment.WellKinded.enter hs scope)
  unfold Evaluation.inCall
  revert hx
  dsimp only
  cases x { s with env := s.env.enter scope, callDepth := s.callDepth + 1 } with
  | ok a s' => exact fun hx => ⟨hx.1, Environment.WellKinded.leave hx.2 _⟩
  | error e s' => exact fun hx => Environment.WellKinded.leave hx _

theorem literal {span : Span} {x : Run Value} {Q : Value → Prop} (hx : Keeps x Q) :
    Keeps (Evaluation.literal span x) Q :=
  Triple.literal hx (fun _ _ hs _ => hs) (fun _ _ _ hs => hs.2)

theorem condition {span : Span} {x : Run Value} {Q : Value → Prop} (hx : Keeps x Q) :
    Keeps (Evaluation.condition span x) fun _ => True :=
  Triple.condition hx.literal (fun _ _ hs => ⟨trivial, hs.2⟩) (fun _ _ hs _ => hs.2)

end Keeps

/-! Variables -/

section Variables

variable {span : Span} {name : String}

theorem triple_binding {β : Type} {f : Binding → Run β} {Q : β → State → Prop}
    (hf : ∀ b, Triple (fun s => s.WellKinded ∧ s.env.get name = .ok b) (f b) Q
      fun _ s => s.WellKinded) :
    Triple State.WellKinded (do f (← liftAt span ((← environment).get name))) Q
      (fun _ s => s.WellKinded) := by
  apply Triple.bind (R := fun env s => s.WellKinded ∧ s.env = env)
  · exact Triple.environment fun s hs => ⟨hs, rfl⟩
  · intro env
    apply Triple.bind (R := fun b s => s.WellKinded ∧ s.env.get name = .ok b)
    · exact Triple.liftAt (fun b s hget hs => ⟨hs.1, hs.2 ▸ hget⟩) (fun _ _ _ hs => hs.1)
    · exact hf

theorem triple_update {P : State → Prop} {f : Environment → Except EvalErrorKind Environment}
    (hP : ∀ s, P s → s.WellKinded ∧ ∀ env, f s.env = .ok env → env.WellKinded) :
    Triple P (do setEnvironment (← liftAt span (f (← environment)))) (fun _ s => s.WellKinded)
      (fun _ s => s.WellKinded) := by
  apply Triple.bind (R := fun env s => P s ∧ s.env = env)
  · exact Triple.environment fun s hs => ⟨hs, rfl⟩
  · intro env
    apply Triple.bind (R := fun env' _ => env'.WellKinded)
    · apply Triple.liftAt
      · intro env' s hf hs
        apply (hP s hs.1).2
        rw [hs.2]
        exact hf
      · exact fun _ s _ hs => (hP s hs.1).1
    · intro env'
      exact Triple.setEnvironment fun s hs => hs

theorem readVariable_eq {s : State} {b : Binding} (hget : s.env.get name = .ok b) :
    readVariable span name s = .ok b.value s := by
  change EStateM.bind (liftAt span (s.env.get name)) (fun b => pure b.value) s = _
  rw [hget]
  rfl

theorem keeps_readVariable : Keeps (readVariable span name) WellKinded := by
  apply triple_binding
  intro b
  exact Triple.pure fun s hs => ⟨(hs.1.get hs.2).2, hs.1⟩

theorem triple_writeVariable {v : Value} {P : State → Prop}
    (hP : ∀ s, P s → s.WellKinded ∧
      ∀ b, s.env.get name = .ok b → Binding.WellKinded { b with value := v }) :
    Triple P (writeVariable span name v) (fun _ s => s.WellKinded) (fun _ s => s.WellKinded) := by
  apply triple_update (f := fun env => env.set name v)
  intro s hs
  exact ⟨(hP s hs).1, fun env hset => (hP s hs).1.set (hP s hs).2 hset⟩

theorem keeps_declare {kind : Kind} {v : Value} (hb : Binding.WellKinded ⟨kind, v⟩) :
    Keeps (declare span name kind v) fun _ => True := by
  apply Triple.post (Q := fun _ s => s.WellKinded)
  · apply triple_update (f := fun env => env.declare name kind v)
    exact fun s hs => ⟨hs, fun env hdeclare => hs.declare hb hdeclare⟩
  · exact fun _ s hs => ⟨trivial, hs⟩

theorem keeps_bindChecked {kind : Kind} {checked : Except EvalErrorKind Value}
    (hb : ∀ v, checked = .ok v → Binding.WellKinded ⟨kind, v⟩) :
    Keeps (bindChecked span name kind checked) fun _ => True := by
  cases checked with
  | ok v => exact keeps_declare (hb v rfl)
  | error e =>
    apply (keeps_declare (Binding.wellKinded_null kind)).bind
    exact fun _ _ => Keeps.raise

theorem wellKinded_checkDeclared {ty : TypeName} {value? : Option Value} {v : Value}
    (hvalue : ∀ w, value? = some w → w.WellKinded) (h : (checkDeclared ty value?).2 = .ok v) :
    Binding.WellKinded ⟨(checkDeclared ty value?).1, v⟩ := by
  unfold checkDeclared at h ⊢
  split at h
  · next s _ =>
    cases value? with
    | some w => exact .of_coerce (hvalue w rfl) h
    | none =>
      cases h
      exact ⟨.inr (Value.kind_zeroScalar s), Value.wellKinded_zero (.scalar s)⟩
  · cases h
  · cases value? with
    | none => simp at h
    | some w =>
      dsimp only at h ⊢
      split at h
      · next hw =>
        cases h
        rw [if_pos hw]
        exact .of_kind (hvalue v rfl)
      · cases h

theorem keeps_declareVariable {ty : TypeName} {value? : Option Value}
    (hvalue : ∀ v, value? = some v → v.WellKinded) :
    Keeps (declareVariable span ty name value?) fun _ => True :=
  keeps_bindChecked fun _ h => wellKinded_checkDeclared hvalue h

theorem triple_assignValue {b : Binding} {v : Value} (hv : v.WellKinded) :
    Triple (fun s => s.WellKinded ∧ s.env.get name = .ok b)
      (assignValue span name b.kind v) (fun w s => w.WellKinded ∧ s.WellKinded)
      (fun _ s => s.WellKinded) := by
  unfold assignValue
  split
  · next stored hstored =>
    apply Triple.bind (R := fun _ s => s.WellKinded)
    · apply triple_writeVariable
      rintro s ⟨hs, hget⟩
      refine ⟨hs, fun c hc => ?_⟩
      rw [hget] at hc
      cases hc
      exact .of_coerce hv hstored
    · exact fun _ => Triple.pure fun s hs => ⟨hv.coerce hstored, hs⟩
  · apply Triple.bind (R := fun _ s => s.WellKinded)
    · apply triple_writeVariable
      exact fun s hs => ⟨hs.1, fun c _ => Binding.wellKinded_null c.kind⟩
    · exact fun _ => Triple.raise fun s hs => hs

theorem keeps_assign {op : AssignOp} {v : Value} (hv : v.WellKinded) :
    Keeps (assign span name op v) WellKinded := by
  apply triple_binding
  intro b
  dsimp only
  split
  · exact triple_assignValue hv
  · next op _ =>
    apply Triple.bind (R := fun w s => w.WellKinded ∧ s.WellKinded ∧ s.env.get name = .ok b)
    · exact Triple.liftAt (fun _ _ hw hs => ⟨Value.wellKinded_binary hw, hs⟩) (fun _ s _ hs => hs.1)
    · intro w
      apply Triple.assuming fun _ hs => hs.1
      intro hw
      exact (triple_assignValue hw).pre fun s hs => hs.2

theorem keeps_stepVariable {op : StepOp} : Keeps (stepVariable span name op) WellKinded := by
  unfold stepVariable readVariable
  simp only [bind_assoc, pure_bind]
  apply triple_binding
  intro b
  apply Triple.bind (R := fun v s => b.value.step op = .ok v ∧ s.WellKinded ∧ s.env.get name = .ok b)
  · exact Triple.liftAt (fun _ _ hv hs => ⟨hv, hs⟩) (fun _ s _ hs => hs.1)
  · intro v
    apply Triple.assuming fun _ hs => hs.1
    intro hstep
    have hv := Value.wellKinded_step hstep
    apply Triple.bind (R := fun _ s => s.WellKinded)
    · apply triple_writeVariable
      rintro s ⟨-, hs, hget⟩
      refine ⟨hs, fun c hc => ?_⟩
      rw [hget] at hc
      cases hc
      refine ⟨.inr ?_, hv⟩
      rcases (hs.get hget).1 with hnull | hkind
      · rw [hnull] at hstep
        cases hstep
      · rw [← hkind]
        exact Value.kind_step hstep
    · exact fun _ => Triple.pure fun s hs => ⟨hv, hs⟩

theorem keeps_declareFunction {returns : TypeName} {params : List Param} {body : List Stmt} :
    Keeps (declareFunction span returns name params body) fun _ => True := by
  apply Triple.bind (R := fun env _ => env.WellKinded)
  · exact Triple.environment fun s hs => hs
  · intro env
    apply Triple.bind (R := fun _ s => s.WellKinded)
    · exact Triple.setEnvironment fun s hs => Environment.WellKinded.capture hs
    · exact fun _ => keeps_declare ⟨.inr rfl, .function _⟩

theorem keeps_printLine {values : List Value} : Keeps (printLine values) fun _ => True :=
  fun _ hs => ⟨trivial, hs⟩

end Variables

/-! Arrays -/

theorem Kind.innermost_arrayOf (s : Scalar) (n : Nat) :
    (Kind.arrayOf (.scalar s) n).innermost = .scalar s := by
  induction n with
  | zero => rfl
  | succ n ih => exact ih

theorem kind_of_elementOf {v w : Value} {elem : Kind} (h : elementOf v elem = .ok w) :
    w.kind = elem := by
  unfold elementOf at h
  split at h
  · next hw =>
    cases h
    exact Value.kind_of_coerce hw
  · cases h

theorem wellKinded_elementOf {v w : Value} {elem : Kind} (hv : v.WellKinded)
    (h : elementOf v elem = .ok w) : w.WellKinded := by
  unfold elementOf at h
  split at h
  · next hw =>
    cases h
    exact hv.coerce hw
  · cases h

theorem wellKinded_arrayOfValues {values : List Value} {v : Value}
    (hvalues : ∀ w ∈ values, w.WellKinded) (h : arrayOfValues values = .ok v) : v.WellKinded := by
  unfold arrayOfValues at h
  split at h
  · cases h
  · split at h
    · cases h
    · next hfind =>
      cases h
      apply WellKinded.array
      · intro w hw
        have := List.find?_eq_none.mp hfind w hw
        simpa using this
      · exact hvalues

theorem kind_zeroArray {limit : Nat} {elem : Kind} {n v : Value}
    (h : zeroArray limit elem n = .ok v) : v.kind = .array elem := by
  unfold zeroArray at h
  split at h
  · split at h
    · cases h
    · split at h <;> cases h
      rfl
  · cases h

theorem wellKinded_zeroArray {limit : Nat} {elem : Kind} {s : Scalar} {n v : Value}
    (helem : elem.innermost = .scalar s) (h : zeroArray limit elem n = .ok v) : v.WellKinded := by
  unfold zeroArray at h
  split at h
  · split at h
    · cases h
    · split at h <;> cases h
      apply WellKinded.array
      · intro w hw
        rw [List.eq_of_mem_replicate hw]
        exact Value.kind_zero helem
      · intro w hw
        rw [List.eq_of_mem_replicate hw]
        exact Value.wellKinded_zero elem
  · cases h

section Arrays

variable {span : Span} {name : String}

theorem triple_readArray {P : State → Prop} (hP : ∀ s, P s → s.WellKinded) :
    Triple P (readArray span name)
      (fun a s => P s ∧ ∃ b, s.env.get name = .ok b ∧ b.value = .array a.1 a.2)
      (fun _ s => s.WellKinded) := by
  unfold readArray readVariable
  simp only [bind_assoc, pure_bind]
  apply Triple.bind (R := fun env s => P s ∧ s.env = env)
  · exact Triple.environment fun s hs => ⟨hs, rfl⟩
  · intro env
    apply Triple.bind (R := fun b s => P s ∧ s.env.get name = .ok b)
    · exact Triple.liftAt (fun b s hget hs => ⟨hs.1, hs.2 ▸ hget⟩) (fun _ _ _ hs => hP _ hs.1)
    · intro b
      split
      · next hb => exact Triple.pure fun s hs => ⟨hs.1, b, hs.2, hb⟩
      · exact Triple.raise fun s hs => hP s hs.1

theorem keeps_readArray :
    Keeps (readArray span name) fun a => WellKinded (.array a.1 a.2) := by
  apply (triple_readArray fun _ hs => hs).post
  rintro a s ⟨hs, b, hget, hb⟩
  dsimp only
  rw [← hb]
  exact ⟨(hs.get hget).2, hs⟩

theorem keeps_copyArray {kind : Kind} :
    Keeps (copyArray span kind name) fun v => v.kind = kind ∧ v.WellKinded := by
  apply keeps_readVariable.bind
  intro v hv
  split
  · split
    · next hkind => exact Keeps.pure ⟨hkind, hv⟩
    · exact Keeps.raise
  · exact Keeps.raise

theorem triple_readElement {P : State → Prop} {i : Int} (hP : ∀ s, P s → s.WellKinded) :
    Triple P (readElement span name i) (fun v s => v.WellKinded ∧ P s)
      (fun _ s => s.WellKinded) := by
  apply Triple.bind (triple_readArray hP)
  rintro ⟨elem, items⟩
  apply Triple.assuming (p := WellKinded (.array elem items))
  · rintro s ⟨hs, b, hget, hb⟩
    dsimp only at hb
    rw [← hb]
    exact ((hP s hs).get hget).2
  · intro hitems
    apply Triple.bind (R := fun _ s => P s)
    · exact Triple.liftAt (fun _ _ _ hs => hs.1) (fun _ s _ hs => hP s hs.1)
    · intro slot
      split
      · next hv => exact Triple.pure fun s hs => ⟨hitems.of_mem (List.mem_of_getElem? hv), hs⟩
      · exact Triple.raise hP

theorem keeps_readElement {i : Int} : Keeps (readElement span name i) WellKinded :=
  triple_readElement fun _ hs => hs

theorem triple_storeElement {elem : Kind} {items : List Value} {i : Nat} {v : Value}
    (hv : v.WellKinded) :
    Triple (fun s => s.WellKinded ∧ ∃ b, s.env.get name = .ok b ∧ b.value = .array elem items)
      (do
        let stored ← liftAt span (elementOf v elem)
        writeVariable span name (.array elem (items.set i stored))
        return stored)
      (fun w s => w.WellKinded ∧ s.WellKinded) (fun _ s => s.WellKinded) := by
  apply Triple.bind (R := fun w s => elementOf v elem = .ok w ∧ s.WellKinded ∧
    ∃ b, s.env.get name = .ok b ∧ b.value = .array elem items)
  · exact Triple.liftAt (fun _ _ hw hs => ⟨hw, hs⟩) (fun _ s _ hs => hs.1)
  · intro stored
    apply Triple.assuming fun _ hs => hs.1
    intro hstored
    have hstoredKinded := wellKinded_elementOf hv hstored
    apply Triple.bind (R := fun _ s => s.WellKinded)
    · apply triple_writeVariable
      rintro s ⟨-, hs, b, hget, hb⟩
      refine ⟨hs, fun c hc => ?_⟩
      rw [hget] at hc
      cases hc
      have hbinding := hs.get hget
      unfold Binding.WellKinded at hbinding ⊢
      rw [hb] at hbinding
      refine ⟨.inr ?_, hbinding.2.set (kind_of_elementOf hstored) hstoredKinded i⟩
      rcases hbinding.1 with hnull | hkind
      · cases hnull
      · exact hkind
    · exact fun _ => Triple.pure fun s hs => ⟨hstoredKinded, hs⟩

theorem keeps_writeElement {i : Int} {op : AssignOp} {v : Value} (hv : v.WellKinded) :
    Keeps (writeElement span name i op v) WellKinded := by
  apply Triple.bind (triple_readArray fun _ hs => hs)
  rintro ⟨elem, items⟩
  apply Triple.bind (R := fun _ s => s.WellKinded ∧
    ∃ b, s.env.get name = .ok b ∧ b.value = .array elem items)
  · exact (triple_readElement fun s hs => hs.1).post fun _ _ hs => hs.2
  · intro old
    dsimp only
    split
    · exact triple_storeElement hv
    · apply Triple.bind (R := fun w s => w.WellKinded ∧ s.WellKinded ∧
        ∃ b, s.env.get name = .ok b ∧ b.value = .array elem items)
      · exact Triple.liftAt (fun _ _ hw hs => ⟨Value.wellKinded_binary hw, hs⟩) (fun _ s _ hs => hs.1)
      · intro w
        apply Triple.assuming fun _ hs => hs.1
        intro hw
        exact (triple_storeElement hw).pre fun s hs => hs.2

theorem keeps_positionOf {v : Value} : Keeps (positionOf span name v) WellKinded := by
  apply keeps_readArray.bind
  rintro ⟨elem, items⟩ _
  dsimp only
  split
  · exact Keeps.pure (.int _)
  · exact Keeps.pure (.int _)

theorem keeps_lengthOf : Keeps (lengthOf span name) WellKinded := by
  apply keeps_readArray.bind
  exact fun _ _ => Keeps.pure (.int _)

theorem keeps_joined : Keeps (joined span name) WellKinded := by
  apply keeps_readArray.bind
  exact fun _ _ => Keeps.pure (.text _)

theorem keeps_checkArray {x : Run Value} {Q : Value → Prop} (hx : Keeps x Q) :
    Keeps (checkArray x) fun checked => ∀ v, checked = .ok v → Q v := by
  apply Triple.checkArray hx
  · rintro v s ⟨hv, hs⟩
    refine ⟨fun w hw => ?_, hs⟩
    cases hw
    exact hv
  · exact fun _ _ hs => ⟨nofun, hs⟩

theorem keeps_declareArray {elem : TypeName} {dims : UInt32} {build : Scalar → Nat → Run Value}
    (hbuild : ∀ s n, Keeps (build s (n + 1))
      fun v => v.kind = .arrayOf (.scalar s) (n + 1) ∧ v.WellKinded) :
    Keeps (declareArray span elem dims name build) fun _ => True := by
  unfold declareArray
  split
  · exact Keeps.raise
  · next s _ =>
    obtain ⟨n, hn⟩ : ∃ n, max dims.toNat 1 = n + 1 := ⟨max dims.toNat 1 - 1, by omega⟩
    dsimp only
    rw [hn]
    apply (keeps_checkArray (hbuild s n)).bind
    intro checked hchecked
    apply keeps_bindChecked
    intro v hv
    obtain ⟨hkind, hwell⟩ := hchecked v hv
    exact ⟨.inr hkind, hwell⟩

end Arrays

/-! Control flow -/

def Flow.WellKinded : Flow → Prop
  | .returning (some v) _ => v.WellKinded
  | _ => True

theorem keeps_andThen {first second : Run Flow} (hfirst : Keeps first Flow.WellKinded)
    (hsecond : Keeps second Flow.WellKinded) : Keeps (andThen first second) Flow.WellKinded := by
  apply hfirst.bind
  intro flow hflow
  split
  · exact hsecond
  · exact Keeps.pure hflow

theorem keeps_loop {cond : Run Bool} {body : Run Flow} {update : Run Unit}
    (hcond : Keeps cond fun _ => True) (hbody : Keeps body Flow.WellKinded)
    (hupdate : Keeps update fun _ => True) (fuel : Nat) :
    Keeps (loop cond body update fuel) Flow.WellKinded := by
  induction fuel with
  | zero => exact Keeps.throw
  | succ fuel ih =>
    apply hcond.bind
    intro b _
    split
    · apply hbody.bind
      intro flow hflow
      split
      · exact Keeps.pure trivial
      · exact Keeps.pure hflow
      · exact hupdate.bind fun _ _ => ih
      · exact hupdate.bind fun _ _ => ih
    · exact Keeps.pure trivial

theorem keeps_forValues {body : Value → Run Flow} {items : List Value}
    (hbody : ∀ v ∈ items, Keeps (body v) Flow.WellKinded) :
    Keeps (forValues body items) Flow.WellKinded := by
  induction items with
  | nil => exact Keeps.pure trivial
  | cons v items ih =>
    have ih := ih fun w hw => hbody w (List.mem_cons_of_mem v hw)
    apply (hbody v List.mem_cons_self).bind
    intro flow hflow
    split
    · exact Keeps.pure trivial
    · exact Keeps.pure hflow
    · exact ih
    · exact ih

theorem keeps_firstMatch {subject : Value} {equal : Span → Value → Value → Run Bool}
    {cases : List (Span × Run Value)} (hequal : ∀ span v w, Keeps (equal span v w) fun _ => True)
    (hcases : ∀ c ∈ cases, Keeps c.2 WellKinded) :
    Keeps (firstMatch subject equal cases) fun _ => True := by
  induction cases with
  | nil => exact Keeps.pure trivial
  | cons c rest ih =>
    apply (hcases c List.mem_cons_self).bind
    intro v _
    apply (hequal _ _ _).bind
    intro b _
    split
    · exact Keeps.pure trivial
    · apply (ih fun c hc => hcases c (List.mem_cons_of_mem _ hc)).bind
      exact fun _ _ => Keeps.pure trivial

theorem keeps_fallThrough {bodies : List (Run Flow)}
    (hbodies : ∀ x ∈ bodies, Keeps x Flow.WellKinded) :
    Keeps (fallThrough bodies) Flow.WellKinded := by
  induction bodies with
  | nil => exact Keeps.pure trivial
  | cons x rest ih =>
    apply (hbodies x List.mem_cons_self).bind
    intro flow hflow
    split
    · exact ih fun y hy => hbodies y (List.mem_cons_of_mem x hy)
    · exact Keeps.pure trivial
    · exact Keeps.pure hflow

theorem mem_bodiesFrom {α : Type} {position? : Option Nat} {cases : List α} {default? : Option α}
    {x : α} (h : x ∈ bodiesFrom position? cases default?) : x ∈ cases ∨ default? = some x := by
  unfold bodiesFrom at h
  rcases List.mem_append.mp h with h | h
  · left
    split at h
    · exact List.mem_of_mem_drop h
    · cases h
  · right
    exact Option.mem_toList.mp h

theorem keeps_asBody {isBlock : Bool} {x : Run Flow} (hx : Keeps x Flow.WellKinded) :
    Keeps (asBody isBlock x) Flow.WellKinded := by
  unfold asBody
  split
  · exact hx
  · exact hx.inScope

/-! Trees -/

def Context.Keeps (cx : Context) : Prop :=
  ∀ span f args, (∀ v ∈ args, v.WellKinded) → Evaluation.Keeps (cx.invoke span f args) WellKinded

theorem evaluate_binary (cx : Context) (span : Span) {op : BinaryOp} (l r : Expr)
    (h : op.cls ≠ .logical) :
    evaluate cx (.binary span op l r) = (do
      let v ← literal l.span (evaluate cx l)
      let w ← literal r.span (evaluate cx r)
      liftAt span (Value.binary op v w)) := by
  cases op <;> first | rfl | exact absurd rfl h

section Trees

variable {cx : Context}

theorem keeps_evaluate_binary {span : Span} {op : BinaryOp} {l r : Expr}
    (hl : Keeps (evaluate cx l) WellKinded) (hr : Keeps (evaluate cx r) WellKinded) :
    Keeps (evaluate cx (.binary span op l r)) WellKinded := by
  by_cases hop : op.cls = .logical
  · have hdecided : ∀ b, Keeps (Pure.pure (Value.bool b) : Run Value) WellKinded :=
      fun b => Keeps.pure (.bool b)
    have hsecond : Keeps (do return Value.bool (← condition r.span (evaluate cx r))) WellKinded :=
      hr.condition.bind fun b _ => hdecided b
    cases op with
    | and =>
      apply hl.condition.bind
      intro b _
      split
      · exact hsecond
      · exact hdecided false
    | or =>
      apply hl.condition.bind
      intro b _
      split
      · exact hdecided true
      · exact hsecond
    | _ => cases hop
  · rw [evaluate_binary cx span l r hop]
    apply hl.literal.bind
    intro v _
    apply hr.literal.bind
    intro w _
    exact Keeps.liftAt fun _ h => Value.wellKinded_binary h

theorem keeps_apply (hcx : cx.Keeps) {span : Span} {f : Callable} {args : Run (List Value)}
    (hargs : Keeps args fun vs => ∀ v ∈ vs, v.WellKinded) :
    Keeps (do
      let values ← args
      match f with
      | .embedded f => liftAt span (f.apply values)
      | .closure f => cx.invoke span f values) WellKinded := by
  apply hargs.bind
  intro values hvalues
  cases f with
  | embedded f =>
    exact Keeps.liftAt fun _ h => Value.wellKinded_of_kind (Embedded.kind_apply h)
  | closure f => exact hcx span f values hvalues

theorem keeps_call (hcx : cx.Keeps) {span : Span} {callee : Expr} {args : List Expr} {v : Value}
    (hargs : Keeps (evaluateAll cx literal args) fun vs => ∀ v ∈ vs, v.WellKinded) :
    Keeps (match v with
      | .function f => do
        if f.arity ≠ args.length then raise span (.arityMismatch f.name f.arity args.length)
        let values ← evaluateAll cx literal args
        match f with
        | .embedded f => liftAt span (f.apply values)
        | .closure f => cx.invoke span f values
      | v =>
        match callee with
        | .var _ name => raise span (.notCallable name)
        | _ => raise span (.notCallable v.kind.text)) WellKinded := by
  split
  · dsimp only
    split
    · exact Keeps.raise.bind (R := fun _ => True) fun _ _ => keeps_apply hcx hargs
    · exact keeps_apply hcx hargs
  · split
    · exact Keeps.raise
    · exact Keeps.raise

mutual

theorem keeps_evaluate (hcx : cx.Keeps) : ∀ e : Expr, Keeps (evaluate cx e) WellKinded
  | .literal _ _ =>
    Keeps.liftAt fun _ h => Value.wellKinded_of_kind (Value.kind_ofLiteral h)
  | .binary _ _ l r => keeps_evaluate_binary (keeps_evaluate hcx l) (keeps_evaluate hcx r)
  | .unary _ _ e => by
    apply (keeps_evaluate hcx e).literal.bind
    exact fun _ _ => Keeps.liftAt fun _ h => Value.wellKinded_unary h
  | .grouping _ e => keeps_evaluate hcx e
  | .var _ _ => keeps_readVariable
  | .assign _ _ _ e => by
    apply (keeps_evaluate hcx e).literal.bind
    exact fun _ hv => keeps_assign hv
  | .step _ _ _ => keeps_stepVariable
  | .ternary _ c t f => by
    apply (keeps_evaluate hcx c).condition.bind
    intro b _
    split
    · exact keeps_evaluate hcx t
    · exact keeps_evaluate hcx f
  | .arrayLiteral _ items => by
    apply (keeps_evaluateAll hcx (fun _ _ h => h.literal) items).bind
    exact fun _ hvalues => Keeps.liftAt fun _ h => wellKinded_arrayOfValues hvalues h
  | .index _ _ i => by
    apply (keeps_evaluate hcx i).literal.bind
    intro v _
    apply Keeps.bind (R := fun _ => True)
    · exact Keeps.liftAt fun _ _ => trivial
    · exact fun _ _ => keeps_readElement
  | .indexAssign _ _ i _ e => by
    apply (keeps_evaluate hcx i).literal.bind
    intro v _
    apply Keeps.bind (R := fun _ => True)
    · exact Keeps.liftAt fun _ _ => trivial
    · intro position _
      apply (keeps_evaluate hcx e).literal.bind
      exact fun _ hw => keeps_writeElement hw
  | .indexOf _ _ e => by
    apply (keeps_evaluate hcx e).literal.bind
    exact fun _ _ => keeps_positionOf
  | .length _ _ => keeps_lengthOf
  | .join _ _ => keeps_joined
  | .call _ callee args => by
    apply (keeps_evaluate hcx callee).bind
    intro v _
    exact keeps_call hcx (keeps_evaluateAll hcx (fun _ _ h => h.literal) args)

theorem keeps_evaluateAll (hcx : cx.Keeps) {check : Span → Run Value → Run Value}
    (hcheck : ∀ span x, Keeps x WellKinded → Keeps (check span x) WellKinded) :
    ∀ es : List Expr, Keeps (evaluateAll cx check es) fun vs => ∀ v ∈ vs, v.WellKinded
  | [] => Keeps.pure (by simp)
  | e :: es => by
    apply (hcheck _ _ (keeps_evaluate hcx e)).bind
    intro v hv
    apply (keeps_evaluateAll hcx hcheck es).bind
    intro vs hvs
    exact Keeps.pure (List.forall_mem_cons.mpr ⟨hv, hvs⟩)

end

theorem keeps_convertedElement (hcx : cx.Keeps) {elem : Kind} {e : Expr} :
    Keeps (convertedElement cx elem e) fun v => v.kind = elem ∧ v.WellKinded := by
  apply (keeps_evaluate hcx e).literal.bind
  intro v hv
  exact Keeps.liftAt fun _ h => ⟨kind_of_elementOf h, wellKinded_elementOf hv h⟩

mutual

theorem keeps_element (hcx : cx.Keeps) (s : Scalar) (n : Nat) :
    ∀ e : Expr, Keeps (element cx s (n + 1) e)
      fun v => v.kind = .arrayOf (.scalar s) n ∧ v.WellKinded
  | .arrayLiteral _ inner => by
    unfold element
    split
    · obtain ⟨m, rfl⟩ : ∃ m, n = m + 1 := ⟨n - 1, by omega⟩
      apply (keeps_elements hcx s m inner).bind
      intro vs hvs
      exact Keeps.pure ⟨rfl, .array _ _ (fun v hv => (hvs v hv).1) fun v hv => (hvs v hv).2⟩
    · exact keeps_convertedElement hcx
  | .literal .. | .binary .. | .unary .. | .grouping .. | .var .. | .assign .. | .step ..
  | .ternary .. | .index .. | .indexAssign .. | .indexOf .. | .length .. | .join ..
  | .call .. => keeps_convertedElement hcx

theorem keeps_elements (hcx : cx.Keeps) (s : Scalar) (n : Nat) :
    ∀ es : List Expr, Keeps (elements cx s (n + 1) es)
      fun vs => ∀ v ∈ vs, v.kind = .arrayOf (.scalar s) n ∧ v.WellKinded
  | [] => Keeps.pure (by simp)
  | e :: es => by
    apply (keeps_element hcx s n e).bind
    intro v hv
    apply (keeps_elements hcx s n es).bind
    intro vs hvs
    exact Keeps.pure (List.forall_mem_cons.mpr ⟨hv, hvs⟩)

end

theorem keeps_initialArray (hcx : cx.Keeps) {span : Span} {init : ArrayInit} (s : Scalar)
    (n : Nat) : Keeps (initialArray cx span init s (n + 1))
      fun v => v.kind = .arrayOf (.scalar s) (n + 1) ∧ v.WellKinded := by
  cases init with
  | values items =>
    apply (keeps_elements hcx s n items).bind
    intro vs hvs
    exact Keeps.pure ⟨rfl, .array _ _ (fun v hv => (hvs v hv).1) fun v hv => (hvs v hv).2⟩
  | sized length =>
    apply (keeps_evaluate hcx length).literal.bind
    intro v _
    exact Keeps.liftAt fun _ h =>
      ⟨kind_zeroArray h, wellKinded_zeroArray (Kind.innermost_arrayOf s n) h⟩
  | copyOf source => exact keeps_copyArray

theorem keeps_equalForSwitch {span : Span} {v w : Value} :
    Keeps (equalForSwitch span v w) fun _ => True := by
  apply Keeps.bind (R := fun _ => True)
  · exact Keeps.liftAt fun _ _ => trivial
  · intro u _
    split
    · exact Keeps.pure trivial
    · exact Keeps.pure trivial

theorem keeps_discarded {x : Run Value} (hx : Keeps x WellKinded) :
    Keeps (do let _ ← x) fun _ => True :=
  hx.bind fun _ _ => Keeps.pure trivial

theorem keeps_value {span : Span} {name : String} {elem : Kind} {v : Value} {body : Run Flow}
    (hkind : v.kind = elem) (hv : v.WellKinded) (hbody : Keeps body Flow.WellKinded) :
    Keeps (inScope do
      declare span name elem v
      body) Flow.WellKinded := by
  apply Keeps.inScope
  apply (keeps_declare ⟨.inr hkind, hv⟩).bind
  exact fun _ _ => hbody

mutual

theorem keeps_execute (hcx : cx.Keeps) : ∀ s : Stmt, Keeps (execute cx s) Flow.WellKinded
  | .varDecl _ _ _ none => by
    have hvalue (v : Value) (h : none = some v) : v.WellKinded := nomatch h
    apply (keeps_declareVariable hvalue).bind
    exact fun _ _ => Keeps.pure trivial
  | .varDecl _ _ _ (some e) => by
    unfold execute
    simp only [bind_map_left]
    apply (keeps_evaluate hcx e).bind
    intro v hv
    have hvalue (w : Value) (h : some v = some w) : w.WellKinded := by
      cases h
      exact hv
    apply (keeps_declareVariable hvalue).bind
    exact fun _ _ => Keeps.pure trivial
  | .arrayDecl _ _ _ _ _ => by
    apply (keeps_declareArray fun s n => keeps_initialArray hcx s n).bind
    exact fun _ _ => Keeps.pure trivial
  | .funcDecl _ _ _ _ _ => by
    apply keeps_declareFunction.bind
    exact fun _ _ => Keeps.pure trivial
  | .expr _ e => by
    apply (keeps_evaluate hcx e).bind
    exact fun _ _ => Keeps.pure trivial
  | .print _ args => by
    apply (keeps_evaluateAll hcx (fun _ _ h => h) args).bind
    intro values _
    apply keeps_printLine.bind
    exact fun _ _ => Keeps.pure trivial
  | .block _ body => (keeps_executeAll hcx body).inScope
  | .conditional _ c t f => by
    unfold execute
    apply (keeps_evaluate hcx c).condition.bind
    intro b _
    split
    · exact keeps_asBody (keeps_execute hcx t)
    · cases f with
      | none => exact Keeps.pure trivial
      | some f => exact keeps_asBody (keeps_execute hcx f)
  | .whileLoop _ c body => by
    apply keeps_loop (keeps_evaluate hcx c).condition (keeps_asBody (keeps_execute hcx body))
    exact Keeps.pure trivial
  | .forLoop _ init c update body => by
    unfold execute
    apply Keeps.inScope
    have hcond : Keeps (match c with
        | none => return true
        | some c => condition c.span (evaluate cx c)) fun _ => True := by
      cases c with
      | none => exact Keeps.pure trivial
      | some c => exact (keeps_evaluate hcx c).condition
    have hupdate : Keeps (match update with
        | none => return ()
        | some e => do let _ ← evaluate cx e) fun _ => True := by
      cases update with
      | none => exact Keeps.pure trivial
      | some e => exact keeps_discarded (keeps_evaluate hcx e)
    have hbody : Keeps (asBody body.isBlock (execute cx body)) Flow.WellKinded :=
      keeps_asBody (keeps_execute hcx body)
    have hloop := keeps_loop hcond hbody hupdate cx.fuel
    dsimp only
    cases init with
    | none => exact hloop
    | some init =>
      apply (keeps_execute hcx init).bind
      exact fun _ _ => hloop
  | .forEach _ _ _ _ body => by
    apply keeps_readArray.bind
    rintro ⟨elem, items⟩ hitems
    apply Keeps.bind (R := fun _ => True)
    · exact Keeps.liftAt fun _ _ => trivial
    · intro _ _
      apply keeps_forValues
      intro v hv
      apply keeps_value (hitems.kind_of_mem hv) (hitems.of_mem hv)
      exact keeps_asBody (keeps_execute hcx body)
  | .switch _ subject cases default => by
    unfold execute
    apply (keeps_evaluate hcx subject).literal.bind
    intro v _
    apply (keeps_firstMatch (fun _ _ _ => keeps_equalForSwitch) (keeps_caseValues hcx cases)).bind
    intro position? _
    apply keeps_fallThrough
    intro x hx
    rcases mem_bodiesFrom hx with hx | hx
    · exact keeps_caseBodies hcx cases x hx
    · cases default with
      | none => cases hx
      | some body =>
        cases hx
        exact (keeps_executeAll hcx body).inScope
  | .breakStmt _ => Keeps.pure trivial
  | .continueStmt _ => Keeps.pure trivial
  | .returnStmt _ value => by
    unfold execute
    cases value with
    | none => exact Keeps.pure trivial
    | some e =>
      apply (keeps_evaluate hcx e).literal.bind
      exact fun _ hv => Keeps.pure hv

theorem keeps_executeAll (hcx : cx.Keeps) :
    ∀ body : List Stmt, Keeps (executeAll cx body) Flow.WellKinded
  | [] => Keeps.pure trivial
  | s :: rest => keeps_andThen (keeps_execute hcx s) (keeps_executeAll hcx rest)

theorem keeps_caseValues (hcx : cx.Keeps) :
    ∀ cases : List SwitchCase, ∀ c ∈ caseValues cx cases, Keeps c.2 WellKinded
  | [] => by simp [caseValues]
  | .mk _ value _ :: rest => by
    unfold caseValues
    rw [List.forall_mem_cons]
    exact ⟨(keeps_evaluate hcx value).literal, keeps_caseValues hcx rest⟩

theorem keeps_caseBodies (hcx : cx.Keeps) :
    ∀ cases : List SwitchCase, ∀ x ∈ caseBodies cx cases, Keeps x Flow.WellKinded
  | [] => by simp [caseBodies]
  | .mk _ _ body :: rest => by
    unfold caseBodies
    rw [List.forall_mem_cons]
    exact ⟨(keeps_executeAll hcx body).inScope, keeps_caseBodies hcx rest⟩

end

end Trees

/-! Calls -/

theorem wellKinded_bindArguments {params : List Param} {values : List Value}
    {bound : List (String × Kind × Value)} (hvalues : ∀ v ∈ values, v.WellKinded)
    (h : bindArguments params values = .ok bound) :
    ∀ p ∈ bound, Binding.WellKinded ⟨p.2.1, p.2.2⟩ := by
  induction params generalizing values bound with
  | nil =>
    cases h
    simp
  | cons p ps ih =>
    cases values with
    | nil =>
      cases h
      simp
    | cons v vs =>
      rw [List.forall_mem_cons] at hvalues
      simp only [bindArguments, bind, Except.bind] at h
      split at h
      · cases h
      · next stored hstored =>
        split at h
        · cases h
        · next rest hrest =>
          cases h
          rw [List.forall_mem_cons]
          exact ⟨.of_coerce hvalues.1 hstored, ih hvalues.2 hrest⟩

theorem keeps_declareAll {span : Span} {bound : List (String × Kind × Value)}
    (hbound : ∀ p ∈ bound, Binding.WellKinded ⟨p.2.1, p.2.2⟩) :
    Keeps (declareAll span bound) fun _ => True := by
  induction bound with
  | nil => exact Keeps.pure trivial
  | cons p rest ih =>
    rw [List.forall_mem_cons] at hbound
    apply (keeps_declare hbound.1).bind
    exact fun _ _ => ih hbound.2

theorem keeps_callResult {span : Span} {f : Closure} {flow : Flow} (hflow : flow.WellKinded) :
    Keeps (callResult span f flow) WellKinded := by
  unfold callResult
  split
  · exact Keeps.raise
  · exact Keeps.raise
  · split
    · exact Keeps.pure .null
    · exact Keeps.raise
  · split
    · exact Keeps.pure .null
    · exact Keeps.raise
  · split
    · exact Keeps.liftAt fun _ h => hflow.coerce h
    · exact Keeps.raise
    · exact Keeps.pure hflow

theorem keeps_invoke (config : EvaluatorConfig) (fuel : Nat) (span : Span) (f : Closure)
    (args : List Value) (hargs : ∀ v ∈ args, v.WellKinded) :
    Keeps (invoke config fuel span f args) WellKinded := by
  induction fuel generalizing span f args with
  | zero => exact Keeps.throw
  | succ fuel ih =>
    have hbody : Keeps (do
        let params ← liftAt span (bindArguments f.params args)
        inCall f.scope do
          declareAll span params
          callResult span f
            (← executeAll ⟨config.maxArrayLength, fuel, invoke config fuel⟩ f.body)) WellKinded := by
      apply (Keeps.liftAt fun _ h => wellKinded_bindArguments hargs h).bind
      intro params hparams
      apply Keeps.inCall
      apply (keeps_declareAll hparams).bind
      intro _ _
      have hcx : Context.Keeps ⟨config.maxArrayLength, fuel, invoke config fuel⟩ := ih
      apply (keeps_executeAll hcx f.body).bind
      exact fun flow hflow => keeps_callResult hflow
    apply Keeps.bind (R := fun _ => True)
    · exact fun s hs => ⟨trivial, hs⟩
    · intro s _
      dsimp only
      split
      · exact Keeps.raise.bind (R := fun _ => True) fun _ _ => hbody
      · exact hbody

theorem Context.keeps_of (config : EvaluatorConfig) (fuel : Nat) : (Context.of config fuel).Keeps :=
  keeps_invoke config fuel

end Arbor.Evaluation
