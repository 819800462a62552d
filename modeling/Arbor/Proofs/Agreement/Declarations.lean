import Arbor.Proofs.Agreement.Expressions

/-!
This module contains the declarations that are lowered in a frame: from a state that agrees with the frame they end in
one that agrees with the frame and a slot for the variable.
-/

namespace Arbor.Agreement

open Lowering (Frame Slot SlotKind ItemsCode ArrayCode intLiteral? intWord)
open Evaluation

/--
From a state that agrees with a frame, a run ends with a result and a state that have a property, or halts in an
expected way.
-/
def Runs {α : Type} (f : Frame) (x : Run α) (Q : α → State → Prop) : Prop :=
  Triple (Agrees f) x Q fun h _ => Expected h

theorem Sound.runs {α : Type} {f : Frame} {x : Run α} {Q : α → Prop} (hx : Sound f x Q) :
    Runs f x fun a s => Q a ∧ Agrees f s :=
  hx.conseq (fun _ hs => hs) (fun _ _ hs => hs) (fun _ _ hs => hs.1)

theorem Sound.bindRuns {α β : Type} {f : Frame} {x : Run α} {y : α → Run β} {R : α → Prop}
    {Q : β → State → Prop} (hx : Sound f x R) (hy : ∀ a, R a → Runs f (y a) Q) : Runs f (x >>= y) Q := by
  apply Triple.bind hx.runs
  intro a
  apply Triple.assuming fun _ hs => hs.1
  intro ha
  exact (hy a ha).pre fun _ hs => hs.2

section Declarations

variable {cx : Context} {f : Frame} {span : Span} {name : String} {kind : SlotKind}
  {len : Option Nat} {v : Value}

theorem runs_declare (hfree : f.isDeclared name = false) (hname : Declarable Plain name)
    (hkind : v.kind = kind.kind) (hv : v.WellKinded) :
    Runs f (declare span name kind.kind v) fun _ s => Agrees (f.pushNamed kind len name) s := by
  intro s hs
  obtain ⟨env, hdeclare, henv⟩ := hs.declare hfree hname hkind hv
  have hrun : declare span name kind.kind v s = .ok () { s with env } := by
    change EStateM.bind (liftAt span (s.env.declare name kind.kind v)) setEnvironment s = _
    rw [hdeclare]
    rfl
  rw [hrun]
  exact henv

theorem runs_declareVariable {ty : TypeName} {value? : Option Value} (hfree : f.isDeclared name = false)
    (hname : Declarable Plain name) (hchecked : checkDeclared ty value? = (kind.kind, .ok v))
    (hkind : v.kind = kind.kind) (hv : v.WellKinded) :
    Runs f (declareVariable span ty name value?)
      fun _ s => Agrees (f.pushNamed kind len name) s := by
  unfold declareVariable
  rw [hchecked]
  exact runs_declare hfree hname hkind hv

theorem checkDeclared_scalar {ty : TypeName} {s : Scalar} {value? : Option Value}
    (hty : ty.scalar? = some s) :
    checkDeclared ty value? = (.scalar s, match value? with
      | some v => v.coerce (.scalar s)
      | none => .ok (Value.zeroScalar s)) := by
  cases ty <;> cases hty <;> rfl

/-! Arrays -/

theorem element_eq (s : Scalar) (e : Expr) :
    element cx s 1 e = convertedElement cx (.scalar s) e := by
  cases e <;> rfl

theorem sound_convertedElement {s : Scalar} {e : Expr}
    (he : Sound f (evaluate cx e) (Suits (some (.scalar s)) (.scalar s))) :
    Sound f (convertedElement cx (.scalar s) e) fun v => v.kind = .scalar s := by
  apply he.suits_literal.bind
  intro v hv
  obtain ⟨w, hw⟩ := hv.coerce _ rfl
  have helement : elementOf v (.scalar s) = .ok w := by
    unfold elementOf
    rw [show v.coerce (.scalar s) = .ok w from hw]
  rw [helement]
  exact .pure (Value.kind_of_coerce hw)

theorem sound_elements {n n' : Nat} {f' : Frame} {s elem : Scalar} {items : List Expr}
    {c : List Assembly.Line} (h : ItemsCode f n (some s) items elem c f' n')
    (hnames : ∀ e ∈ items, PlainNames e) :
    s = elem ∧ Sound f (elements cx s 1 items) fun vs => ∀ v ∈ vs, v.kind = .scalar s := by
  generalize hdeclared : some s = declared at h
  induction h with
  | nil =>
    cases hdeclared
    exact ⟨rfl, .pure (by simp)⟩
  | known he _ ih =>
    cases hdeclared
    rw [List.forall_mem_cons] at hnames
    refine ⟨rfl, ?_⟩
    rw [elements, element_eq]
    apply (sound_convertedElement (sound_evaluate he hnames.1)).bind
    intro v hv
    apply (Sound.push_iff.mp (ih hnames.2 rfl).2).bind
    intro vs hvs
    exact .pure (List.forall_mem_cons.mpr ⟨hv, hvs⟩)
  | first => cases hdeclared

theorem evaluate_of_intLiteral? {k : Int64} {word : Int} (hword : intWord k = .ok word) :
    ∀ {e : Expr}, intLiteral? e = some k → evaluate cx e = pure (.int (Int32.ofInt k.toInt))
  | .literal span (.int n), h => by
    cases h
    unfold intWord at hword
    split at hword
    · next hrange => rw [evaluate, Value.ofLiteral, if_pos hrange, liftAt]
    · cases hword
  | .grouping span e, h => by
    rw [evaluate]
    exact evaluate_of_intLiteral? hword h

theorem computes_zeroArray (limit : Nat) (s : Scalar) (n : Int32) :
    Computes (.array (.scalar s)) (zeroArray limit (.scalar s) (.int n)) := by
  unfold zeroArray
  dsimp only
  split
  · next hn => exact .error (.negativeSize hn)
  · split
    · exact .error (.arrayTooLarge _ _)
    · exact .ok rfl

theorem wellKinded_array {s : Scalar} {vs : List Value} (h : ∀ v ∈ vs, v.kind = .scalar s) :
    (Value.array (.scalar s) vs).WellKinded :=
  .array _ _ h fun v hv => Value.wellKinded_of_kind (h v hv)

theorem wellKinded_of_zeroArray {limit : Nat} {s : Scalar} {length v : Value}
    (h : zeroArray limit (.scalar s) length = .ok v) : v.WellKinded := by
  unfold zeroArray at h
  split at h
  · split at h
    · cases h
    · split at h
      · cases h
      · cases h
        apply wellKinded_array
        intro v hv
        rw [List.eq_of_mem_replicate hv]
        exact Value.kind_zeroScalar s
  · cases h

theorem sound_sized {limit : Nat} {s : Scalar} {length : Expr} {Q : Value → Prop}
    (hlength : Sound f (evaluate cx length) Q) (hQ : ∀ v, Q v → ∃ n, v = .int n) :
    Sound f (do
      let n ← literal length.span (evaluate cx length)
      liftAt length.span (zeroArray limit (.scalar s) n))
      fun v => v.kind = .array (.scalar s) ∧ v.WellKinded := by
  have hliteral (v : Value) (hv : Q v) : v.isLiteral = true := by
    obtain ⟨n, rfl⟩ := hQ v hv
    rfl
  apply (hlength.literal hliteral).bind
  intro v hv
  obtain ⟨n, rfl⟩ := hQ v hv
  exact Sound.computes (computes_zeroArray limit s n) fun _ h => wellKinded_of_zeroArray h

theorem sound_initialArray {limit n n' : Nat} {d d' : Assembly.DataSection} {init : ArrayInit}
    {s elem : Scalar} {c : List Assembly.Line}
    (h : ArrayCode limit f n d (some s) init elem len c n' d')
    (hnames : ∀ e ∈ (Stmt.arrayDecl span .int 1 name init).exprs, PlainNames e)
    (hsource : ∀ source, init = .copyOf source → Plain source) :
    s = elem ∧ Sound f (initialArray cx span init s 1)
      fun v => v.kind = .array (.scalar s) ∧ v.WellKinded := by
  cases h with
  | values hitems =>
    obtain ⟨rfl, hvalues⟩ := sound_elements hitems hnames
    exact ⟨rfl, hvalues.bind fun vs hvs => .pure ⟨rfl, wellKinded_array hvs⟩⟩
  | @sized _ length _ _ hliteral _ hword =>
    refine ⟨rfl, sound_sized (Q := fun v => ∃ n, v = .int n) ?_ fun _ hv => hv⟩
    rw [evaluate_of_intLiteral? hword hliteral]
    exact .pure ⟨_, rfl⟩
  | computed _ hlength =>
    exact ⟨rfl, sound_sized (sound_evaluate hlength (hnames _ List.mem_cons_self))
      fun _ hv => hv.exists_int⟩
  | copied hslot hkind hdeclared | copiedHeap hslot hkind hdeclared =>
    obtain rfl := hdeclared _ rfl
    exact ⟨rfl, sound_copyArray (hsource _ rfl) hslot hkind⟩

theorem runs_checkArray {x : Run Value} {Q : Value → Prop} (hx : Sound f x Q) :
    Runs f (checkArray x) fun checked s => Agrees f s ∧ match checked with
      | .ok v => Q v
      | .error e => Dynamic e := by
  have hchecked : Triple (Agrees f) (checkArray x) (fun checked s => Agrees f s ∧ match checked with
      | .ok v => Q v
      | .error e => Dynamic e) fun h s => Expected h ∧ Agrees f s :=
    Triple.checkArray hx (fun _ _ hs => ⟨hs.2, hs.1⟩) fun _ _ hs => ⟨hs.2, hs.1⟩
  exact hchecked.conseq (fun _ hs => hs) (fun _ _ hs => hs) fun _ _ hs => hs.1

theorem runs_bindChecked {checked : Except EvalErrorKind Value} (hfree : f.isDeclared name = false)
    (hname : Declarable Plain name) (hchecked : match checked with
      | .ok v => v.kind = kind.kind ∧ v.WellKinded
      | .error e => Dynamic e) :
    Runs f (bindChecked span name kind.kind checked)
      fun _ s => Agrees (f.pushNamed kind len name) s := by
  cases checked with
  | ok v => exact runs_declare hfree hname hchecked.1 hchecked.2
  | error e =>
    intro s hs
    obtain ⟨stack, hstack, h⟩ := hs
    obtain ⟨own, outer, rfl⟩ := h.stack_eq_cons
    have hown := h.lookup_of_isDeclared hfree rfl
    obtain ⟨env, hdeclare, _⟩ := hstack.declare hown hname.free kind.kind .null
    have hrun : bindChecked span name kind.kind (.error e) s = .error (.error ⟨e, span⟩) { s with env } := by
      change EStateM.bind (EStateM.bind (liftAt span (s.env.declare name kind.kind .null)) setEnvironment)
        (fun _ => raise span e) s = _
      rw [hdeclare]
      rfl
    rw [hrun]
    exact hchecked

theorem runs_declareArray {elem : TypeName} {s : Scalar} {build : Scalar → Nat → Run Value}
    (hfree : f.isDeclared name = false) (hname : Declarable Plain name) (helem : elem.scalar? = some s)
    (hbuild : Sound f (build s 1) fun v => v.kind = .array (.scalar s) ∧ v.WellKinded) :
    Runs f (declareArray span elem 1 name build)
      fun _ s' => Agrees (f.pushNamed (.array s) len name) s' := by
  unfold declareArray
  rw [helem]
  apply Triple.bind (runs_checkArray hbuild)
  intro checked
  apply Triple.assuming fun _ hs => hs.2
  intro hchecked
  have hbind : Runs f (bindChecked span name (SlotKind.array s).kind checked)
      fun _ s' => Agrees (f.pushNamed (.array s) len name) s' :=
    runs_bindChecked hfree hname hchecked
  exact hbind.pre fun _ hs => hs.1

end Declarations

end Arbor.Agreement
