import Arbor.Proofs.Agreement.Expressions

/-!
This module contains the agreement of a frame with a state of the evaluator on names alone, whatever kinds their values
have, and the expressions that are lowered in such a frame: they raise no error about what a name stands for.
-/

namespace Arbor

/--
The name that an error is about, for the errors of a name that stands for nothing, for something already, or for
nothing that can be called.
-/
def EvalErrorKind.misnamed? : EvalErrorKind → Option String
  | .undeclared name | .alreadyDeclared name | .notCallable name => some name
  | _ => none

/-! Names that are not bound, or are bound already -/

namespace Environment

variable {env : Environment} {own : List (String × Binding)} {stack outer : List (List (String × Binding))}
  {name : String}

theorem Stack.get_of_find_none (h : env.Stack stack) (hname : find name stack = none) :
    env.get name = .error (.undeclared name) := by
  cases stack with
  | nil => simpa using h.current
  | cons own outer =>
    have hcurrent : env.current = outer.length := by simpa using h.current
    unfold get
    rw [hcurrent, h.beginsWith.findSome?_chain, hname]

theorem Stack.declare_of_isSome (h : env.Stack (own :: outer)) (hown : (own.lookup name).isSome = true)
    (k : Kind) (v : Value) : env.declare name k v = .error (.alreadyDeclared name) := by
  have htaken : (env.scope env.current).declares name = true := by
    obtain ⟨b, hb⟩ := Option.isSome_iff_exists.mp hown
    unfold Scope.declares Scope.find?
    rw [h.scope_current, List.lookup_append, hb]
    rfl
  rw [Environment.declare, if_pos htaken]

end Environment

/-! Operations on values -/

namespace Value

variable {v w : Value} {e : EvalErrorKind}

theorem misnamed?_ofLiteral {l : Literal} (h : ofLiteral l = .error e) : e.misnamed? = none := by
  unfold ofLiteral at h
  split at h
  · split at h <;> cases h
    rfl
  all_goals cases h

theorem misnamed?_coerce {kind : Kind} (h : v.coerce kind = .error e) : e.misnamed? = none := by
  unfold coerce at h
  split at h <;> try cases h
  · split at h <;> cases h
    rfl
  · split at h <;> cases h
    rfl
  · rfl

theorem misnamed?_intArith {op : BinaryOp} {a b : Int32} (h : intArith op a b = .error e) :
    e.misnamed? = none := by
  unfold intArith at h
  split at h
  iterate 3 cases h
  all_goals
    split at h <;> cases h
    rfl

theorem misnamed?_arith {op : BinaryOp} {a b : Number}
    (h : (arith op a b).map Number.toValue = .error e) : e.misnamed? = none := by
  unfold arith at h
  split at h
  · next m n =>
    cases hint : intArith op m n with
    | ok _ => simp [hint, Except.map] at h
    | error e' =>
      rw [hint] at h
      cases h
      exact misnamed?_intArith hint
  · cases h

theorem misnamed?_binary {op : BinaryOp} (h : binary op v w = .error e) : e.misnamed? = none := by
  unfold binary at h
  cases op with
  | add =>
    dsimp only at h
    split at h
    · cases h
    · split at h
      · exact misnamed?_arith h
      · cases h
        rfl
  | sub | mul | div | mod =>
    dsimp only at h
    split at h
    · exact misnamed?_arith h
    · cases h
      rfl
  | lt | gt | le | ge =>
    dsimp only at h
    split at h
    · cases h
    · split at h <;> cases h
      rfl
  | eq | ne | and | or =>
    dsimp only at h
    split at h <;> cases h
    rfl

theorem misnamed?_unary {op : UnaryOp} (h : unary op v = .error e) : e.misnamed? = none := by
  unfold unary at h
  split at h <;> cases h
  rfl

theorem misnamed?_step {op : StepOp} (h : step op v = .error e) : e.misnamed? = none := by
  unfold step at h
  split at h <;> cases h
  rfl

end Value

theorem Embedded.misnamed?_textArg {args : List Value} {e : EvalErrorKind} (h : textArg args = .error e) :
    e.misnamed? = none := by
  unfold textArg at h
  split at h <;> cases h <;> rfl

theorem Embedded.misnamed?_apply {f : Embedded} {args : List Value} {e : EvalErrorKind}
    (h : f.apply args = .error e) : e.misnamed? = none := by
  have hbind {g : String → Except EvalErrorKind Value} (hg : ∀ s, g s = .error e → e.misnamed? = none)
      (h : (textArg args).bind g = .error e) : e.misnamed? = none := by
    cases htext : textArg args with
    | ok s =>
      rw [htext] at h
      exact hg s h
    | error e' =>
      rw [htext] at h
      cases h
      exact misnamed?_textArg htext
  have hmap {g : String → Value} (h : (textArg args).map g = .error e) : e.misnamed? = none := by
    cases htext : textArg args with
    | ok s => simp [htext, Except.map] at h
    | error e' =>
      rw [htext] at h
      cases h
      exact misnamed?_textArg htext
  cases f with
  | parseInt =>
    refine hbind (fun s hs => ?_) h
    unfold readInt at hs
    dsimp only at hs
    split at hs
    · cases hs
    · split at hs
      · cases hs
        rfl
      · split at hs <;> cases hs
        rfl
  | parseFloat =>
    refine hbind (fun s hs => ?_) h
    unfold readFloat at hs
    dsimp only at hs
    split at hs <;> cases hs
    rfl
  | toText =>
    unfold apply displayed at h
    dsimp only at h
    split at h <;> cases h
    rfl
  | toLowerCase | toUpperCase => exact hmap h
  | typeOf => cases h

namespace Evaluation

variable {e : EvalErrorKind}

theorem misnamed?_elementOf {v : Value} {elem : Kind} (h : elementOf v elem = .error e) :
    e.misnamed? = none := by
  unfold elementOf at h
  split at h <;> cases h
  rfl

theorem misnamed?_checkedIndex {i : Int} {length : Nat} (h : checkedIndex i length = .error e) :
    e.misnamed? = none := by
  unfold checkedIndex at h
  split at h <;> cases h
  rfl

theorem misnamed?_indexOfValue {v : Value} (h : indexOfValue v = .error e) : e.misnamed? = none := by
  unfold indexOfValue at h
  split at h <;> cases h
  rfl

theorem misnamed?_zeroArray {limit : Nat} {elem : Kind} {length : Value}
    (h : zeroArray limit elem length = .error e) : e.misnamed? = none := by
  unfold zeroArray at h
  split at h
  · split at h
    · cases h
      rfl
    · split at h <;> cases h
      rfl
  · cases h
    rfl

theorem misnamed?_checkDeclared {ty : TypeName} {value? : Option Value}
    (h : (checkDeclared ty value?).2 = .error e) : e.misnamed? = none := by
  unfold checkDeclared at h
  split at h
  · split at h
    · exact Value.misnamed?_coerce h
    · cases h
  · cases h
    rfl
  · split at h
    · cases h
      rfl
    · split at h <;> cases h
      rfl

theorem misnamed?_checkElement {elem : Kind} {declared : TypeName}
    (h : checkElement elem declared = .error e) : e.misnamed? = none := by
  unfold checkElement at h
  split at h <;> cases h
  rfl

end Evaluation

namespace Agreement

open Lowering (Frame Slot SlotKind ExprCode embeddedCallee)
open Evaluation

/-! Names without a slot -/

section Absent

variable {visible : String → Prop} {named : Nat → Slot → Binding → Prop} {temp : Nat → Prop}
  {slots : List Slot} {d : Nat} {stack : List (List (String × Binding))} {name : String}

theorem Models.find_of_go (h : Models visible named temp slots d stack)
    (hname : Environment.embedded.lookup name = none) {offset : Int}
    (hgo : Frame.resolve?.go name offset slots = none) : Environment.find name stack = none := by
  induction h generalizing offset with
  | base => simpa [Environment.find] using hname
  | temp _ _ _ _ ih =>
    rw [Frame.resolve?.go] at hgo
    split at hgo
    · cases hgo
    · exact ih hgo
  | @named _ _ own outer slot other _ _ _ hsome _ _ _ ih =>
    rw [Frame.resolve?.go] at hgo
    split at hgo
    · cases hgo
    · next hother =>
      have hne : name ≠ other := by
        rintro rfl
        simp [Slot.isNamed, hsome] at hother
      have hrest := ih hgo
      rw [Environment.find] at hrest ⊢
      rwa [lookup_cons_of_ne hne]
  | opened _ ih => simpa [Environment.find] using ih hgo
  | hidden _ _ _ _ _ _ _ ih =>
    simp only [Frame.resolve?.go] at hgo
    split at hgo
    · cases hgo
    · split at hgo
      · cases hgo
      · simpa [Environment.find] using ih hgo

theorem Models.lookup_of_declared (h : Models visible named temp slots d stack)
    (hname : (slots.takeWhile fun s => s.depth == d).any (·.isNamed name) = true) :
    ∃ own outer, stack = own :: outer ∧ (own.lookup name).isSome = true := by
  induction h with
  | base => cases hname
  | temp _ hword hnone _ ih =>
    rw [List.takeWhile_cons_of_pos (by simp [hword.depth]), List.any_cons] at hname
    exact ih (by simpa [Slot.isNamed, hnone] using hname)
  | @named _ _ own outer _ other b _ hword hsome _ _ _ ih =>
    refine ⟨_, _, rfl, ?_⟩
    by_cases hother : name = other
    · simp [hother]
    · rw [List.takeWhile_cons_of_pos (by simp [hword.depth]), List.any_cons] at hname
      obtain ⟨_, _, heq, hown⟩ := ih (by simpa [Slot.isNamed, hsome, Ne.symm hother] using hname)
      cases heq
      rwa [lookup_cons_of_ne hother]
  | @opened slots d _ h _ =>
    cases slots with
    | nil => cases hname
    | cons slot rest =>
      have := h.depth_le slot List.mem_cons_self
      rw [List.takeWhile_cons_of_neg (by simp; omega)] at hname
      cases hname
  | hidden _ _ _ _ _ hidx =>
    have := hidx.depth
    rw [List.takeWhile_cons_of_neg (by simp; omega)] at hname
    cases hname

end Absent

def Unreserved (name : String) : Prop :=
  name ≠ "#base" ∧ name ≠ "#idx"

instance : DecidablePred Unreserved :=
  fun _ => instDecidableAnd

theorem not_unreserved_base : ¬Unreserved "#base" := by
  decide

theorem not_unreserved_idx : ¬Unreserved "#idx" := by
  decide

/--
The named slots of a frame are the bindings of a state, whatever these hold.
-/
def SameNames (f : Frame) (s : State) : Prop :=
  Bound Unreserved (fun _ _ _ => True) (fun _ => True) f s.env

def Named : Halt → Prop
  | .error e => e.kind.misnamed? = none
  | .outOfFuel => True

/--
The generator and the evaluator take names for the same. A name that is of no embedded function has a slot if and only
if it is bound, and it may be declared in the current scope of the frame if and only if it is free in that of the
state. The name of an embedded function, which the generator knows without a slot, is bound to that function.
-/
structure ResolvesAlike (f : Frame) (s : State) : Prop where
  resolved {name : String} : Unreserved name → Embedded.ofName? name = none →
    ((f.resolve? name).isSome = true ↔ ∃ b, s.env.get name = .ok b)
  declared {name : String} : Unreserved name → Embedded.ofName? name = none →
    (f.isDeclared name = false ↔ ∀ k v, ∃ env, s.env.declare name k v = .ok env)
  embedded (fn : Embedded) : s.env.get fn.name = .ok ⟨.function, .function (.embedded fn)⟩

namespace SameNames

variable {f g : Frame} {s : State} {kind : SlotKind} {len : Option Nat} {name : String}

theorem start (config : EvaluatorConfig) : SameNames .empty (Session.start config).state :=
  Bound.start

theorem push_iff : SameNames (f.push kind len) s ↔ SameNames f s :=
  ⟨fun h => (Bound.of_push h).1, fun h => Bound.push h trivial⟩

theorem openScope (h : SameNames f s) : SameNames f.openScope { s with env := s.env.push } :=
  Bound.openScope h

theorem closeScope {added : List Slot} {t : State} (h : SameNames g s) (hfg : f.openScope.Extends g added)
    (hf : SameNames f t) : SameNames f { s with env := s.env.pop } :=
  Bound.closeScope h hfg hf

theorem openEach (h : SameNames f s) :
    SameNames ((f.openScope.pushNamed kind len "#base").pushNamed .int none "#idx").openScope
      { s with env := s.env.push } :=
  Bound.openEach h not_unreserved_base not_unreserved_idx

theorem closeEach {elem : SlotKind} (h : SameNames (inEach f kind len elem name) s) :
    SameNames f { s with env := s.env.pop } :=
  Bound.closeEach h not_unreserved_idx

theorem get {offset : Int} {slot : Slot} (h : SameNames f s) (hname : Unreserved name)
    (hslot : f.resolve? name = some (offset, slot)) : ∃ b, s.env.get name = .ok b := by
  obtain ⟨n, b, hfound, _⟩ := Bound.found h hname hslot
  exact ⟨b, hfound.get⟩

theorem set {offset : Int} {slot : Slot} (h : SameNames f s) (hname : Unreserved name)
    (hslot : f.resolve? name = some (offset, slot)) (v : Value) :
    ∃ env, s.env.set name v = .ok env ∧ SameNames f { s with env } := by
  obtain ⟨n, b, hfound, _⟩ := Bound.found h hname hslot
  exact hfound.set (fun _ _ _ _ _ => trivial) (fun _ _ _ => trivial) trivial

theorem declare (h : SameNames f s) (hfree : f.isDeclared name = false) (hname : Declarable Unreserved name)
    (k : Kind) (v : Value) :
    ∃ env, s.env.declare name k v = .ok env ∧ SameNames (f.pushNamed kind len name) { s with env } :=
  Bound.declare h hfree hname trivial

theorem embedded (h : SameNames f s) (fn : Embedded) :
    s.env.get fn.name = .ok ⟨.function, .function (.embedded fn)⟩ :=
  Bound.embedded h fn

theorem resolvesAlike (h : SameNames f s) : ResolvesAlike f s where
  resolved hname hfree := by
    constructor
    · intro hslot
      obtain ⟨⟨offset, slot⟩, hslot⟩ := Option.isSome_iff_exists.mp hslot
      exact h.get hname hslot
    · rintro ⟨b, hb⟩
      by_contra hslot
      obtain ⟨stack, hstack, hmodels⟩ := h
      rw [Option.not_isSome_iff_eq_none] at hslot
      have hfind := hmodels.find_of_go (lookup_embedded_eq_none hfree) hslot
      simp [hstack.get_of_find_none hfind] at hb
  declared hname hfree := by
    obtain ⟨stack, hstack, hmodels⟩ := h
    constructor
    · intro hslot k v
      obtain ⟨own, outer, rfl⟩ := hmodels.stack_eq_cons
      have hown := hmodels.lookup_of_isDeclared hslot rfl
      obtain ⟨env, henv, _⟩ := hstack.declare hown (lookup_embedded_eq_none hfree) k v
      exact ⟨env, henv⟩
    · intro hdeclare
      by_contra hslot
      rw [Bool.not_eq_false] at hslot
      obtain ⟨own, outer, rfl, hown⟩ := hmodels.lookup_of_declared hslot
      obtain ⟨env, henv⟩ := hdeclare .null .null
      simp [hstack.declare_of_isSome hown] at henv
  embedded := h.embedded

end SameNames

/--
From a state with the names of a frame, a run ends or halts in such a state, and with no error about a name.
-/
def Steady {α : Type} (f : Frame) (x : Run α) : Prop :=
  Triple (SameNames f) x (fun _ s => SameNames f s) (fun h s => Named h ∧ SameNames f s)

namespace Steady

variable {α β : Type} {f : Frame} {span : Span}

theorem pure {a : α} : Steady f (Pure.pure a) :=
  Triple.pure fun _ hs => hs

theorem bind {x : Run α} {y : α → Run β} (hx : Steady f x) (hy : ∀ a, Steady f (y a)) :
    Steady f (x >>= y) :=
  Triple.bind hx hy

theorem raise {e : EvalErrorKind} (he : e.misnamed? = none) : Steady f (Evaluation.raise (α := α) span e) :=
  Triple.raise fun _ hs => ⟨he, hs⟩

theorem liftAt {x : Except EvalErrorKind α} (h : ∀ e, x = .error e → e.misnamed? = none) :
    Steady f (Evaluation.liftAt span x) :=
  Triple.liftAt (fun _ _ _ hs => hs) (fun e _ hx hs => ⟨h e hx, hs⟩)

theorem push_iff {kind : SlotKind} {len : Option Nat} {x : Run α} : Steady (f.push kind len) x ↔ Steady f x := by
  unfold Steady Triple
  simp only [SameNames.push_iff]

theorem literal {x : Run Value} (hx : Steady f x) : Steady f (Evaluation.literal span x) :=
  Triple.literal hx (fun _ _ hs _ => hs) (fun _ _ _ hs => ⟨rfl, hs⟩)

theorem condition {x : Run Value} (hx : Steady f x) : Steady f (Evaluation.condition span x) :=
  Triple.condition hx.literal (fun _ _ hs => hs) (fun _ _ hs _ => ⟨rfl, hs⟩)

end Steady

/-! Variables -/

section Variables

variable {f : Frame} {span : Span} {name : String} {offset : Int} {slot : Slot}

theorem steady_get {β : Type} {y : Binding → Run β} (hname : Unreserved name)
    (hslot : f.resolve? name = some (offset, slot)) (hy : ∀ b, Steady f (y b)) :
    Steady f (do y (← liftAt span ((← environment).get name))) := by
  intro s hs
  obtain ⟨b, hget⟩ := hs.get hname hslot
  have hrun : (do y (← liftAt span ((← environment).get name)) : Run β) s = y b s := by
    change EStateM.bind (liftAt span (s.env.get name)) y s = _
    rw [hget]
    rfl
  have := hy b s hs
  rwa [hrun]

theorem steady_readVariable (hname : Unreserved name) (hslot : f.resolve? name = some (offset, slot)) :
    Steady f (readVariable span name) :=
  steady_get hname hslot fun _ => .pure

theorem steady_writeVariable {v : Value} (hname : Unreserved name)
    (hslot : f.resolve? name = some (offset, slot)) : Steady f (writeVariable span name v) := by
  intro s hs
  obtain ⟨env, hset, henv⟩ := hs.set hname hslot v
  have hrun : writeVariable span name v s = .ok () { s with env } := by
    change EStateM.bind (liftAt span (s.env.set name v)) setEnvironment s = _
    rw [hset]
    rfl
  rw [hrun]
  exact henv

theorem steady_assignValue {v : Value} {b : Binding} (hname : Unreserved name)
    (hslot : f.resolve? name = some (offset, slot)) :
    Steady f (assignValue span name b.kind v) := by
  unfold assignValue
  split
  · exact (steady_writeVariable hname hslot).bind fun _ => .pure
  · next herror =>
    exact (steady_writeVariable hname hslot).bind fun _ => .raise (Value.misnamed?_coerce herror)

theorem steady_assign {op : AssignOp} {v : Value} (hname : Unreserved name)
    (hslot : f.resolve? name = some (offset, slot)) : Steady f (assign span name op v) := by
  apply steady_get hname hslot
  intro b
  dsimp only
  split
  · exact Steady.pure.bind fun _ => steady_assignValue hname hslot
  · exact Steady.bind (.liftAt fun _ => Value.misnamed?_binary) fun _ => steady_assignValue hname hslot

theorem steady_stepVariable {op : StepOp} (hname : Unreserved name)
    (hslot : f.resolve? name = some (offset, slot)) : Steady f (stepVariable span name op) := by
  apply (steady_readVariable hname hslot).bind
  intro v
  apply Steady.bind (.liftAt fun _ => Value.misnamed?_step)
  intro stepped
  exact (steady_writeVariable hname hslot).bind fun _ => .pure

theorem steady_readArray (hname : Unreserved name) (hslot : f.resolve? name = some (offset, slot)) :
    Steady f (readArray span name) := by
  apply (steady_readVariable hname hslot).bind
  intro v
  split
  · exact .pure
  · exact .raise rfl

theorem steady_copyArray {kind : Kind} (hname : Unreserved name)
    (hslot : f.resolve? name = some (offset, slot)) : Steady f (copyArray span kind name) := by
  apply (steady_readVariable hname hslot).bind
  intro v
  split
  · split
    · exact .pure
    · exact .raise rfl
  · exact .raise rfl

theorem steady_readElement {i : Int} (hname : Unreserved name)
    (hslot : f.resolve? name = some (offset, slot)) : Steady f (readElement span name i) := by
  apply (steady_readArray hname hslot).bind
  rintro ⟨_, items⟩
  apply Steady.bind (.liftAt fun _ => misnamed?_checkedIndex)
  intro k
  split
  · exact .pure
  · exact .raise rfl

theorem steady_storeElement {i : Nat} {items : List Value} {elem : Kind} {v : Value} (hname : Unreserved name)
    (hslot : f.resolve? name = some (offset, slot)) :
    Steady f (do
      let stored ← liftAt span (elementOf v elem)
      writeVariable span name (.array elem (items.set i stored))
      return stored) := by
  apply Steady.bind (.liftAt fun _ => misnamed?_elementOf)
  intro stored
  exact (steady_writeVariable hname hslot).bind fun _ => .pure

theorem steady_writeElement {i : Int} {op : AssignOp} {v : Value} (hname : Unreserved name)
    (hslot : f.resolve? name = some (offset, slot)) : Steady f (writeElement span name i op v) := by
  apply (steady_readArray hname hslot).bind
  rintro ⟨elem, items⟩
  apply (steady_readElement hname hslot).bind
  intro old
  dsimp only
  split
  · exact Steady.pure.bind fun _ => steady_storeElement hname hslot
  · exact Steady.bind (.liftAt fun _ => Value.misnamed?_binary) fun _ => steady_storeElement hname hslot

theorem steady_positionOf {v : Value} (hname : Unreserved name)
    (hslot : f.resolve? name = some (offset, slot)) : Steady f (positionOf span name v) := by
  apply (steady_readArray hname hslot).bind
  rintro ⟨_, items⟩
  dsimp only
  split <;> exact .pure

end Variables

/-! Expressions -/

section Expressions

variable {cx : Context} {f : Frame} {n n' : Nat} {want : Option SlotKind} {kind : SlotKind}
  {len : Option Nat} {c : List Assembly.Line}

theorem steady_logical {span : Span} {op : BinaryOp} {l r : Expr} (hop : op.cls = .logical)
    (hl : Steady f (evaluate cx l)) (hr : Steady f (evaluate cx r)) :
    Steady f (evaluate cx (.binary span op l r)) := by
  have hsecond : Steady f (do return Value.bool (← condition r.span (evaluate cx r))) :=
    hr.condition.bind fun _ => .pure
  cases op with
  | and =>
    apply hl.condition.bind
    intro b
    split
    · exact hsecond
    · exact .pure
  | or =>
    apply hl.condition.bind
    intro b
    split
    · exact .pure
    · exact hsecond
  | _ => cases hop

theorem steady_call {span : Span} {callee arg : Expr} {fn : Embedded} (hcallee : embeddedCallee callee = .ok fn)
    (harg : Steady f (evaluate cx arg)) : Steady f (evaluate cx (.call span callee [arg])) := by
  obtain ⟨place, rfl⟩ := embeddedCallee_eq hcallee
  intro s hs
  -- The name of the callee is bound to the embedded function that the generator takes it for.
  rw [evaluate_call cx (hs.embedded fn)]
  exact harg.literal.bind (fun _ => .liftAt fun _ => Embedded.misnamed?_apply) s hs

theorem steady_evaluate {e : Expr} (h : ExprCode f n want e kind len c n')
    (hnames : ∀ name ∈ e.names, Unreserved name) : Steady f (evaluate cx e) := by
  induction h with
  | literal =>
    rw [evaluate]
    exact .liftAt fun _ => Value.misnamed?_ofLiteral
  | logical hop _ _ ih₁ ih₂ =>
    simp only [Expr.names, List.forall_mem_append] at hnames
    exact steady_logical hop (ih₁ hnames.1) (ih₂ hnames.2)
  | binary hop _ _ _ ih₁ ih₂ =>
    simp only [Expr.names, List.forall_mem_append] at hnames
    rw [evaluate_binary _ _ _ _ hop]
    apply (ih₁ hnames.1).literal.bind
    intro v
    apply (Steady.push_iff.mp (ih₂ hnames.2)).literal.bind
    exact fun w => .liftAt fun _ => Value.misnamed?_binary
  | unary _ _ ih =>
    rw [evaluate]
    exact (ih hnames).literal.bind fun _ => .liftAt fun _ => Value.misnamed?_unary
  | grouping _ ih =>
    rw [evaluate]
    exact ih hnames
  | var hslot =>
    rw [evaluate]
    exact steady_readVariable (hnames _ List.mem_cons_self) hslot
  | assign hslot _ _ ih =>
    simp only [Expr.names, List.forall_mem_cons] at hnames
    rw [evaluate]
    exact (ih hnames.2).literal.bind fun _ => steady_assign hnames.1 hslot
  | compound hslot _ _ _ _ _ ih =>
    simp only [Expr.names, List.forall_mem_cons] at hnames
    rw [evaluate]
    exact (Steady.push_iff.mp (ih hnames.2)).literal.bind fun _ => steady_assign hnames.1 hslot
  | step hslot _ =>
    rw [evaluate]
    exact steady_stepVariable (hnames _ List.mem_cons_self) hslot
  | ternary _ _ _ ih₁ ih₂ ih₃ =>
    simp only [Expr.names, List.forall_mem_append] at hnames
    rw [evaluate]
    apply (ih₁ hnames.1.1).condition.bind
    intro b
    split
    · exact ih₂ hnames.1.2
    · exact ih₃ hnames.2
  | index hslot _ _ ih =>
    simp only [Expr.names, List.forall_mem_cons] at hnames
    rw [evaluate]
    apply (ih hnames.2).literal.bind
    intro v
    apply Steady.bind (.liftAt fun _ => misnamed?_indexOfValue)
    exact fun i => steady_readElement hnames.1 hslot
  | indexAssign hslot _ _ _ ih₁ ih₂ =>
    simp only [Expr.names, List.forall_mem_cons, List.forall_mem_append] at hnames
    rw [evaluate]
    apply (ih₁ hnames.2.1).literal.bind
    intro v
    apply Steady.bind (.liftAt fun _ => misnamed?_indexOfValue)
    intro i
    exact (Steady.push_iff.mp (ih₂ hnames.2.2)).literal.bind fun _ => steady_writeElement hnames.1 hslot
  | compoundIndexAssign hslot _ _ _ _ _ _ ih₁ ih₂ =>
    simp only [Expr.names, List.forall_mem_cons, List.forall_mem_append] at hnames
    rw [evaluate]
    apply (ih₁ hnames.2.1).literal.bind
    intro v
    apply Steady.bind (.liftAt fun _ => misnamed?_indexOfValue)
    intro i
    apply (Steady.push_iff.mp (Steady.push_iff.mp (ih₂ hnames.2.2))).literal.bind
    exact fun _ => steady_writeElement hnames.1 hslot
  | indexOf hslot _ _ ih =>
    simp only [Expr.names, List.forall_mem_cons] at hnames
    rw [evaluate]
    exact (ih hnames.2).literal.bind fun _ => steady_positionOf hnames.1 hslot
  | length hslot _ =>
    rw [evaluate]
    exact (steady_readArray (hnames _ List.mem_cons_self) hslot).bind fun _ => .pure
  | join hslot _ =>
    rw [evaluate]
    exact (steady_readArray (hnames _ List.mem_cons_self) hslot).bind fun _ => .pure
  | call hcallee _ _ ih =>
    simp only [Expr.names, Expr.namesOfAll, List.append_nil, List.forall_mem_append] at hnames
    exact steady_call hcallee (ih hnames.2)
  | narrowed hc =>
    obtain ⟨t, ht, _⟩ := evaluate_of_singleChar? cx hc
    rw [ht]
    exact .pure
  | converted _ _ _ ih => exact ih hnames

end Expressions

end Agreement

end Arbor
