import Arbor.Proofs.Evaluation.Effects

/-!
This module contains the declarations that fail: which errors come out as the error of a sub-expression with nothing
bound, and which leave the declared name bound to null.
-/

namespace Arbor.Evaluation

/-! Sub-expressions -/

/--
A sub-expression of a declaration: how it is evaluated, and the declaration's own check of its value.
-/
structure Component where
  run : Run Value
  check : Value → Except EvalErrorKind Value

inductive Upshot where
  | failed (why : Halt)
  | refused (why : EvalErrorKind)
  | passed

def upshot : List Component → State → Upshot × State
  | [], s => (.passed, s)
  | p :: ps, s =>
    match p.run s with
    | .error why t => (.failed why, t)
    | .ok v t =>
      match p.check v with
      | .error why => (.refused why, t)
      | .ok _ => upshot ps t

def elementComponent (cx : Context) (elem : Kind) (e : Expr) : Component :=
  ⟨literal e.span (evaluate cx e), fun v => elementOf v elem⟩

mutual

def elementComponents (cx : Context) (s : Scalar) (dims : Nat) : Expr → List Component
  | .arrayLiteral span inner =>
    if 1 < dims then elementsComponents cx s (dims - 1) inner
    else [elementComponent cx (.arrayOf (.scalar s) (dims - 1)) (.arrayLiteral span inner)]
  | e => [elementComponent cx (.arrayOf (.scalar s) (dims - 1)) e]

def elementsComponents (cx : Context) (s : Scalar) (dims : Nat) : List Expr → List Component
  | [] => []
  | e :: rest => elementComponents cx s dims e ++ elementsComponents cx s dims rest

end

def arrayComponents (cx : Context) (s : Scalar) (dims : Nat) : ArrayInit → List Component
  | .values items => elementsComponents cx s dims items
  | .sized length =>
    [⟨literal length.span (evaluate cx length),
      zeroArray cx.maxArrayLength (.arrayOf (.scalar s) (dims - 1))⟩]
  | .copyOf _ => []

def components (cx : Context) : Stmt → List Component
  | .varDecl _ ty _ (some e) => [⟨evaluate cx e, fun v => (checkDeclared ty (some v)).2⟩]
  | .arrayDecl _ elem dims _ init =>
    match elem.scalar? with
    | none => []
    | some s => arrayComponents cx s (max dims.toNat 1) init
  | _ => []

inductive DeclarationOf (name : String) : Stmt → Prop where
  | single (span : Span) (ty : TypeName) (init : Option Expr) :
    DeclarationOf name (.varDecl span ty name init)
  | array (span : Span) (elem : TypeName) (dims : UInt32) (init : ArrayInit) :
    DeclarationOf name (.arrayDecl span elem dims name init)

/--
Whether a declaration takes the error of a sub-expression for its own. An array declaration does so by the kind of the
error alone.
-/
def absorbs : Stmt → EvalErrorKind → Bool
  | .arrayDecl .., why => why.leavesNull
  | _, _ => false

inductive LeavesNull (span : Span) (name : String) (kind : Kind) (why : EvalErrorKind) (s : State) :
    EvalError → State → Prop where
  | bound (env : Environment) (h : s.env.declare name kind .null = .ok env) :
    LeavesNull span name kind why s ⟨why, span⟩ { s with env }
  | taken (why' : EvalErrorKind) (h : s.env.declare name kind .null = .error why') :
    LeavesNull span name kind why s ⟨why', span⟩ s

/-! Evaluation of sub-expressions -/

theorem upshot_append (ps qs : List Component) (s : State) :
    upshot (ps ++ qs) s = match upshot ps s with
      | (.passed, t) => upshot qs t
      | r => r := by
  induction ps generalizing s with
  | nil => rfl
  | cons p ps ih =>
    rw [List.cons_append, upshot, upshot]
    cases p.run s with
    | error why t => rfl
    | ok v t =>
      dsimp only
      cases p.check v with
      | error why => rfl
      | ok _ => exact ih t

/--
The result of a run that evaluates sub-expressions: it fails with the one that fails, or with the error of a check that
refuses, which is one that leaves null.
-/
def Accounts {α : Type} (ps : List Component) (s : State) : EStateM.Result Halt State α → Prop
  | .ok _ t => upshot ps s = (.passed, t)
  | .error why t => upshot ps s = (.failed why, t) ∨
    ∃ e, why = .error e ∧ e.kind.leavesNull = true ∧ upshot ps s = (.refused e.kind, t)

def Realizes {α : Type} (x : Run α) (ps : List Component) : Prop :=
  ∀ s, Accounts ps s (x s)

section Realizes

variable {α β : Type} {x : Run α} {ps qs : List Component}

theorem realizes_pure (a : α) : Realizes (pure a) [] :=
  fun _ => rfl

theorem Realizes.bind {f : α → Run β} (hx : Realizes x ps) (hf : ∀ a, Realizes (f a) qs) :
    Realizes (x >>= f) (ps ++ qs) := by
  intro s
  have hx := hx s
  change Accounts (ps ++ qs) s (EStateM.bind x f s)
  unfold EStateM.bind
  cases h : x s with
  | ok a t =>
    rw [h] at hx
    have hqs : upshot (ps ++ qs) s = upshot qs t := by rw [upshot_append, hx]
    have hf := hf a t
    unfold Accounts at hf ⊢
    rwa [hqs]
  | error why t =>
    rw [h] at hx
    rcases hx with hx | ⟨e, rfl, he, hx⟩
    · exact .inl (by rw [upshot_append, hx])
    · exact .inr ⟨e, rfl, he, by rw [upshot_append, hx]⟩

theorem Realizes.map {f : α → β} (hx : Realizes x ps) : Realizes (do return f (← x)) ps := by
  have h := hx.bind fun a => realizes_pure (f a)
  rwa [List.append_nil] at h

theorem realizes_component {p : Component} {span : Span}
    (hcheck : ∀ v why, p.check v = .error why → why.leavesNull = true) :
    Realizes (do liftAt span (p.check (← p.run))) [p] := by
  intro s
  change Accounts [p] s (EStateM.bind p.run (fun v => liftAt span (p.check v)) s)
  unfold EStateM.bind
  cases hrun : p.run s with
  | error why t => exact .inl (by rw [upshot, hrun])
  | ok v t =>
    have hp : upshot [p] s = match p.check v with
        | .error why => (.refused why, t)
        | .ok _ => (.passed, t) := by rw [upshot, hrun]; rfl
    dsimp only
    cases h : p.check v with
    | ok w => exact hp.trans (by rw [h])
    | error why => exact .inr ⟨⟨why, span⟩, rfl, hcheck v why h, hp.trans (by rw [h])⟩

end Realizes

theorem leavesNull_of_elementOf {v : Value} {elem : Kind} {why : EvalErrorKind}
    (h : elementOf v elem = .error why) : why.leavesNull = true := by
  unfold elementOf at h
  split at h
  · cases h
  · cases h
    rfl

theorem leavesNull_of_zeroArray {limit : Nat} {elem : Kind} {v : Value} {why : EvalErrorKind}
    (h : zeroArray limit elem v = .error why) : why.leavesNull = true := by
  unfold zeroArray at h
  split at h
  · split at h
    · cases h
      rfl
    · split at h <;> cases h
      rfl
  · cases h
    rfl

theorem realizes_elementComponent (cx : Context) (elem : Kind) (e : Expr) :
    Realizes (convertedElement cx elem e) [elementComponent cx elem e] :=
  realizes_component fun _ _ => leavesNull_of_elementOf

mutual

theorem realizes_element (cx : Context) (s : Scalar) (dims : Nat) (e : Expr) :
    Realizes (element cx s dims e) (elementComponents cx s dims e) := by
  cases e with
  | arrayLiteral span inner =>
    unfold element elementComponents
    split
    · exact (realizes_elements cx s (dims - 1) inner).map
    · exact realizes_elementComponent _ _ _
  | _ => exact realizes_elementComponent _ _ _

theorem realizes_elements (cx : Context) (s : Scalar) (dims : Nat) (es : List Expr) :
    Realizes (elements cx s dims es) (elementsComponents cx s dims es) := by
  cases es with
  | nil => exact realizes_pure _
  | cons e rest =>
    unfold elements elementsComponents
    apply (realizes_element cx s dims e).bind
    intro v
    exact (realizes_elements cx s dims rest).map

end

theorem realizes_initialArray (cx : Context) (span : Span) (s : Scalar) (dims : Nat)
    {init : ArrayInit} (hinit : ∀ source, init ≠ .copyOf source) :
    Realizes (initialArray cx span init s dims) (arrayComponents cx s dims init) := by
  cases init with
  | values items => exact (realizes_elements cx s dims items).map
  | sized length => exact realizes_component fun _ _ => leavesNull_of_zeroArray
  | copyOf source => exact absurd rfl (hinit source)

/-! Binding -/

section Binding

variable (span : Span) (name : String) (kind : Kind) (s : State)

theorem exists_leavesNull_of_bindChecked (why : EvalErrorKind) :
    ∃ e t, LeavesNull span name kind why s e t ∧
      bindChecked span name kind (.error why) s = .error (.error e) t := by
  have hrun : bindChecked span name kind (.error why) s =
      EStateM.bind (EStateM.bind (liftAt span (s.env.declare name kind .null)) setEnvironment)
        (fun _ => raise span why) s := rfl
  cases h : s.env.declare name kind .null with
  | ok env => exact ⟨_, _, .bound env h, by rw [hrun, h]; rfl⟩
  | error why' => exact ⟨_, _, .taken why' h, by rw [hrun, h]; rfl⟩

theorem declare_cases (v : Value) :
    (∃ env, s.env.declare name kind v = .ok env ∧ declare span name kind v s = .ok () { s with env }) ∨
      declare span name kind v s = .error (.error ⟨.alreadyDeclared name, span⟩) s := by
  have hrun : declare span name kind v s =
      EStateM.bind (liftAt span (s.env.declare name kind v)) setEnvironment s := rfl
  cases h : s.env.declare name kind v with
  | ok env => exact .inl ⟨env, rfl, by rw [hrun, h]; rfl⟩
  | error why =>
    have hwhy : why = .alreadyDeclared name := by
      unfold Environment.declare at h
      split at h <;> cases h
      rfl
    subst hwhy
    exact .inr (by rw [hrun, h]; rfl)

end Binding

/-! Declarations -/

def EndsNull (span : Span) (name : String) (why : EvalErrorKind) (t : State)
    (r : EStateM.Result Halt State Flow) : Prop :=
  ∃ kind e' t', LeavesNull span name kind why t e' t' ∧ r = .error (.error e') t'

def EndsBound (span : Span) (name : String) (t : State) (r : EStateM.Result Halt State Flow) : Prop :=
  (∃ kind v env, t.env.declare name kind v = .ok env ∧ r = .ok .normal { t with env }) ∨
    r = .error (.error ⟨.alreadyDeclared name, span⟩) t

/--
How the run of a declaration ends after the evaluation of its sub-expressions.
-/
def Concludes (d : Stmt) (name : String) (r : EStateM.Result Halt State Flow) :
    Upshot × State → Prop
  | (.failed .outOfFuel, t) => r = .error .outOfFuel t
  | (.failed (.error e), t) =>
    if absorbs d e.kind then EndsNull d.span name e.kind t r else r = .error (.error e) t
  | (.refused why, t) => EndsNull d.span name why t r
  | (.passed, t) => EndsBound d.span name t r

theorem endsBound_bindChecked (span : Span) (name : String) (kind : Kind) (v : Value) (t : State) :
    EndsBound span name t ((do bindChecked span name kind (.ok v); return .normal : Run Flow) t) := by
  have hrun : (do bindChecked span name kind (.ok v); return .normal : Run Flow) t =
      EStateM.bind (declare span name kind v) (fun _ => pure .normal) t := rfl
  rw [hrun]
  unfold EStateM.bind
  rcases declare_cases span name kind t v with ⟨env, henv, h⟩ | h
  · exact .inl ⟨kind, v, env, henv, by rw [h]; rfl⟩
  · exact .inr (by rw [h])

theorem endsNull_bindChecked (span : Span) (name : String) (kind : Kind) (why : EvalErrorKind) (t : State) :
    EndsNull span name why t
      ((do bindChecked span name kind (.error why); return .normal : Run Flow) t) := by
  obtain ⟨e', t', hnull, h⟩ := exists_leavesNull_of_bindChecked span name kind t why
  have hrun : (do bindChecked span name kind (.error why); return .normal : Run Flow) t =
      EStateM.bind (bindChecked span name kind (.error why)) (fun _ => pure .normal) t := rfl
  refine ⟨kind, e', t', hnull, ?_⟩
  rw [hrun]
  unfold EStateM.bind
  rw [h]

theorem concludes_varDecl (cx : Context) (span : Span) (ty : TypeName) (name : String) (e : Expr) (s : State) :
    Concludes (.varDecl span ty name (some e)) name (execute cx (.varDecl span ty name (some e)) s)
      (upshot (components cx (.varDecl span ty name (some e))) s) := by
  have hrun : execute cx (.varDecl span ty name (some e)) s =
      EStateM.bind (evaluate cx e) (fun v => do
        bindChecked span name (checkDeclared ty (some v)).1 (checkDeclared ty (some v)).2
        return .normal) s := by
    rw [execute]
    change EStateM.bind (EStateM.map some (evaluate cx e)) _ s = _
    unfold EStateM.bind EStateM.map
    cases evaluate cx e s <;> rfl
  rw [hrun, components, upshot]
  unfold EStateM.bind
  dsimp only
  cases h : evaluate cx e s with
  | error why t =>
    cases why with
    | outOfFuel => rfl
    | error e => rfl
  | ok v t =>
    dsimp only [upshot]
    cases hchecked : (checkDeclared ty (some v)).2 with
    | error why => exact endsNull_bindChecked ..
    | ok w => exact endsBound_bindChecked ..

theorem concludes_of_realizes {d : Stmt} (hd : ∀ why, absorbs d why = why.leavesNull) (name : String)
    (kind : Kind) {x : Run Value} {ps : List Component} (hx : Realizes x ps) (s : State) :
    Concludes d name ((do
      let checked ← checkArray x
      bindChecked d.span name kind checked
      return .normal : Run Flow) s) (upshot ps s) := by
  have hx := hx s
  change Concludes d name (EStateM.bind (checkArray x) _ s) _
  unfold EStateM.bind checkArray
  cases h : x s with
  | ok v t =>
    rw [h] at hx
    change upshot ps s = (.passed, t) at hx
    rw [hx]
    exact endsBound_bindChecked ..
  | error why t =>
    rw [h] at hx
    rcases hx with hx | ⟨e, rfl, he, hx⟩
    · rw [hx]
      cases why with
      | outOfFuel => rfl
      | error e =>
        dsimp only [Concludes]
        rw [hd]
        cases he : e.kind.leavesNull with
        | false => rfl
        | true => exact endsNull_bindChecked ..
    · rw [hx]
      dsimp only
      rw [if_pos he]
      exact endsNull_bindChecked ..

theorem components_arrayDecl (cx : Context) (span : Span) {elem : TypeName} {scalar : Scalar}
    (helem : elem.scalar? = some scalar) (dims : UInt32) (name : String) (init : ArrayInit) :
    components cx (.arrayDecl span elem dims name init) = arrayComponents cx scalar (max dims.toNat 1) init := by
  rw [components, helem]

theorem concludes_arrayDecl (cx : Context) (span : Span) (elem : TypeName) (dims : UInt32) (name : String)
    {init : ArrayInit} (s : State) (hcomponents : components cx (.arrayDecl span elem dims name init) ≠ []) :
    Concludes (.arrayDecl span elem dims name init) name (execute cx (.arrayDecl span elem dims name init) s)
      (upshot (components cx (.arrayDecl span elem dims name init)) s) := by
  cases helem : elem.scalar? with
  | none => simp [components, helem] at hcomponents
  | some scalar =>
    rw [components_arrayDecl cx span helem] at hcomponents ⊢
    have hinit : ∀ source, init ≠ .copyOf source := by
      rintro source rfl
      exact hcomponents rfl
    have hrun : execute cx (.arrayDecl span elem dims name init) = (do
        let checked ← checkArray (initialArray cx span init scalar (max dims.toNat 1))
        bindChecked span name (Kind.arrayOf (.scalar scalar) (max dims.toNat 1)) checked
        return .normal : Run Flow) := by
      rw [execute, declareArray, helem]
      simp only [bind_assoc]
    have hrealizes := realizes_initialArray cx span scalar (max dims.toNat 1) hinit
    rw [hrun]
    exact concludes_of_realizes (d := .arrayDecl span elem dims name init) (fun _ => rfl) name _ hrealizes s

/--
The error of a sub-expression is the error of the declaration, which binds nothing, unless an array declaration takes it
for its own. Only then, and where its own check of a value refuses it, does a declaration leave its name bound to null.
-/
theorem execute_declaration (cx : Context) {name : String} {d : Stmt} (hd : DeclarationOf name d)
    (hcomponents : components cx d ≠ []) (s : State) :
    (∀ e t, upshot (components cx d) s = (.failed (.error e), t) → absorbs d e.kind = false →
      execute cx d s = .error (.error e) t) ∧
    (∀ e t, upshot (components cx d) s = (.failed (.error e), t) → absorbs d e.kind = true →
      EndsNull d.span name e.kind t (execute cx d s)) ∧
    (∀ why t, upshot (components cx d) s = (.refused why, t) →
      EndsNull d.span name why t (execute cx d s)) ∧
    (∀ t, upshot (components cx d) s = (.passed, t) → EndsBound d.span name t (execute cx d s)) := by
  have hconcludes : Concludes d name (execute cx d s) (upshot (components cx d) s) := by
    cases hd with
    | single span ty init =>
      cases init with
      | none => exact absurd rfl hcomponents
      | some e => exact concludes_varDecl ..
    | array span elem dims init => exact concludes_arrayDecl cx span elem dims name s hcomponents
  refine ⟨fun e t h hkind => ?_, fun e t h hkind => ?_, fun why t h => ?_, fun t h => ?_⟩
  · rw [h] at hconcludes
    dsimp only [Concludes] at hconcludes
    rwa [if_neg (by simp [hkind])] at hconcludes
  · rw [h] at hconcludes
    dsimp only [Concludes] at hconcludes
    rwa [if_pos hkind] at hconcludes
  · rwa [h] at hconcludes
  · rwa [h] at hconcludes

def column (n : UInt32) : Span :=
  ⟨"", ⟨1, n, n⟩, ⟨1, n + 1, n + 1⟩⟩

def startState : State := (Session.start .default).state

def dividingElement : Stmt :=
  .arrayDecl (column 1) .int 1 "v" (.values [.literal (column 2) (.int 7),
    .binary (column 3) .div (.literal (column 4) (.int 1)) (.literal (column 5) (.int 0))])

def choosingElement : Stmt :=
  .arrayDecl (column 1) .int 1 "v" (.values [.ternary (column 2) (.literal (column 3) (.int 1))
    (.literal (column 4) (.int 2)) (.literal (column 5) (.int 3))])

theorem execute_declaration_elements :
    (upshot (components (.of .default 0) dividingElement) startState =
        (.failed (.error ⟨.divisionByZero, column 3⟩), startState) ∧
      execute (.of .default 0) dividingElement startState = .error (.error ⟨.divisionByZero, column 3⟩) startState) ∧
    upshot (components (.of .default 0) choosingElement) startState =
        (.failed (.error ⟨.typeMismatch "bool" "int", column 3⟩), startState) ∧
      EndsNull (column 1) "v" (.typeMismatch "bool" "int") startState
        (execute (.of .default 0) choosingElement startState) := by
  have hdividing : upshot (components (.of .default 0) dividingElement) startState =
      (.failed (.error ⟨.divisionByZero, column 3⟩), startState) := rfl
  have hchoosing : upshot (components (.of .default 0) choosingElement) startState =
      (.failed (.error ⟨.typeMismatch "bool" "int", column 3⟩), startState) := rfl
  have hdivides := execute_declaration (.of .default 0) (d := dividingElement) (.array ..) (List.cons_ne_nil _ _)
    startState
  have hchooses := execute_declaration (.of .default 0) (d := choosingElement) (.array ..) (List.cons_ne_nil _ _)
    startState
  exact ⟨⟨hdividing, hdivides.1 _ _ hdividing rfl⟩, hchoosing, hchooses.2.1 _ _ hchoosing rfl⟩

/--
The error of the condition comes out at the place of the declaration, and the name is bound to null.
-/
theorem choosingElement_absorbed :
    Starts .default (.stmt choosingElement) startState ∧
    upshot (components (.of .default 0) choosingElement) startState =
      (.failed (.error ⟨.typeMismatch "bool" "int", column 3⟩), startState) ∧
    ∃ t, execute (.of .default 0) choosingElement startState =
        .error (.error ⟨.typeMismatch "bool" "int", column 1⟩) t ∧
      t.env.get "v" = .ok ⟨.array (.scalar .int), .null⟩ :=
  ⟨.statement (.program ⟨[choosingElement]⟩ .start), rfl, _, rfl, by with_unfolding_all rfl⟩

end Arbor.Evaluation
