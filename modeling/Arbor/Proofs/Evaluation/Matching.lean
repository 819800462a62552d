import Arbor.Proofs.Environment.Renaming
import Arbor.Proofs.Evaluation.WellKinded

/-!
This module contains the rules for two runs that match: started where the scopes of one arena stand for those of
another one, they yield the same up to the numbers of scopes and end where the scopes still stand for each other.
-/

namespace Arbor.Evaluation

open Value (Renamed IsData)

/-! Data -/

theorem isData_elementOf {v w : Value} {elem : Kind} (hv : v.IsData) (h : elementOf v elem = .ok w) : w.IsData := by
  unfold elementOf at h
  split at h
  · next hw =>
    cases h
    exact Value.isData_of_coerce hv hw
  · cases h

theorem isData_arrayOfValues {values : List Value} {v : Value} (hvalues : ∀ w ∈ values, w.IsData)
    (h : arrayOfValues values = .ok v) : v.IsData := by
  unfold arrayOfValues at h
  split at h
  · cases h
  · split at h
    · cases h
    · cases h
      exact .array _ _ hvalues

theorem isData_zeroArray {limit : Nat} {elem : Kind} {n v : Value} (h : zeroArray limit elem n = .ok v) :
    v.IsData := by
  unfold zeroArray at h
  split at h
  · split at h
    · cases h
    · split at h <;> cases h
      apply IsData.array
      intro w hw
      rw [List.eq_of_mem_replicate hw]
      exact Value.isData_zero elem
  · cases h

theorem checkDeclared_eq {owner : Nat → Nat} {n : Nat} {v v' : Value} (hv : v.Renamed owner n v') (ty : TypeName) :
    checkDeclared ty (some v') = checkDeclared ty (some v) ∧
      ∀ w, (checkDeclared ty (some v)).2 = .ok w → w.IsData := by
  unfold checkDeclared
  cases ty.scalar? with
  | some s => exact ⟨congrArg _ (hv.coerce_eq _), fun w hw => hv.isData_of_coerce hw⟩
  | none =>
    split
    · next hs => cases hs
    · exact ⟨rfl, nofun⟩
    · cases hv with
      | data hdata =>
        refine ⟨rfl, fun w hw => ?_⟩
        dsimp only at hw
        split at hw <;> cases hw
        exact hdata
      | embedded F => exact ⟨rfl, nofun⟩
      | closure F hF => exact ⟨rfl, nofun⟩

theorem isData_bindArguments {params : List Param} {values : List Value} {bound : List (String × Kind × Value)}
    (hvalues : ∀ v ∈ values, v.IsData) (h : bindArguments params values = .ok bound) :
    ∀ p ∈ bound, p.2.2.IsData := by
  induction params generalizing values bound with
  | nil =>
    cases h
    simp
  | cons p ps ih =>
    cases values with
    | nil =>
      cases h
      simp
    | cons v vs =>
      rw [List.forall_mem_cons] at hvalues
      simp only [bindArguments, bind, Except.bind] at h
      split at h
      · cases h
      · next stored hstored =>
        split at h
        · cases h
        · next rest hrest =>
          cases h
          rw [List.forall_mem_cons]
          exact ⟨Value.isData_of_coerce hvalues.1 hstored, ih hvalues.2 hrest⟩

structure State.Renames (owner : Nat → Nat) (s s' : State) : Prop where
  env : s.env.Renames owner s'.env
  lines : s'.lines = s.lines
  callDepth : s'.callDepth = s.callDepth

/--
Two states that stand for each other go on to two others that do.
-/
structure State.Continues (owner owner' : Nat → Nat) (s s' t t' : State) : Prop where
  env : Environment.Continues owner owner' s.env s'.env t.env t'.env
  lines : t'.lines = t.lines
  callDepth : t'.callDepth = t.callDepth

namespace State.Continues

variable {owner owner' owner'' : Nat → Nat} {s s' t t' u u' : State}

theorem refl (h : s.Renames owner s') : Continues owner owner s s' s s' :=
  ⟨.refl h.env, h.lines, h.callDepth⟩

theorem trans (h : Continues owner owner' s s' t t') (h' : Continues owner' owner'' t t' u u') :
    Continues owner owner'' s s' u u' :=
  ⟨h.env.trans h'.env, h'.lines, h'.callDepth⟩

theorem renames (h : Continues owner owner' s s' t t') : t.Renames owner' t' :=
  ⟨h.env.renames, h.lines, h.callDepth⟩

end State.Continues

/--
Two runs end in the same way, in states that stand for each other. What they yield is related under the numbering that
has come about.
-/
def EndsAlike {α : Type} (owner : Nat → Nat) (s s' : State) (Q : (Nat → Nat) → Nat → α → α → Prop) :
    EStateM.Result Halt State α → EStateM.Result Halt State α → Prop
  | .ok a t, .ok b t' => ∃ owner', State.Continues owner owner' s s' t t' ∧ Q owner' t.env.pinned a b
  | .error h t, .error h' t' => h' = h ∧ ∃ owner', State.Continues owner owner' s s' t t'
  | _, _ => False

def Always : (Nat → Nat) → Nat → Prop :=
  fun _ _ => True

/--
Two runs end in the same way wherever their states stand for each other and the numbering fulfils a condition, if need
be only where their current scopes stand for each other.
-/
def Matches {α : Type} (exact : Bool) (P : (Nat → Nat) → Nat → Prop) (x y : Run α)
    (Q : (Nat → Nat) → Nat → α → α → Prop) : Prop :=
  ∀ owner s s', s.Renames owner s' → (exact = true → s'.env.current = owner s.env.current) →
    P owner s.env.pinned → EndsAlike owner s s' Q (x s) (y s')

def Coincides {α : Type} (exact : Bool) (x y : Run α) (D : α → Prop) : Prop :=
  Matches exact Always x y fun _ _ a b => b = a ∧ D a

def afterwards {α : Type} (leave : State → State) : EStateM.Result Halt State α → EStateM.Result Halt State α
  | .ok a s => .ok a (leave s)
  | .error h s => .error h (leave s)

section Ends

variable {α : Type} {owner owner' : Nat → Nat} {s s' t t' : State} {Q Q' : (Nat → Nat) → Nat → α → α → Prop}
  {r r' : EStateM.Result Halt State α}

theorem EndsAlike.after (h : EndsAlike owner' t t' Q r r') (hcontinues : State.Continues owner owner' s s' t t') :
    EndsAlike owner s s' Q r r' := by
  cases r with
  | ok a u =>
    cases r' with
    | ok b u' =>
      obtain ⟨owner'', hrest, hQ⟩ := h
      exact ⟨owner'', hcontinues.trans hrest, hQ⟩
    | error => exact h
  | error e u =>
    cases r' with
    | ok => exact h
    | error e' u' =>
      obtain ⟨heq, owner'', hrest⟩ := h
      exact ⟨heq, owner'', hcontinues.trans hrest⟩

theorem EndsAlike.imp (h : EndsAlike owner s s' Q r r')
    (hQ : ∀ owner' t t' a b, State.Continues owner owner' s s' t t' → Q owner' t.env.pinned a b →
      Q' owner' t.env.pinned a b) : EndsAlike owner s s' Q' r r' := by
  cases r with
  | ok a u =>
    cases r' with
    | ok b u' =>
      obtain ⟨owner', hcontinues, h⟩ := h
      exact ⟨owner', hcontinues, hQ _ _ _ _ _ hcontinues h⟩
    | error => exact h
  | error e u =>
    cases r' with
    | ok => exact h
    | error e' u' => exact h

theorem EndsAlike.afterwards {leave leave' : State → State} (h : EndsAlike owner' t t' Q r r')
    (hpinned : ∀ u : State, (leave u).env.pinned = u.env.pinned)
    (hleave : ∀ owner'' u u', State.Continues owner' owner'' t t' u u' →
      State.Continues owner owner'' s s' (leave u) (leave' u')) :
    EndsAlike owner s s' Q (afterwards leave r) (afterwards leave' r') := by
  cases r with
  | ok a u =>
    cases r' with
    | ok b u' =>
      obtain ⟨owner'', hcontinues, hQ⟩ := h
      refine ⟨owner'', hleave _ _ _ hcontinues, ?_⟩
      rwa [hpinned]
    | error => exact h
  | error e u =>
    cases r' with
    | ok => exact h
    | error e' u' =>
      obtain ⟨heq, owner'', hcontinues⟩ := h
      exact ⟨heq, owner'', hleave _ _ _ hcontinues⟩

end Ends

theorem inScope_eq {α : Type} (x : Run α) (s : State) :
    inScope x s = afterwards (fun t => { t with env := t.env.pop }) (x { s with env := s.env.push }) := by
  unfold inScope
  cases x { s with env := s.env.push } <;> rfl

theorem inCall_eq {α : Type} (scope : Nat) (x : Run α) (s : State) :
    inCall scope x s =
      afterwards (fun t => { t with env := t.env.leave s.env.current, callDepth := t.callDepth - 1 })
        (x { s with env := s.env.enter scope, callDepth := s.callDepth + 1 }) := by
  unfold inCall
  dsimp only
  cases x { s with env := s.env.enter scope, callDepth := s.callDepth + 1 } <;> rfl

namespace Matches

variable {α β : Type} {e : Bool} {P P' : (Nat → Nat) → Nat → Prop} {x y : Run α} {f g : α → Run β}
  {Q Q' R : (Nat → Nat) → Nat → α → α → Prop} {D : α → Prop} {span : Span} {name : String}

/-! Runs -/

theorem pure {a b : α} (h : ∀ owner n, P owner n → Q owner n a b) : Matches e P (pure a) (pure b) Q :=
  fun owner _ _ hs _ hP => ⟨owner, .refl hs, h _ _ hP⟩

theorem throw (h : Halt) : Matches e P (throw h) (throw h) Q :=
  fun owner _ _ hs _ _ => ⟨rfl, owner, .refl hs⟩

theorem raise (k : EvalErrorKind) : Matches e P (raise span k) (raise span k) Q :=
  throw _

theorem bind {S : (Nat → Nat) → Nat → β → β → Prop} (hx : Matches e P x y R)
    (hf : ∀ a b, Matches e (fun owner n => R owner n a b) (f a) (g b) S) : Matches e P (x >>= f) (y >>= g) S := by
  intro owner s s' hs hexact hP
  have hends := hx owner s s' hs hexact hP
  change EndsAlike owner s s' S (EStateM.bind x f s) (EStateM.bind y g s')
  unfold EStateM.bind
  revert hends
  cases x s with
  | ok a t =>
    cases y s' with
    | ok b t' =>
      rintro ⟨owner', hcontinues, hR⟩
      have hexact' (h : e = true) := hcontinues.env.current_eq hs.env.current_lt (hexact h)
      exact (hf a b owner' t t' hcontinues.renames hexact' hR).after hcontinues
    | error => exact False.elim
  | error h t =>
    cases y s' with
    | ok => exact False.elim
    | error h' t' => exact id

theorem imp (hx : Matches e P x y Q) (hQ : ∀ owner n a b, Q owner n a b → Q' owner n a b) : Matches e P x y Q' :=
  fun owner s s' hs hexact hP => (hx owner s s' hs hexact hP).imp fun _ _ _ _ _ _ => hQ _ _ _ _

theorem pre (hx : Matches e P x y Q) (hP : ∀ owner n, P' owner n → P owner n) : Matches e P' x y Q :=
  fun owner s s' hs hexact h => hx owner s s' hs hexact (hP _ _ h)

theorem weaken (hx : Matches false P x y Q) : Matches e P x y Q :=
  fun owner s s' hs _ => hx owner s s' hs nofun

theorem assuming {p : Prop} (hp : ∀ owner n, P owner n → p) (hx : p → Matches e P x y Q) : Matches e P x y Q :=
  fun owner s s' hs hexact hP => hx (hp _ _ hP) owner s s' hs hexact hP

theorem keeping (hx : Matches e Always x y Q)
    (hP : ∀ owner owner' n n', (∀ id < n, owner' id = owner id) → n ≤ n' → P owner n → P owner' n') :
    Matches e P x y fun owner n a b => Q owner n a b ∧ P owner n := by
  intro owner s s' hs hexact h
  apply (hx owner s s' hs hexact trivial).imp
  intro owner' t t' a b hcontinues hQ
  refine ⟨hQ, hP owner owner' _ _ (fun id hid => ?_) hcontinues.env.pinned h⟩
  exact hcontinues.env.agrees id (Nat.lt_of_lt_of_le hid hs.env.pinned_le)

theorem liftAt_bind {v : Except EvalErrorKind α} {S : (Nat → Nat) → Nat → β → β → Prop}
    (hf : ∀ a, v = .ok a → Matches e P (f a) (g a) S) : Matches e P (liftAt span v >>= f) (liftAt span v >>= g) S := by
  cases v with
  | ok a => exact hf a rfl
  | error k => exact bind (R := fun _ _ _ _ => False) (raise k) fun _ _ _ _ _ _ _ => False.elim

theorem get {f g : State → Run α} (hf : ∀ s s', s'.callDepth = s.callDepth → Matches e P (f s) (g s') Q) :
    Matches e P (MonadState.get >>= f) (MonadState.get >>= g) Q :=
  fun owner s s' hs hexact hP => hf s s' hs.callDepth owner s s' hs hexact hP

/-! Scopes -/

theorem inScope (hx : Matches true Always x y Q) : Matches e Always (inScope x) (inScope y) Q := by
  intro owner s s' hs _ _
  have hentered : State.Renames (Function.update owner s.env.scopes.size s'.env.scopes.size)
      { s with env := s.env.push } { s' with env := s'.env.push } :=
    ⟨hs.env.enter hs.env.current_lt hs.env.current_lt' hs.env.current, hs.lines, hs.callDepth⟩
  have hcurrent := Function.update_self s.env.scopes.size s'.env.scopes.size owner
  rw [inScope_eq, inScope_eq]
  refine (hx _ _ _ hentered (fun _ => hcurrent.symm) trivial).afterwards ?_ ?_
  · intro u
    unfold Environment.pop
    dsimp only
    split
    · rfl
    · exact Environment.pinned_leave
  · intro owner' u u' hcontinues
    refine ⟨?_, hcontinues.lines, hcontinues.callDepth⟩
    dsimp only
    rw [hcontinues.env.frame.pop_eq, hcontinues.env.frame'.pop_eq]
    exact hcontinues.env.left hs.env

theorem inCall {scope scope' : Nat} (hx : Matches true Always x y Q) :
    Matches e (fun owner n => scope < n ∧ owner scope = scope') (inCall scope x) (inCall scope' y) Q := by
  rintro owner s s' hs - ⟨hpinned, rfl⟩
  have hscope : scope < s.env.scopes.size := Nat.lt_of_lt_of_le hpinned hs.env.pinned_le
  have hentered : State.Renames (Function.update owner s.env.scopes.size s'.env.scopes.size)
      { s with env := s.env.enter scope, callDepth := s.callDepth + 1 }
      { s' with env := s'.env.enter (owner scope), callDepth := s'.callDepth + 1 } :=
    ⟨hs.env.enter hscope (hs.env.bound _ hscope) (.here _), hs.lines, congrArg (· + 1) hs.callDepth⟩
  have hcurrent := Function.update_self s.env.scopes.size s'.env.scopes.size owner
  rw [inCall_eq, inCall_eq]
  refine (hx _ _ _ hentered (fun _ => hcurrent.symm) trivial).afterwards ?_ ?_
  · exact fun _ => Environment.pinned_leave
  · intro owner' u u' hcontinues
    exact ⟨hcontinues.env.left hs.env, hcontinues.lines, congrArg (· - 1) hcontinues.callDepth⟩

theorem inScope_right (hx : Matches false Always x y Q) : Matches false Always x (Evaluation.inScope y) Q := by
  intro owner s s' hs _ _
  have hentered : State.Renames owner s { s' with env := s'.env.push } :=
    ⟨hs.env.push_right, hs.lines, hs.callDepth⟩
  have hends := hx owner s _ hentered nofun trivial
  have hstay : x s = afterwards (fun t => t) (x s) := by
    cases x s <;> rfl
  rw [inScope_eq, hstay]
  refine hends.afterwards (fun _ => rfl) fun owner' u u' hcontinues => ?_
  refine ⟨?_, hcontinues.lines, hcontinues.callDepth⟩
  dsimp only
  rw [hcontinues.env.frame'.pop_eq]
  exact hcontinues.env.left_right hs.env

/-! Variables -/

theorem binding {f g : Binding → Run α}
    (hf : ∀ b b', Matches e (fun owner n => b.Renamed owner n b') (f b) (g b') Q) :
    Matches e Always (do f (← liftAt span ((← environment).get name)))
      (do g (← liftAt span ((← environment).get name))) Q := by
  intro owner s s' hs hexact _
  have hrun (f : Binding → Run α) (s : State) :
      (do f (← liftAt span ((← environment).get name)) : Run α) s = (liftAt span (s.env.get name) >>= f) s := rfl
  rw [hrun, hrun]
  rcases hs.env.get name with ⟨k, hk, hk'⟩ | ⟨b, b', hb, hb', hrenamed⟩
  · rw [hk, hk']
    exact ⟨rfl, owner, .refl hs⟩
  · rw [hb, hb']
    exact hf b b' owner s s' hs hexact hrenamed

theorem readVariable : Matches e Always (readVariable span name) (readVariable span name) Renamed :=
  binding fun _ _ => pure fun _ _ hb => hb.value

theorem update {f f' : Environment → Except EvalErrorKind Environment}
    (hf : ∀ owner env env', Environment.Renames owner env env' → (e = true → env'.current = owner env.current) →
      P owner env.pinned → (∃ k, f env = .error k ∧ f' env' = .error k) ∨
        ∃ env₁ env₁', f env = .ok env₁ ∧ f' env' = .ok env₁' ∧
          Environment.Continues owner owner env env' env₁ env₁') :
    Matches e P (do setEnvironment (← liftAt span (f (← environment))))
      (do setEnvironment (← liftAt span (f' (← environment)))) fun _ _ _ _ => True := by
  intro owner s s' hs hexact hP
  have hrun (f : Environment → Except EvalErrorKind Environment) (s : State) :
      (do setEnvironment (← liftAt span (f (← environment))) : Run Unit) s =
        (liftAt span (f s.env) >>= setEnvironment) s := rfl
  rw [hrun, hrun]
  rcases hf owner s.env s'.env hs.env hexact hP with ⟨k, hk, hk'⟩ | ⟨env₁, env₁', h₁, h₁', hcontinues⟩
  · rw [hk, hk']
    exact ⟨rfl, owner, .refl hs⟩
  · rw [h₁, h₁']
    exact ⟨owner, ⟨hcontinues, hs.lines, hs.callDepth⟩, trivial⟩

theorem writeVariable {v v' : Value} :
    Matches e (fun owner n => v.Renamed owner n v') (writeVariable span name v) (writeVariable span name v')
      fun _ _ _ _ => True :=
  update fun _ _ _ henv _ hv => Environment.Continues.set henv hv name

theorem declare {kind : Kind} {v v' : Value} :
    Matches true (fun owner n => v.Renamed owner n v') (declare span name kind v) (declare span name kind v')
      fun _ _ _ _ => True :=
  update fun _ _ _ henv hcurrent hv => Environment.Continues.declare henv (hcurrent rfl) hv name

theorem declareFunction {returns : TypeName} {params : List Param} {body : List Stmt} :
    Matches true Always (declareFunction span returns name params body)
      (declareFunction span returns name params body) fun _ _ _ _ => True := by
  intro owner s s' hs hexact _
  have hcaptured : State.Continues owner owner s s' { s with env := s.env.capture.2 }
      { s' with env := s'.env.capture.2 } :=
    ⟨.capture hs.env (hexact rfl), hs.lines, hs.callDepth⟩
  have hclosure : Renamed owner s.env.capture.2.pinned
      (.function (.closure ⟨returns, name, params, body, s.env.current⟩))
      (.function (.closure ⟨returns, name, params, body, s'.env.current⟩)) := by
    rw [hexact rfl]
    exact .closure ⟨returns, name, params, body, s.env.current⟩ (Nat.le_max_right _ _)
  exact (declare owner _ _ hcaptured.renames hexact hclosure).after hcaptured

/-! Values -/

/--
The values that two matching runs have yielded are the same data, or functions that stand for each other.
-/
theorem bindValue {x y : Run Value} {f g : Value → Run α} (hx : Matches e P x y Renamed)
    (hdata : ∀ v, v.IsData → Matches e Always (f v) (g v) Q)
    (hembedded : ∀ F, Matches e Always (f (.function (.embedded F))) (g (.function (.embedded F))) Q)
    (hclosure : ∀ F scope', Matches e (fun owner n => F.scope < n ∧ owner F.scope = scope')
      (f (.function (.closure F))) (g (.function (.closure { F with scope := scope' }))) Q) :
    Matches e P (x >>= f) (y >>= g) Q := by
  apply hx.bind
  intro v v' owner s s' hs hexact hv
  cases hv with
  | data hv => exact hdata v hv owner s s' hs hexact trivial
  | embedded F => exact hembedded F owner s s' hs hexact trivial
  | closure F hF => exact hclosure F _ owner s s' hs hexact ⟨hF, rfl⟩

theorem literal {x y : Run Value} (hx : Matches e Always x y Renamed) :
    Coincides e (literal span x) (literal span y) IsData := by
  apply hx.bindValue
  · intro v hv
    cases v with
    | function F => cases hv
    | _ => exact pure fun _ _ _ => ⟨rfl, hv⟩
  · exact fun F => raise _
  · exact fun F scope' => (raise _).pre fun _ _ _ => trivial

end Matches

namespace Coincides

variable {α β : Type} {e : Bool} {x y : Run α} {f g : α → Run β} {D E : α → Prop} {span : Span} {name : String}

theorem pure {a : α} (h : D a) : Coincides e (pure a) (pure a) D :=
  Matches.pure fun _ _ _ => ⟨rfl, h⟩

theorem raise (k : EvalErrorKind) : Coincides e (raise span k) (raise span k) D :=
  Matches.raise k

theorem bind {Q : (Nat → Nat) → Nat → β → β → Prop} (hx : Coincides e x y D)
    (hf : ∀ a, D a → Matches e Always (f a) (g a) Q) : Matches e Always (x >>= f) (y >>= g) Q := by
  apply Matches.bind hx
  intro a b
  apply Matches.assuming fun _ _ h => h
  rintro ⟨rfl, ha⟩
  exact (hf b ha).pre fun _ _ _ => trivial

theorem renamed {x y : Run Value} (hx : Coincides e x y IsData) : Matches e Always x y Renamed := by
  apply Matches.imp hx
  rintro _ _ v _ ⟨rfl, hv⟩
  exact .data hv

theorem liftAt {v : Except EvalErrorKind α} (h : ∀ a, v = .ok a → D a) :
    Coincides e (liftAt span v) (liftAt span v) D := by
  cases v with
  | ok a => exact pure (h a rfl)
  | error k => exact raise k

theorem condition {x y : Run Value} (hx : Matches e Always x y Renamed) :
    Coincides e (condition span x) (condition span y) fun _ => True := by
  apply Coincides.bind hx.literal
  intro v _
  cases v with
  | bool b => exact pure trivial
  | _ => exact raise _

theorem discarded {Q : (Nat → Nat) → Nat → α → α → Prop} (hx : Matches e Always x y Q) :
    Coincides e (do let _ ← x) (do let _ ← y) fun _ => True :=
  hx.bind fun _ _ => Matches.pure fun _ _ _ => ⟨rfl, trivial⟩

theorem of_unit {x y : Run Unit} {P : (Nat → Nat) → Nat → Prop} {Q : (Nat → Nat) → Nat → Unit → Unit → Prop}
    (hx : Matches e P x y Q) (hP : ∀ owner n, P owner n) : Coincides e x y fun _ => True :=
  (hx.pre fun _ _ _ => hP _ _).imp fun _ _ _ _ _ => ⟨rfl, trivial⟩

theorem writeVariable {v : Value} (hv : v.IsData) :
    Coincides e (writeVariable span name v) (writeVariable span name v) fun _ => True :=
  of_unit Matches.writeVariable fun _ _ => .data hv

theorem declare {kind : Kind} {v : Value} (hv : v.IsData) :
    Coincides true (declare span name kind v) (declare span name kind v) fun _ => True :=
  of_unit Matches.declare fun _ _ => .data hv

theorem bindChecked {kind : Kind} {checked : Except EvalErrorKind Value} (hchecked : ∀ v, checked = .ok v → v.IsData) :
    Coincides true (bindChecked span name kind checked) (bindChecked span name kind checked) fun _ => True := by
  cases checked with
  | ok v => exact declare (hchecked v rfl)
  | error k => exact (declare .null).bind fun _ _ => raise k

theorem printLine {values values' : List Value}
    (h : List.Forall₂ (fun v w => w.display = v.display) values values') :
    Coincides e (printLine values) (printLine values') fun _ => True := by
  have hdisplay : values'.map Value.display = values.map Value.display := by
    induction h with
    | nil => rfl
    | cons hv _ ih => rw [List.map_cons, List.map_cons, hv, ih]
  intro owner s s' hs _ _
  refine ⟨owner, ⟨.refl hs.env, ?_, hs.callDepth⟩, rfl, trivial⟩
  dsimp only
  rw [hs.lines, hdisplay]

theorem assignValue {kind : Kind} {v : Value} (hv : v.IsData) :
    Coincides e (assignValue span name kind v) (assignValue span name kind v) IsData := by
  unfold Evaluation.assignValue
  cases hstored : v.coerce kind with
  | ok stored =>
    have hstored := Value.isData_of_coerce hv hstored
    exact (writeVariable hstored).bind fun _ _ => pure hstored
  | error k => exact (writeVariable .null).bind fun _ _ => raise k

theorem assign {op : AssignOp} {v : Value} (hv : v.IsData) :
    Coincides e (assign span name op v) (assign span name op v) IsData := by
  apply Matches.binding
  intro b b'
  apply Matches.assuming (p := b'.kind = b.kind ∧ ∀ w op, b'.value.binary op w = b.value.binary op w)
  · exact fun _ _ hb => ⟨hb.kind, hb.value.binary_eq⟩
  rintro ⟨hkind, hbinary⟩
  rw [hkind]
  apply Matches.pre _ fun _ _ _ => trivial
  cases op.combine? with
  | none => exact assignValue hv
  | some op =>
    dsimp only
    rw [hbinary]
    exact Coincides.bind (liftAt fun _ hw => Value.isData_binary hw) fun w hw => assignValue hw

theorem stepVariable {op : StepOp} :
    Coincides e (stepVariable span name op) (stepVariable span name op) IsData := by
  apply Matches.readVariable.bind
  intro v v'
  apply Matches.assuming (p := v'.step op = v.step op) fun _ _ hv => hv.step_eq op
  intro hstep
  rw [hstep]
  apply Matches.pre _ fun _ _ _ => trivial
  apply Coincides.bind (liftAt fun _ hw => Value.isData_step hw)
  intro stepped hstepped
  exact (writeVariable hstepped).bind fun _ _ => pure hstepped

/-! Arrays -/

theorem readArray :
    Coincides e (readArray span name) (readArray span name) fun a => ∀ v ∈ a.2, v.IsData := by
  apply Matches.readVariable.bindValue
  · intro v hv
    cases v with
    | array elem items => exact pure fun w hw => hv.of_mem hw
    | _ => exact raise _
  · exact fun F => raise _
  · exact fun F scope' => (raise _).pre fun _ _ _ => trivial

theorem copyArray {kind : Kind} : Coincides e (copyArray span kind name) (copyArray span kind name) IsData := by
  apply Matches.readVariable.bindValue
  · intro v hv
    cases v with
    | array elem items =>
      dsimp only
      split
      · exact pure hv
      · exact raise _
    | _ => exact raise _
  · exact fun F => raise _
  · exact fun F scope' => (raise _).pre fun _ _ _ => trivial

theorem readElement {i : Int} : Coincides e (readElement span name i) (readElement span name i) IsData := by
  apply Coincides.bind readArray
  rintro ⟨elem, items⟩ hitems
  apply Coincides.bind (liftAt (D := fun _ => True) fun _ _ => trivial)
  intro slot _
  cases hv : items[slot]? with
  | some v => exact pure (hitems v (List.mem_of_getElem? hv))
  | none => exact raise _

theorem storeElement {elem : Kind} {items : List Value} {i : Nat} {v : Value} (hitems : ∀ w ∈ items, w.IsData)
    (hv : v.IsData) :
    Coincides e
      (do
        let stored ← Evaluation.liftAt span (elementOf v elem)
        Evaluation.writeVariable span name (.array elem (items.set i stored))
        return stored)
      (do
        let stored ← Evaluation.liftAt span (elementOf v elem)
        Evaluation.writeVariable span name (.array elem (items.set i stored))
        return stored) IsData := by
  apply Coincides.bind (liftAt fun _ hw => isData_elementOf hv hw)
  intro stored hstored
  have harray : IsData (.array elem (items.set i stored)) := (IsData.array elem items hitems).set hstored i
  exact (writeVariable harray).bind fun _ _ => pure hstored

theorem writeElement {i : Int} {op : AssignOp} {v : Value} (hv : v.IsData) :
    Coincides e (writeElement span name i op v) (writeElement span name i op v) IsData := by
  apply Coincides.bind readArray
  rintro ⟨elem, items⟩ hitems
  apply readElement.bind
  intro old _
  dsimp only
  cases op.combine? with
  | none => exact storeElement hitems hv
  | some op => exact Coincides.bind (liftAt fun _ hw => Value.isData_binary hw) fun w hw => storeElement hitems hw

theorem positionOf {v : Value} : Coincides e (positionOf span name v) (positionOf span name v) IsData := by
  apply Coincides.bind readArray
  rintro ⟨elem, items⟩ _
  dsimp only
  cases items.findIdx? fun item => item.looseEq? v == some true with
  | some i => exact pure (.int _)
  | none => exact pure (.int _)

theorem lengthOf : Coincides e (lengthOf span name) (lengthOf span name) IsData :=
  Coincides.bind readArray fun _ _ => pure (.int _)

theorem joined : Coincides e (joined span name) (joined span name) IsData :=
  Coincides.bind readArray fun _ _ => pure (.text _)

theorem checkArray {x y : Run Value} (hx : Coincides e x y IsData) :
    Coincides e (checkArray x) (checkArray y) fun checked => ∀ v, checked = .ok v → v.IsData := by
  intro owner s s' hs hexact _
  have hends := hx owner s s' hs hexact trivial
  unfold Evaluation.checkArray
  revert hends
  cases x s with
  | ok v t =>
    cases y s' with
    | ok w t' =>
      rintro ⟨owner', hcontinues, rfl, hw⟩
      exact ⟨owner', hcontinues, rfl, fun _ hv => by cases hv; exact hw⟩
    | error => exact False.elim
  | error h t =>
    cases y s' with
    | ok => exact False.elim
    | error h' t' =>
      rintro ⟨rfl, owner', hcontinues⟩
      cases h' with
      | outOfFuel => exact ⟨rfl, owner', hcontinues⟩
      | error k =>
        dsimp only
        split
        · exact ⟨owner', hcontinues, rfl, nofun⟩
        · exact ⟨rfl, owner', hcontinues⟩

theorem declareArray {elem : TypeName} {dims : UInt32} {build build' : Scalar → Nat → Run Value}
    (hbuild : ∀ s n, Coincides true (build s n) (build' s n) IsData) :
    Coincides true (declareArray span elem dims name build) (declareArray span elem dims name build')
      fun _ => True := by
  unfold Evaluation.declareArray
  cases elem.scalar? with
  | none => exact raise _
  | some s => exact (hbuild s _).checkArray.bind fun _ hchecked => bindChecked hchecked

end Coincides

/-! Control flow -/

def Flow.IsData : Flow → Prop
  | .returning (some v) _ => v.IsData
  | _ => True

namespace Coincides

variable {e : Bool}

theorem andThen {first first' second second' : Run Flow} (hfirst : Coincides e first first' Flow.IsData)
    (hsecond : Coincides e second second' Flow.IsData) :
    Coincides e (andThen first second) (andThen first' second') Flow.IsData := by
  apply hfirst.bind
  intro flow hflow
  cases flow with
  | normal => exact hsecond
  | breaking _ | continuing _ | returning _ _ => exact pure hflow

theorem loop {cond cond' : Run Bool} {body body' : Run Flow} {update update' : Run Unit}
    (hcond : Coincides e cond cond' fun _ => True) (hbody : Coincides e body body' Flow.IsData)
    (hupdate : Coincides e update update' fun _ => True) (fuel : Nat) :
    Coincides e (loop cond body update fuel) (loop cond' body' update' fuel) Flow.IsData := by
  induction fuel with
  | zero => exact Matches.throw _
  | succ fuel ih =>
    apply hcond.bind
    intro again _
    cases again with
    | false => exact pure trivial
    | true =>
      apply hbody.bind
      intro flow hflow
      cases flow with
      | breaking _ => exact pure trivial
      | returning _ _ => exact pure hflow
      | normal | continuing _ => exact hupdate.bind fun _ _ => ih

theorem forValues {body body' : Value → Run Flow} {items : List Value}
    (hbody : ∀ v ∈ items, Coincides e (body v) (body' v) Flow.IsData) :
    Coincides e (forValues body items) (forValues body' items) Flow.IsData := by
  induction items with
  | nil => exact pure trivial
  | cons v items ih =>
    apply (hbody v List.mem_cons_self).bind
    intro flow hflow
    cases flow with
    | breaking _ => exact pure trivial
    | returning _ _ => exact pure hflow
    | normal | continuing _ => exact ih fun w hw => hbody w (List.mem_cons_of_mem v hw)

theorem firstMatch {subject : Value} {equal : Span → Value → Value → Run Bool} {cases : List (Span × Run Value)}
    (hequal : ∀ span v w, Coincides e (equal span v w) (equal span v w) fun _ => True)
    (hcases : ∀ c ∈ cases, Coincides e c.2 c.2 IsData) :
    Coincides e (firstMatch subject equal cases) (firstMatch subject equal cases) fun _ => True := by
  induction cases with
  | nil => exact pure trivial
  | cons c rest ih =>
    apply (hcases c List.mem_cons_self).bind
    intro v _
    apply (hequal _ _ _).bind
    intro b _
    cases b with
    | true => exact pure trivial
    | false => exact (ih fun c hc => hcases c (List.mem_cons_of_mem _ hc)).bind fun _ _ => pure trivial

theorem fallThrough {bodies : List (Run Flow)} (hbodies : ∀ x ∈ bodies, Coincides e x x Flow.IsData) :
    Coincides e (fallThrough bodies) (fallThrough bodies) Flow.IsData := by
  induction bodies with
  | nil => exact pure trivial
  | cons x rest ih =>
    apply (hbodies x List.mem_cons_self).bind
    intro flow hflow
    cases flow with
    | normal => exact ih fun y hy => hbodies y (List.mem_cons_of_mem x hy)
    | breaking _ => exact pure trivial
    | continuing _ | returning _ _ => exact pure hflow

theorem asBody {x y : Run Flow} (hx : Coincides true x y Flow.IsData) (isBlock : Bool) :
    Coincides true (asBody isBlock x) (asBody isBlock y) Flow.IsData := by
  cases isBlock with
  | true => exact hx
  | false => exact Matches.inScope hx

end Coincides

end Arbor.Evaluation
