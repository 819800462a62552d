import Arbor.Proofs.Environment.Scopes
import Arbor.Proofs.Evaluation.Effects
import Arbor.Proofs.Evaluation.StoreSoundness

/-!
This module contains the balance of scopes: whatever is evaluated or executed, and however it ends, the evaluator is
back in the scope it was in, and the scopes that were there before are still there with all that was declared in them.
-/

namespace Arbor

def Scope.kind? (s : Scope) (name : String) : Option Kind :=
  (s.find? name).map Binding.kind

namespace Scope

theorem kind?_setValue (s : Scope) (name name' : String) (v : Value) :
    (s.setValue name v).kind? name' = s.kind? name' := by
  unfold kind? find? setValue
  dsimp only
  induction s.bindings with
  | nil => rfl
  | cons entry rest ih =>
    obtain ⟨key, b⟩ := entry
    rw [List.map_cons, List.lookup_cons]
    by_cases hkey : key = name
    · simp only [hkey, beq_self_eq_true, if_true, List.lookup_cons]
      split
      · rfl
      · exact ih
    · simp only [beq_eq_false_iff_ne.mpr hkey, Bool.false_eq_true, if_false, List.lookup_cons]
      split
      · rfl
      · exact ih

theorem kind?_cons {s : Scope} {name : String} (hname : s.declares name = false) (b : Binding)
    {name' : String} {kind : Kind} (h : s.kind? name' = some kind) :
    kind? { s with bindings := (name, b) :: s.bindings } name' = some kind := by
  have hne : name' ≠ name := by
    rintro rfl
    unfold declares at hname
    simp only [Option.isSome_eq_false_iff, Option.isNone_iff_eq_none] at hname
    simp [kind?, hname] at h
  rw [← h]
  simp [kind?, find?, List.lookup_cons, beq_false_of_ne hne]

end Scope

namespace Environment

variable {env env' : Environment}

/-! Frames -/

/--
An environment has the scopes of another one, and the same one is the current one. No scope has lost a name or changed
the declared kind of one. Only the current scope may have new names, if declarations are allowed.
-/
structure Framed (declares : Bool) (env env' : Environment) : Prop where
  current : env'.current = env.current
  size : env.scopes.size ≤ env'.scopes.size
  parent : ∀ id < env.scopes.size, (env'.scope id).parent = (env.scope id).parent
  kinds : ∀ id < env.scopes.size, ∀ name kind,
    (env.scope id).kind? name = some kind → (env'.scope id).kind? name = some kind
  names : ∀ id < env.scopes.size, (declares = true → id ≠ env.current) →
    ∀ name, (env'.scope id).kind? name = (env.scope id).kind? name

namespace Framed

variable {declares : Bool} {env'' : Environment}

theorem refl (declares : Bool) (env : Environment) : Framed declares env env :=
  ⟨rfl, Nat.le_refl _, fun _ _ => rfl, fun _ _ _ _ h => h, fun _ _ _ _ => rfl⟩

theorem trans (h : Framed declares env env') (h' : Framed declares env' env'') :
    Framed declares env env'' := by
  have hsize {id : Nat} (hid : id < env.scopes.size) : id < env'.scopes.size :=
    Nat.lt_of_lt_of_le hid h.size
  constructor
  case current => rw [h'.current, h.current]
  case size => exact Nat.le_trans h.size h'.size
  case parent =>
    intro id hid
    rw [h'.parent id (hsize hid), h.parent id hid]
  case kinds => exact fun id hid name kind hkind => h'.kinds id (hsize hid) name kind (h.kinds id hid name kind hkind)
  case names =>
    intro id hid hcurrent name
    rw [h'.names id (hsize hid) (h.current ▸ hcurrent), h.names id hid hcurrent]

theorem declaring (h : Framed false env env') : Framed declares env env' :=
  ⟨h.current, h.size, h.parent, h.kinds, fun id hid _ => h.names id hid (by simp)⟩

theorem modify {i : Nat} {f : Scope → Scope} (hparent : ∀ s, (f s).parent = s.parent)
    (hkind : ∀ s name, (f s).kind? name = s.kind? name) :
    Framed false env { env with scopes := env.scopes.modify i f } := by
  have hsame (id : Nat) (name : String) :
      (({ env with scopes := env.scopes.modify i f } : Environment).scope id).kind? name =
        (env.scope id).kind? name := by
    rw [scope_modify]
    split
    · exact hkind _ _
    · rfl
  constructor
  case current => rfl
  case size => simp
  case parent =>
    intro id _
    rw [scope_modify]
    split
    · exact hparent _
    · rfl
  case kinds =>
    intro id _ name kind h
    rwa [hsame]
  case names => exact fun id _ _ name => hsame id name

theorem set {name : String} {v : Value} (h : env.set name v = .ok env') : Framed false env env' := by
  unfold Environment.set at h
  cases hid : env.resolve name with
  | error e => simp [hid, Except.map] at h
  | ok id =>
    simp only [hid, Except.map, Except.ok.injEq] at h
    rw [← h]
    exact modify (fun _ => rfl) fun s name' => Scope.kind?_setValue s name name' v

theorem declare {name : String} {kind : Kind} {v : Value} (h : env.declare name kind v = .ok env') :
    Framed true env env' := by
  unfold Environment.declare at h
  split at h
  · cases h
  · next hname =>
    cases h
    constructor
    case current => rfl
    case size => simp
    case parent =>
      intro id _
      rw [scope_modify]
      split <;> rfl
    case kinds =>
      intro id _ name' kind' hkind
      rw [scope_modify]
      split
      · next hid =>
        apply Scope.kind?_cons _ _ hkind
        simpa [← hid.1] using hname
      · exact hkind
    case names =>
      intro id _ hid name'
      rw [scope_modify, if_neg fun h => hid rfl h.1.symm]

theorem capture : Framed false env env.capture.2 :=
  ⟨rfl, Nat.le_refl _, fun _ _ => rfl, fun _ _ _ _ h => h, fun _ _ _ _ => rfl⟩

theorem leave {parent : Nat} (h : Framed declares (env.enter parent) env') :
    Framed false env (env'.leave env.current) := by
  have hentered : (env.enter parent).scopes.size = env.scopes.size + 1 := by simp [enter]
  have hcurrent : env'.current = env.scopes.size := h.current
  have hsize := h.size
  have hle : env.scopes.size ≤ (env'.leave env.current).scopes.size := by
    rw [← hcurrent]
    apply le_size_leave
    omega
  have hscope {id : Nat} (hid : id < env.scopes.size) :
      (env'.leave env.current).scope id = env'.scope id ∧ (env.enter parent).scope id = env.scope id := by
    refine ⟨scope_leave (by omega), ?_⟩
    rw [scope_enter, if_neg (by omega)]
  have hnames {id : Nat} (hid : id < env.scopes.size) (name : String) :
      ((env'.leave env.current).scope id).kind? name = (env.scope id).kind? name := by
    rw [(hscope hid).1, h.names id (by omega) (fun _ => Nat.ne_of_lt hid), (hscope hid).2]
  constructor
  case current => exact current_leave
  case size => exact hle
  case parent =>
    intro id hid
    rw [(hscope hid).1, h.parent id (by omega), (hscope hid).2]
  case kinds =>
    intro id hid name kind hkind
    rwa [hnames hid]
  case names => exact fun id hid _ => hnames hid

theorem pop_eq (h : Framed declares env.push env') : env'.pop = env'.leave env.current := by
  have hparent : (env'.scope env'.current).parent = some env.current := by
    have hlt : env.scopes.size < env.push.scopes.size := by simp [push, enter]
    rw [show env'.current = env.scopes.size from h.current, h.parent _ hlt, push, scope_enter, if_pos rfl]
  unfold Environment.pop
  rw [hparent]

theorem pop (h : Framed declares env.push env') : Framed false env env'.pop :=
  h.pop_eq ▸ h.leave

theorem chain_eq (h : Framed declares env env') {id : Nat} (hid : id < env.scopes.size) :
    env'.chain id = env.chain id := by
  induction id using Nat.strongRecOn with
  | ind id ih =>
    rw [chain, chain, h.parent id hid]
    cases (env.scope id).parent with
    | none => rfl
    | some parent =>
      dsimp only
      split
      · next hlt => rw [ih parent hlt (Nat.lt_trans hlt hid)]
      · rfl

theorem get (h : Framed false env env') (hlt : env.current < env.scopes.size) {name : String} {b : Binding}
    (hget : env.get name = .ok b) : ∃ b', env'.get name = .ok b' ∧ b'.kind = b.kind := by
  have hin {id : Nat} (hid : id ∈ env.chain env.current) : id < env.scopes.size :=
    Nat.lt_of_le_of_lt (le_of_mem_chain hid) hlt
  have hkind {id : Nat} (hid : id ∈ env.chain env.current) :
      (env'.scope id).kind? name = (env.scope id).kind? name :=
    h.names id (hin hid) nofun name
  unfold Environment.get at hget ⊢
  rw [h.current, h.chain_eq hlt]
  revert hget hkind
  clear hin
  induction env.chain env.current with
  | nil =>
    intro hget _
    cases hget
  | cons id rest ih =>
    intro hget hkind
    have hsame := hkind List.mem_cons_self
    rw [List.findSome?_cons] at hget ⊢
    unfold Scope.kind? at hsame
    cases hfind : (env.scope id).find? name with
    | none =>
      rw [hfind, Option.map_none, Option.map_eq_none_iff] at hsame
      rw [hfind] at hget
      rw [hsame]
      exact ih hget fun hid => hkind (List.mem_cons_of_mem _ hid)
    | some c =>
      rw [hfind, Option.map_some, Option.map_eq_some_iff] at hsame
      obtain ⟨c', hfind', hc⟩ := hsame
      rw [hfind] at hget
      rw [hfind']
      cases hget
      exact ⟨c', rfl, hc⟩

end Framed

end Environment

namespace Evaluation

structure State.Framed (declares : Bool) (s s' : State) : Prop where
  env : s.env.Framed declares s'.env
  callDepth : s'.callDepth = s.callDepth

namespace State.Framed

variable {declares : Bool} {s s' s'' : State}

theorem refl (declares : Bool) (s : State) : s.Framed declares s :=
  ⟨.refl declares s.env, rfl⟩

theorem trans (h : s.Framed declares s') (h' : s'.Framed declares s'') : s.Framed declares s'' :=
  ⟨h.env.trans h'.env, h'.callDepth.trans h.callDepth⟩

end State.Framed

/--
A run leaves a state that is framed by the one it starts in, however it ends.
-/
def Frames (declares : Bool) (α : Type) (x : Run α) : Prop :=
  ∀ s : State, s.Framed declares (endState (x s))

section Runs

variable {α β : Type} {declares : Bool}

theorem Frames.bind {x : Run α} {f : α → Run β} (hx : Frames declares α x)
    (hf : ∀ a, Frames declares β (f a)) : Frames declares β (x >>= f) := by
  intro s
  have hx := hx s
  change s.Framed declares (endState (EStateM.bind x f s))
  unfold EStateM.bind
  cases h : x s with
  | ok a s' =>
    rw [h] at hx
    exact hx.trans (hf a s')
  | error e s' =>
    rw [h] at hx
    exact hx

theorem frames_update {span : Span} {f : Environment → Except EvalErrorKind Environment}
    (hf : ∀ env env', f env = .ok env' → env.Framed declares env') :
    Frames declares Unit (do setEnvironment (← liftAt span (f (← environment)))) := by
  intro s
  change s.Framed declares (endState (EStateM.bind (liftAt span (f s.env)) setEnvironment s))
  unfold EStateM.bind
  cases h : f s.env with
  | ok env => exact ⟨hf _ _ h, rfl⟩
  | error e => exact .refl declares s

theorem frames_inScope {x : Run α} (hx : Frames true α x) : Frames false α (inScope x) := by
  intro s
  have hx := hx { s with env := s.env.push }
  unfold inScope
  cases h : x { s with env := s.env.push } with
  | ok a s' | error e s' =>
    rw [h] at hx
    exact ⟨hx.env.pop, hx.callDepth⟩

theorem frames_inCall {scope : Nat} {x : Run α} (hx : Frames true α x) :
    Frames false α (inCall scope x) := by
  intro s
  have hx := hx { s with env := s.env.enter scope, callDepth := s.callDepth + 1 }
  unfold inCall
  dsimp only
  cases h : x { s with env := s.env.enter scope, callDepth := s.callDepth + 1 } with
  | ok a s' | error e s' =>
    rw [h] at hx
    refine ⟨hx.env.leave, ?_⟩
    have hdepth : s'.callDepth = s.callDepth + 1 := hx.callDepth
    simp [endState, hdepth]

theorem frames_checkArray {x : Run Value} (hx : Frames false Value x) :
    Frames false _ (checkArray x) := by
  intro s
  have hx := hx s
  unfold checkArray
  cases h : x s with
  | ok v s' =>
    rw [h] at hx
    exact hx
  | error e s' =>
    rw [h] at hx
    cases e with
    | outOfFuel => exact hx
    | error e =>
      dsimp only
      split <;> exact hx

theorem closed_frames : Closed (Frames false) (Frames true) where
  pure _ s := .refl false s
  throw _ s := .refl false s
  bind := Frames.bind
  get s := .refl false s
  writeVariable _ name v := frames_update (f := fun env => env.set name v) fun _ _ => .set
  checkArray := frames_checkArray
  inScope := frames_inScope
  inCall := frames_inCall
  statement hx s := ⟨(hx s).env.declaring, (hx s).callDepth⟩
  andThen := Frames.bind
  declare _ name kind v := frames_update (f := fun env => env.declare name kind v) fun _ _ => .declare
  capture _ := ⟨Environment.Framed.capture.declaring, rfl⟩
  printLine _ s := ⟨.refl true s.env, rfl⟩

end Runs

/-! Sessions -/

theorem framed_runAll (config : EvaluatorConfig) (fuel : Nat) (stmts : List Stmt) (s : State) :
    s.Framed true (Session.runAll config fuel stmts s).2.1 :=
  Session.runAll_relates (.refl true) .trans (closed_frames.execute_of config fuel) stmts s

theorem Session.Reached.framed {config : EvaluatorConfig} {session : Session}
    (h : session.Reached config) : (Session.start config).state.Framed true session.state := by
  induction h with
  | start => exact .refl true _
  | run _ _ ih => exact ih.trans (framed_runAll _ _ _ _)

/--
The scopes before and after an expression or a statement, and between two programs.
-/
theorem scopes_balanced (config : EvaluatorConfig) :
    (∀ (fuel : Nat) (e : Expr) (s : State),
      s.Framed false (endState (evaluate (.of config fuel) e s))) ∧
    (∀ (fuel : Nat) (stmt : Stmt) (s : State),
      s.Framed true (endState (execute (.of config fuel) stmt s))) ∧
    ∀ session : Session, session.Reached config →
      session.state.env.depth = 0 ∧ session.state.callDepth = 0 := by
  refine ⟨fun fuel e => closed_frames.evaluate_of config fuel e,
    fun fuel stmt => closed_frames.execute_of config fuel stmt, fun session h => ?_⟩
  have hframed := h.framed
  refine ⟨?_, hframed.callDepth⟩
  have hcurrent : session.state.env.current = 0 := hframed.env.current
  have hparent : (session.state.env.scope 0).parent = none := hframed.env.parent 0 Nat.zero_lt_one
  rw [Environment.depth, hcurrent, Environment.chain, hparent]
  rfl

def failingProgram : Program where
  statements := [
    .block .unplaced [
      .varDecl .unplaced .int "n" (some (.literal .unplaced (.int 1))),
      .funcDecl .unplaced .void "f" [] [
        .block .unplaced [
          .expr .unplaced (.assign .unplaced "n" .set
            (.binary .unplaced .div (.var .unplaced "n") (.literal .unplaced (.int 0))))]],
      .expr .unplaced (.call .unplaced (.var .unplaced "f") [])]]

theorem scopes_balanced_failingProgram :
    let report := (Session.start .default).run 2 failingProgram
    report.diagnostics.length = 1 ∧ report.session.state.env.scopes.size = 2 ∧
      report.session.state.env.depth = 0 := by
  refine ⟨by decide +kernel, by decide +kernel, ?_⟩
  have hreached : ((Session.start .default).run 2 failingProgram).session.Reached .default :=
    .run .start (by decide +kernel)
  exact ((scopes_balanced .default).2.2 _ hreached).1

end Evaluation

end Arbor
