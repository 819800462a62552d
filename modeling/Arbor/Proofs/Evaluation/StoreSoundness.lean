import Arbor.Proofs.Evaluation.Moment
import Arbor.Proofs.Evaluation.WellKinded

/-!
This module contains the soundness of the kinds of a store: at every moment of every session each name is bound
to null or to a value of its declared kind, and every array holds what it says it holds.
-/

namespace Arbor.Evaluation

open Value (WellKinded)

namespace Keeps

variable {α : Type} {x : Run α} {Q : α → Prop} {s s' : State} {a : α}

theorem ok (hx : Keeps x Q) (hs : s.WellKinded) (h : x s = .ok a s') : Q a ∧ s'.WellKinded := by
  have := hx s hs
  rw [h] at this
  exact this

theorem error {h : Halt} (hx : Keeps x Q) (hs : s.WellKinded) (he : x s = .error h s') :
    s'.WellKinded := by
  have := hx s hs
  rw [he] at this
  exact this

theorem endState (hx : Keeps x Q) (hs : s.WellKinded) : (endState (x s)).WellKinded := by
  cases h : x s with
  | ok a s' => exact (hx.ok hs h).2
  | error e s' => exact hx.error hs h

end Keeps

namespace Session

theorem wellKinded_start (config : EvaluatorConfig) : (start config).state.WellKinded := by
  intro s hs
  have hs : s = ⟨(Embedded.all.map fun f => (f.name, ⟨.function, .function (.embedded f)⟩)).reverse,
      none⟩ := by
    simpa [start, startEnvironment] using hs
  rw [hs]
  constructor
  · decide
  · intro entry hentry
    simp only [List.mem_reverse, List.mem_map] at hentry
    obtain ⟨f, -, rfl⟩ := hentry
    exact ⟨.inr rfl, .function _⟩

theorem wellKinded_runAll (config : EvaluatorConfig) (fuel : Nat) (stmts : List Stmt) (s : State)
    (hs : s.WellKinded) : (runAll config fuel stmts s).2.1.WellKinded :=
  runAll_relates (R := fun s s' => s.WellKinded → s'.WellKinded) (fun _ => id)
    (fun hss' hs's'' => hs's'' ∘ hss')
    (fun stmt _ => (keeps_execute (Context.keeps_of config fuel) stmt).endState) stmts s hs

theorem Reached.wellKinded {config : EvaluatorConfig} {session : Session}
    (h : session.Reached config) : session.state.WellKinded := by
  induction h with
  | start => exact wellKinded_start config
  | run _ _ ih => exact wellKinded_runAll _ _ _ _ ih

end Session

/--
The values that are left of an array have the kind of its elements, and a list of elements is one of an array.
-/
def Task.WellKinded : Task → Prop
  | .elements _ dims _ => 1 ≤ dims
  | .values _ _ elem _ items => ∀ v ∈ items, v.kind = elem ∧ v.WellKinded
  | _ => True

theorem State.WellKinded.push {s : State} (hs : s.WellKinded) :
    State.WellKinded { s with env := s.env.push } :=
  Environment.WellKinded.push hs

theorem State.WellKinded.enterCall {s : State} (hs : s.WellKinded) (scope : Nat) :
    State.WellKinded { s with env := s.env.enter scope, callDepth := s.callDepth + 1 } :=
  Environment.WellKinded.enter hs scope

theorem State.WellKinded.enterBody {s : State} (hs : s.WellKinded) (body : Stmt) :
    (s.enterBody body).WellKinded := by
  unfold State.enterBody
  split
  · exact hs
  · exact hs.push

theorem keeps_roundTest {cx : Context} (hcx : cx.Keeps) (c : Option Expr) :
    Keeps (roundTest cx c) fun _ => True := by
  cases c with
  | none => exact Keeps.pure trivial
  | some c => exact (keeps_evaluate hcx c).condition

theorem keeps_roundUpdate {cx : Context} (hcx : cx.Keeps) (update : Option Expr) :
    Keeps (roundUpdate cx update) fun _ => True := by
  cases update with
  | none => exact Keeps.pure trivial
  | some e => exact keeps_discarded (keeps_evaluate hcx e)

theorem keeps_elements_of_pos {cx : Context} (hcx : cx.Keeps) (s : Scalar) {dims : Nat}
    (hdims : 1 ≤ dims) (es : List Expr) : Keeps (elements cx s dims es) fun _ => True := by
  obtain ⟨n, rfl⟩ : ∃ n, dims = n + 1 := ⟨dims - 1, by omega⟩
  exact (keeps_elements hcx s n es).imp fun _ _ => trivial

theorem Starts.wellKinded {config : EvaluatorConfig} {task : Task} {s : State}
    (h : Starts config task s) : s.WellKinded ∧ task.WellKinded := by
  have hcx := Context.keeps_of config
  have hliteral (span : Span) (x : Run Value) (hx : Keeps x WellKinded) :
      Keeps (literal span x) WellKinded := hx.literal
  induction h with
  | program p hsession => exact ⟨hsession.wellKinded, trivial⟩
  | nextStatement _ hrun _ ih => exact ⟨((keeps_execute (hcx _) _).ok ih.1 hrun).2, trivial⟩
  | afterError _ hrun _ ih => exact ⟨(keeps_execute (hcx _) _).error ih.1 hrun, trivial⟩
  | right _ _ hl ih => exact ⟨((keeps_evaluate (hcx _) _).literal.ok ih.1 hl).2, trivial⟩
  | undecided _ _ hl _ ih => exact ⟨((keeps_evaluate (hcx _) _).condition.ok ih.1 hl).2, trivial⟩
  | chosen _ hc ih => exact ⟨((keeps_evaluate (hcx _) _).condition.ok ih.1 hc).2, trivial⟩
  | item _ hbefore ih =>
    exact ⟨((keeps_evaluateAll (hcx _) hliteral _).ok ih.1 hbefore).2, trivial⟩
  | stored _ hi _ ih => exact ⟨((keeps_evaluate (hcx _) _).literal.ok ih.1 hi).2, trivial⟩
  | argument _ hcallee _ hbefore ih =>
    have hs₁ := ((keeps_evaluate (hcx _) _).ok ih.1 hcallee).2
    exact ⟨((keeps_evaluateAll (hcx _) hliteral _).ok hs₁ hbefore).2, trivial⟩
  | called _ hcallee _ hargs _ hbound hdeclare ih =>
    have hs₁ := ((keeps_evaluate (hcx _) _).ok ih.1 hcallee).2
    obtain ⟨hvs, hs₂⟩ := (keeps_evaluateAll (hcx _) hliteral _).ok hs₁ hargs
    have hbindings := wellKinded_bindArguments hvs hbound
    exact ⟨((keeps_declareAll hbindings).ok (hs₂.enterCall _) hdeclare).2, trivial⟩
  | list _ _ ih => exact ⟨ih.1, Nat.le_max_right ..⟩
  | sublist _ hbefore hdims ih =>
    have hs' := ((keeps_elements_of_pos (hcx _) _ ih.2 _).ok ih.1 hbefore).2
    exact ⟨hs', Nat.le_sub_one_of_lt hdims⟩
  | element _ hbefore _ ih =>
    exact ⟨((keeps_elements_of_pos (hcx _) _ ih.2 _).ok ih.1 hbefore).2, trivial⟩
  | printed _ hbefore ih =>
    exact ⟨((keeps_evaluateAll (hcx _) (fun _ _ h => h) _).ok ih.1 hbefore).2, trivial⟩
  | block _ ih => exact ⟨ih.1.push, trivial⟩
  | next _ hrun ih => exact ⟨((keeps_execute (hcx _) _).ok ih.1 hrun).2, trivial⟩
  | branch _ hc _ ih =>
    have hs' := ((keeps_evaluate (hcx _) _).condition.ok ih.1 hc).2
    exact ⟨hs'.enterBody _, trivial⟩
  | prepared _ ih => exact ⟨ih.1.push, trivial⟩
  | forLoop _ hinit ih =>
    exact ⟨((keeps_execute (hcx _) _).ok (ih.1.push) hinit).2, trivial⟩
  | unprepared _ ih => exact ⟨ih.1.push, trivial⟩
  | roundBody _ htest ih =>
    have hs' := ((keeps_roundTest (hcx _) _).ok ih.1 htest).2
    exact ⟨hs'.enterBody _, trivial⟩
  | roundUpdate _ htest hbody _ ih =>
    have hs₁ := ((keeps_roundTest (hcx _) _).ok ih.1 htest).2
    exact ⟨((keeps_asBody (keeps_execute (hcx _) _)).ok hs₁ hbody).2, trivial⟩
  | nextRound _ htest hbody _ hupdate ih =>
    have hs₁ := ((keeps_roundTest (hcx _) _).ok ih.1 htest).2
    have hs₂ := ((keeps_asBody (keeps_execute (hcx _) _)).ok hs₁ hbody).2
    exact ⟨((keeps_roundUpdate (hcx _) _).ok hs₂ hupdate).2, trivial⟩
  | forEach _ hread _ ih =>
    obtain ⟨hitems, hs'⟩ := keeps_readArray.ok ih.1 hread
    exact ⟨hs', fun v hv => ⟨hitems.kind_of_mem hv, hitems.of_mem hv⟩⟩
  | value _ hdeclare ih =>
    obtain ⟨hs, hitems⟩ := ih
    obtain ⟨hkind, hv⟩ := hitems _ List.mem_cons_self
    have hb := Binding.WellKinded.of_kind hv
    rw [hkind] at hb
    have hs' := ((keeps_declare hb).ok hs.push hdeclare).2
    exact ⟨hs'.enterBody _, trivial⟩
  | nextValue _ hrun _ ih =>
    obtain ⟨hs, hitems⟩ := ih
    rw [Task.WellKinded, List.forall_mem_cons] at hitems
    exact ⟨((keeps_value hitems.1.1 hitems.1.2 (keeps_asBody (keeps_execute (hcx _) _))).ok hs
      hrun).2, hitems.2⟩
  | switch _ hv ih => exact ⟨((keeps_evaluate (hcx _) _).literal.ok ih.1 hv).2, trivial⟩
  | nextCase _ hv _ ih => exact ⟨((keeps_evaluate (hcx _) _).literal.ok ih.1 hv).2, trivial⟩
  | matched _ hv hmatch ih =>
    have hs₁ := ((keeps_evaluate (hcx _) _).literal.ok ih.1 hv).2
    exact ⟨((keeps_firstMatch (fun _ _ _ => keeps_equalForSwitch) (keeps_caseValues (hcx _) _)).ok
      hs₁ hmatch).2, trivial⟩
  | body _ ih => exact ⟨ih.1.push, trivial⟩
  | nextBody _ hrun ih => exact ⟨((keeps_executeAll (hcx _) _).inScope.ok ih.1 hrun).2, trivial⟩
  | _ => exact ⟨(by assumption : State.WellKinded _ ∧ _).1, trivial⟩

theorem Moment.wellKinded {config : EvaluatorConfig} {s : State} (h : Moment config s) :
    s.WellKinded := by
  cases h with
  | start h => exact h.wellKinded.1
  | evaluated fuel h => exact (keeps_evaluate (Context.keeps_of config fuel) _).endState h.wellKinded.1
  | executed fuel h => exact (keeps_execute (Context.keeps_of config fuel) _).endState h.wellKinded.1

/--
At every moment the store is well-kinded, and so is every value that an expression yields at that moment.
-/
theorem wellKinded_of_moment {config : EvaluatorConfig} {s : State} (h : Moment config s) :
    (∀ scope ∈ s.env.scopes, ∀ entry ∈ scope.bindings,
      (entry.2.value = .null ∨ entry.2.value.kind = entry.2.kind) ∧ entry.2.value.WellKinded) ∧
    ∀ (fuel : Nat) (e : Expr) (v : Value) (s' : State),
      evaluate (.of config fuel) e s = .ok v s' → v.WellKinded := by
  constructor
  · intro scope hscope
    exact (h.wellKinded scope hscope).bindings
  · intro fuel e v s' hrun
    exact ((keeps_evaluate (Context.keeps_of config fuel) e).ok h.wellKinded hrun).1

def narrowedArray : Stmt :=
  .arrayDecl .unplaced .char 1 "v" (.values [.literal .unplaced (.string "x")])

theorem wellKinded_of_moment_narrowedArray :
    ∃ s, Moment .default s ∧ ∃ scope ∈ s.env.scopes, ∃ entry ∈ scope.bindings,
      entry.2.value = .array (.scalar .char) [.char 'x'] ∧ entry.2.value.WellKinded := by
  have hmoment : Moment .default
      (endState (execute (.of .default 1) narrowedArray (Session.start .default).state)) :=
    .executed 1 (.statement (.program ⟨[narrowedArray]⟩ .start))
  refine ⟨_, hmoment, _, Array.mem_of_getElem? (i := 0) rfl, _, List.mem_cons_self, rfl, ?_⟩
  exact ((wellKinded_of_moment hmoment).1 _ (Array.mem_of_getElem? (i := 0) rfl) _
    List.mem_cons_self).2

end Arbor.Evaluation
