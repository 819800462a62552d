import Arbor.Proofs.Evaluation.Renaming

/-!
This module contains the proof that a `for` loop means what it is short for: its initial statement and then a `while`
loop, with the update after the body of each round. A `continue` of the loop would skip the update of the `while` loop,
so that there must be none.
-/

namespace Arbor

namespace Stmt

mutual

/--
A `continue` in the statement belongs to a loop around it.
-/
def continues : Stmt → Bool
  | .continueStmt _ => true
  | .block _ body => anyContinues body
  | .conditional _ _ t f =>
    t.continues || (match f with
      | none => false
      | some f => f.continues)
  | .switch _ _ cases default =>
    casesContinue cases || (match default with
      | none => false
      | some body => anyContinues body)
  | _ => false

def anyContinues : List Stmt → Bool
  | [] => false
  | s :: rest => s.continues || anyContinues rest

def casesContinue : List SwitchCase → Bool
  | [] => false
  | .mk _ _ body :: rest => anyContinues body || casesContinue rest

end

def initializes : Stmt → Bool
  | .varDecl .. | .arrayDecl .. | .funcDecl .. | .expr .. => true
  | _ => false

/--
What a `for` loop is short for. The nodes that it does not have are all placed at the same span.
-/
def unfolded (span : Span) (init : Option Stmt) (cond update : Option Expr) (body : Stmt) : Stmt :=
  .block span (init.toList ++ [
    .whileLoop span (cond.getD (.literal span (.bool true)))
      (.block span (.block span [body] :: (update.map (.expr span)).toList))])

end Stmt

namespace Evaluation

/-! Signals -/

def Yields {α : Type} (x : Run α) (D : α → Prop) : Prop :=
  ∀ s a t, x s = .ok a t → D a

def Flow.NoContinue : Flow → Prop
  | .continuing _ => False
  | _ => True

namespace Yields

variable {α β : Type} {D : α → Prop} {E : β → Prop} {x : Run α} {f g : α → Run β}

theorem any (x : Run α) : Yields x fun _ => True :=
  fun _ _ _ _ => trivial

theorem pure {a : α} (h : D a) : Yields (pure a) D := by
  intro s b t heq
  cases heq
  exact h

theorem bind (hx : Yields x D) (hf : ∀ a, D a → Yields (f a) E) : Yields (x >>= f) E := by
  intro s b t
  change EStateM.bind x f s = _ → _
  unfold EStateM.bind
  cases h : x s with
  | ok a t' => exact hf a (hx s a t' h) t' b t
  | error e t' => exact nofun

theorem inScope (hx : Yields x D) : Yields (inScope x) D := by
  intro s a t
  rw [inScope_eq]
  cases h : x { s with env := s.env.push } with
  | ok b t' =>
    intro heq
    cases heq
    exact hx _ a t' h
  | error e t' => exact nofun

theorem bind_congr (hx : Yields x D) (h : ∀ a, D a → f a = g a) : x >>= f = x >>= g := by
  funext s
  change EStateM.bind x f s = EStateM.bind x g s
  unfold EStateM.bind
  cases hrun : x s with
  | ok a t => exact congrFun (h a (hx s a t hrun)) t
  | error e t => rfl

/-! Statements without `continue` -/

variable {x y : Run Flow}

theorem andThen (hx : Yields x Flow.NoContinue) (hy : Yields y Flow.NoContinue) :
    Yields (andThen x y) Flow.NoContinue := by
  refine hx.bind fun flow hflow => ?_
  cases flow with
  | normal => exact hy
  | continuing _ => exact hflow.elim
  | breaking _ | returning _ _ => exact pure trivial

theorem asBody (hx : Yields x Flow.NoContinue) (isBlock : Bool) : Yields (asBody isBlock x) Flow.NoContinue := by
  cases isBlock with
  | true => exact hx
  | false => exact hx.inScope

theorem fallThrough {bodies : List (Run Flow)} (hbodies : ∀ x ∈ bodies, Yields x Flow.NoContinue) :
    Yields (fallThrough bodies) Flow.NoContinue := by
  induction bodies with
  | nil => exact pure trivial
  | cons x rest ih =>
    refine (hbodies x List.mem_cons_self).bind fun flow hflow => ?_
    cases flow with
    | normal => exact ih fun y hy => hbodies y (List.mem_cons_of_mem x hy)
    | continuing _ => exact hflow.elim
    | breaking _ | returning _ _ => exact pure trivial

theorem loop (cond : Run Bool) (body : Run Flow) (update : Run Unit) (fuel : Nat) :
    Yields (loop cond body update fuel) Flow.NoContinue := by
  induction fuel with
  | zero => exact nofun
  | succ fuel ih =>
    refine (any cond).bind fun again _ => ?_
    cases again with
    | false => exact pure trivial
    | true =>
      refine (any body).bind fun flow _ => ?_
      cases flow with
      | breaking _ | returning _ _ => exact pure trivial
      | normal | continuing _ => exact (any update).bind fun _ _ => ih

theorem forValues (body : Value → Run Flow) (items : List Value) : Yields (forValues body items) Flow.NoContinue := by
  induction items with
  | nil => exact pure trivial
  | cons v items ih =>
    refine (any (body v)).bind fun flow _ => ?_
    cases flow with
    | breaking _ | returning _ _ => exact pure trivial
    | normal | continuing _ => exact ih

theorem initializes (cx : Context) {s : Stmt} (h : s.initializes = true) :
    Yields (execute cx s) fun flow => flow = .normal := by
  cases s with
  | varDecl _ _ _ init => cases init <;> exact (any _).bind fun _ _ => (any _).bind fun _ _ => pure rfl
  | arrayDecl | funcDecl | expr => exact (any _).bind fun _ _ => pure rfl
  | _ => cases h

mutual

theorem execute (cx : Context) : ∀ s : Stmt, s.continues = false → Yields (execute cx s) Flow.NoContinue
  | .varDecl _ _ _ none, _ | .varDecl _ _ _ (some _), _ | .print .., _ =>
    (any _).bind fun _ _ => (any _).bind fun _ _ => pure trivial
  | .arrayDecl .., _ | .funcDecl .., _ | .expr .., _ => (any _).bind fun _ _ => pure trivial
  | .block _ body, h => (executeAll cx body h).inScope
  | .conditional _ c t f, h => by
    unfold Stmt.continues at h
    rw [Bool.or_eq_false_iff] at h
    unfold Evaluation.execute
    refine (any _).bind fun b _ => ?_
    cases b with
    | true => exact (execute cx t h.1).asBody _
    | false =>
      cases f with
      | none => exact pure trivial
      | some f => exact (execute cx f h.2).asBody _
  | .whileLoop .., _ => by
    rw [execute_whileLoop]
    exact loop _ _ _ _
  | .forLoop _ init c update body, _ => by
    rw [execute_forLoop]
    refine inScope ?_
    cases init with
    | none => exact loop _ _ _ _
    | some init => exact (any _).bind fun _ _ => loop _ _ _ _
  | .forEach .., _ => (any _).bind fun _ _ => (any _).bind fun _ _ => forValues _ _
  | .switch _ subject cases default, h => by
    unfold Stmt.continues at h
    rw [Bool.or_eq_false_iff] at h
    unfold Evaluation.execute
    refine (any _).bind fun v _ => ?_
    refine (any _).bind fun position? _ => ?_
    refine fallThrough fun x hx => ?_
    rcases mem_bodiesFrom hx with hx | hx
    · exact caseBodies cx cases h.1 x hx
    · cases default with
      | none => cases hx
      | some body =>
        cases hx
        exact (executeAll cx body h.2).inScope
  | .breakStmt _, _ | .returnStmt _ none, _ => pure trivial
  | .returnStmt _ (some _), _ => (any _).bind fun _ _ => pure trivial

theorem executeAll (cx : Context) :
    ∀ body : List Stmt, Stmt.anyContinues body = false → Yields (executeAll cx body) Flow.NoContinue
  | [], _ => pure trivial
  | s :: rest, h => by
    rw [Stmt.anyContinues, Bool.or_eq_false_iff] at h
    exact (execute cx s h.1).andThen (executeAll cx rest h.2)

theorem caseBodies (cx : Context) :
    ∀ cases : List SwitchCase, Stmt.casesContinue cases = false →
      ∀ x ∈ caseBodies cx cases, Yields x Flow.NoContinue
  | [], _ => by simp [Evaluation.caseBodies]
  | .mk _ _ body :: rest, h => by
    rw [Stmt.casesContinue, Bool.or_eq_false_iff] at h
    unfold Evaluation.caseBodies
    rw [List.forall_mem_cons]
    exact ⟨(executeAll cx body h.1).inScope, caseBodies cx rest h.2⟩

end

end Yields

/-! The two loops -/

theorem andThen_normal (x : Run Flow) : andThen x (return .normal) = x := by
  unfold andThen
  conv_rhs => rw [← bind_pure x]
  congr 1
  funext flow
  cases flow <;> rfl

/--
The update of a loop may as well be at the end of its body, if nothing skips it there.
-/
theorem loop_andThen {body : Run Flow} (hbody : Yields body Flow.NoContinue) (cond : Run Bool) (update : Run Unit)
    (fuel : Nat) :
    loop cond (andThen body (do update; return .normal)) (return ()) fuel = loop cond body update fuel := by
  induction fuel with
  | zero => rfl
  | succ fuel ih =>
    apply (Yields.any cond).bind_congr
    intro again _
    cases again with
    | false => rfl
    | true =>
      simp only [if_true, andThen, bind_assoc]
      apply hbody.bind_congr
      intro flow hflow
      cases flow with
      | normal =>
        simp only [bind_assoc, pure_bind, ← ih]
        rfl
      | continuing _ => exact hflow.elim
      | breaking _ | returning _ _ => rfl

def unfoldedRound (cx : Context) (update : Option Expr) (body : Stmt) : Run Flow :=
  andThen (inScope (execute cx body)) (do roundUpdate cx update; return .normal)

theorem executeAll_singleton (cx : Context) (s : Stmt) : executeAll cx [s] = execute cx s :=
  andThen_normal _

theorem executeAll_update (cx : Context) (span : Span) (update : Option Expr) :
    executeAll cx (update.map (Stmt.expr span)).toList = (do roundUpdate cx update; return .normal) := by
  cases update with
  | none => rfl
  | some e =>
    have hupdate : roundUpdate cx (some e) = (do let _ ← evaluate cx e) := rfl
    rw [hupdate]
    simp only [bind_assoc, pure_bind]
    exact executeAll_singleton cx (.expr span e)

theorem roundTest_getD (cx : Context) (span : Span) (c : Option Expr) :
    roundTest cx (some (c.getD (.literal span (.bool true)))) = roundTest cx c := by
  cases c <;> rfl

theorem execute_unfolded (cx : Context) (span : Span) {init : Option Stmt} (c update : Option Expr) (body : Stmt)
    (hinit : init.all Stmt.initializes = true) :
    execute cx (.unfolded span init c update body) = inScope (do
      if let some init := init then
        let _ ← execute cx init
      loop (roundTest cx c) (inScope (unfoldedRound cx update body)) (return ()) cx.fuel) := by
  have hround : asBody true (execute cx (.block span (.block span [body] :: (update.map (.expr span)).toList))) =
      inScope (unfoldedRound cx update body) := by
    have hbody : execute cx (.block span [body]) = inScope (execute cx body) :=
      congrArg inScope (executeAll_singleton cx body)
    rw [unfoldedRound, ← hbody, ← executeAll_update cx span]
    rfl
  have hloop : executeAll cx [.whileLoop span (c.getD (.literal span (.bool true)))
      (.block span (.block span [body] :: (update.map (.expr span)).toList))] =
        loop (roundTest cx c) (inScope (unfoldedRound cx update body)) (return ()) cx.fuel := by
    rw [executeAll_singleton, execute_whileLoop, roundTest_getD]
    exact congrArg (loop (roundTest cx c) · (return ()) cx.fuel) hround
  cases init with
  | none => exact congrArg inScope hloop
  | some init =>
    apply congrArg inScope
    rw [← hloop]
    exact (Yields.initializes cx hinit).bind_congr fun flow hflow => by
      rw [hflow]
      rfl

/-! The two runs -/

namespace Matches

variable {cx : Context}

/--
The body of a `for` loop matches the body of the `while` loop, which is in one more scope if it is a block.
-/
theorem body (hcx : cx.Renames) (body : Stmt) :
    Coincides false (asBody body.isBlock (Evaluation.execute cx body)) (Evaluation.inScope (Evaluation.execute cx body))
      Flow.IsData := by
  cases hblock : body.isBlock with
  | false => exact inScope (execute hcx body)
  | true =>
    cases body with
    | block span stmts => exact inScope_right (inScope (executeAll hcx stmts))
    | _ => cases hblock

theorem round (hcx : cx.Renames) (update : Option Expr) (body : Stmt) :
    Coincides false
      (andThen (asBody body.isBlock (Evaluation.execute cx body)) (do Evaluation.roundUpdate cx update; return .normal))
      (Evaluation.inScope (unfoldedRound cx update body)) Flow.IsData := by
  apply inScope_right
  apply (Matches.body hcx body).andThen
  exact (roundUpdate hcx update).bind fun _ _ => Coincides.pure trivial

theorem forLoop (hcx : cx.Renames) (span span' : Span) {init : Option Stmt} (c update : Option Expr) {body : Stmt}
    (hinit : init.all Stmt.initializes = true) (hbody : body.continues = false) :
    Coincides true (Evaluation.execute cx (.forLoop span init c update body))
      (Evaluation.execute cx (.unfolded span' init c update body)) Flow.IsData := by
  have hloop : Coincides true
      (loop (Evaluation.roundTest cx c) (asBody body.isBlock (Evaluation.execute cx body))
        (Evaluation.roundUpdate cx update) cx.fuel)
      (loop (Evaluation.roundTest cx c) (Evaluation.inScope (unfoldedRound cx update body)) (return ()) cx.fuel)
      Flow.IsData := by
    rw [← loop_andThen ((Yields.execute cx body hbody).asBody _)]
    exact (roundTest hcx c).loop (round hcx update body).weaken (Coincides.pure trivial) _
  rw [execute_forLoop, execute_unfolded cx span' c update body hinit]
  apply inScope
  cases init with
  | none => exact hloop
  | some init => exact (execute hcx init).bind fun _ _ => hloop

end Matches

/--
Two states after the same has been done in each: the same is printed, each scope of one stands for a scope of the other,
and the names that were visible before are still declared with the same kinds and have the same values, functions up to
the numbers of their scopes. Scopes that were there before keep their numbers.
-/
def State.AgreeAfter (s t t' : State) : Prop :=
  t'.lines = t.lines ∧ ∃ owner : Nat → Nat,
    (∀ id < s.env.scopes.size, owner id = id) ∧ StrictMonoOn owner (Set.Iio t.env.scopes.size) ∧ t.Renames owner t' ∧
    ∀ name b, s.env.get name = .ok b → ∃ b₁ b₁', t.env.get name = .ok b₁ ∧ t'.env.get name = .ok b₁' ∧
      b₁.kind = b.kind ∧ b₁'.kind = b.kind ∧ b₁.value.Renamed owner t.env.pinned b₁'.value

/--
Two runs from the same state end with the same signal or the same error, in states that agree.
-/
def EndTogether (s : State) : EStateM.Result Halt State Flow → EStateM.Result Halt State Flow → Prop
  | .ok flow t, .ok flow' t' => flow' = flow ∧ s.AgreeAfter t t'
  | .error h t, .error h' t' => h' = h ∧ s.AgreeAfter t t'
  | _, _ => False

theorem framed_forLoop (config : EvaluatorConfig) (fuel : Nat) (span : Span) (init : Option Stmt)
    (c update : Option Expr) (body : Stmt) (s : State) :
    s.Framed false (endState (execute (.of config fuel) (.forLoop span init c update body) s)) := by
  have hcalls : ∀ place f args, Frames false Value ((Context.of config fuel).invoke place f args) :=
    closed_frames.invoke config fuel
  have hloop := closed_frames.statement (closed_frames.loop (closed_frames.roundTest hcalls c)
    (closed_frames.executes hcalls body).2 (closed_frames.roundUpdate hcalls update) fuel)
  rw [execute_forLoop]
  refine frames_inScope ?_ s
  cases init with
  | none => exact hloop
  | some init => exact closed_frames.andThen (closed_frames.executes hcalls init).1 fun _ => hloop

theorem State.agreeAfter_of_continues {s t t' : State} {owner : Nat → Nat} (hs : s.Regular)
    (hframed : s.Framed false t) (h : State.Continues id owner s s t t') : s.AgreeAfter t t' := by
  refine ⟨h.lines, owner, h.env.agrees, h.env.renames.mono, h.renames, fun name b hget => ?_⟩
  obtain ⟨b₁, hget₁, hkind⟩ := hframed.env.get hs.env.current_lt hget
  rcases h.env.renames.get name with ⟨k, hk, -⟩ | ⟨c, c', hc, hc', hrenamed⟩
  · cases hget₁.symm.trans hk
  · cases hget₁.symm.trans hc
    exact ⟨b₁, c', hget₁, hc', hkind, hrenamed.kind.trans hkind, hrenamed.value⟩

/--
A `for` loop whose body holds no `continue` of it does what it is short for, at every moment and however it ends.
-/
theorem forLoop_unfolds {config : EvaluatorConfig} {s : State} (hs : Moment config s) (fuel : Nat) (span span' : Span)
    {init : Option Stmt} (c update : Option Expr) {body : Stmt} (hinit : init.all Stmt.initializes = true)
    (hbody : body.continues = false) :
    EndTogether s (execute (.of config fuel) (.forLoop span init c update body) s)
      (execute (.of config fuel) (.unfolded span' init c update body) s) := by
  have hregular := hs.regular
  have hframed := framed_forLoop config fuel span init c update body s
  have hends := Matches.forLoop (Context.renames_of config fuel) span span' c update hinit hbody id s s hregular
    (fun _ => rfl) trivial
  revert hends hframed
  cases execute (.of config fuel) (.forLoop span init c update body) s with
  | ok flow t =>
    cases execute (.of config fuel) (.unfolded span' init c update body) s with
    | ok flow' t' =>
      rintro hframed ⟨owner, hcontinues, rfl, -⟩
      exact ⟨rfl, State.agreeAfter_of_continues hregular hframed hcontinues⟩
    | error h' t' => exact fun _ => False.elim
  | error h t =>
    cases execute (.of config fuel) (.unfolded span' init c update body) s with
    | ok flow' t' => exact fun _ => False.elim
    | error h' t' =>
      rintro hframed ⟨rfl, owner, hcontinues⟩
      exact ⟨rfl, State.agreeAfter_of_continues hregular hframed hcontinues⟩

def callingBody : Stmt :=
  .block .unplaced [
    .funcDecl .unplaced .void "f" [] [.print .unplaced [.var .unplaced "i"]],
    .expr .unplaced (.call .unplaced (.var .unplaced "f") [])]

def callingInit : Option Stmt :=
  some (.varDecl .unplaced .int "i" (some (.literal .unplaced (.int 0))))

def callingTest : Option Expr :=
  some (.binary .unplaced .lt (.var .unplaced "i") (.literal .unplaced (.int 2)))

def callingUpdate : Option Expr :=
  some (.step .unplaced "i" .up)

theorem forLoop_unfolds_calling :
    (endState (execute (.of .default 3) (.forLoop .unplaced callingInit callingTest callingUpdate callingBody)
      (Session.start .default).state)).lines = #["0", "1"] ∧
    EndTogether (Session.start .default).state
      (execute (.of .default 3) (.forLoop .unplaced callingInit callingTest callingUpdate callingBody)
        (Session.start .default).state)
      (execute (.of .default 3) (.unfolded .unplaced callingInit callingTest callingUpdate callingBody)
        (Session.start .default).state) :=
  ⟨by decide +kernel, forLoop_unfolds (.start (.program ⟨[]⟩ .start)) 3 .unplaced .unplaced callingTest callingUpdate
    (by decide) (by decide)⟩

end Evaluation

end Arbor
