import Arbor.Proofs.Agreement.Declarations

/-!
This module contains the run of the statements that are lowered in a frame: from a state that agrees with the frame a
statement ends in one that agrees with the frame it leaves, with a signal only where there is a target for it.
-/

namespace Arbor.Agreement

open Lowering (Frame Slot SlotKind JumpTargets Part StmtCode PrintCode TestCode UpdateCode CaseWord
  WordsCode StringsCode CasesCode switchBodies)
open Evaluation

def Allowed (j : JumpTargets) : Flow → Prop
  | .normal => True
  | .breaking _ => j.breaks ≠ []
  | .continuing _ => j.continues ≠ []
  | .returning .. => False

theorem snd_switchBodies {m : Nat} {cases : List SwitchCase} {default : Option (List Stmt)} :
    (switchBodies m cases default).map Prod.snd = cases.map SwitchCase.body ++ default.toList := by
  unfold switchBodies
  apply List.map_snd_zip
  exact Nat.le_of_eq (by rw [Lowering.length_labelsFrom, List.length_append, List.length_map])

/-! Runs of parts -/

section Runs

variable {α : Type} {cx : Context} {f g : Frame}

theorem runs_inScope {x : Run α} {Q : α → Prop}
    (hx : Runs f.openScope x fun a s =>
      Q a ∧ ∃ g added, f.openScope.Extends g added ∧ Agrees g s) :
    Runs f (inScope x) fun a s => Q a ∧ Agrees f s := by
  intro t ht
  have hscope : Triple (fun s => s = t) (inScope x) (fun a s => Q a ∧ Agrees f s)
      fun h _ => Expected h := by
    apply Triple.inScope
    apply hx.conseq
    · rintro _ ⟨_, rfl, rfl⟩
      exact ht.openScope
    · rintro a s ⟨ha, g, added, hfg, hs⟩
      exact ⟨ha, hs.closeScope hfg ht⟩
    · exact fun _ _ h => h
  exact hscope t rfl

theorem executeAll_singleton (s : Stmt) : executeAll cx [s] = execute cx s := by
  funext t
  simp only [executeAll, andThen]
  change EStateM.bind (execute cx s) _ t = _
  unfold EStateM.bind
  cases execute cx s t with
  | error e t' => rfl
  | ok flow t' => cases flow <;> rfl

theorem asBody_eq (s : Stmt) :
    asBody s.isBlock (execute cx s) = inScope (executeAll cx s.bodyOf) := by
  cases s with
  | block span body => simp only [Stmt.isBlock, asBody, Stmt.bodyOf, execute, if_true]
  | _ => simp only [Stmt.isBlock, asBody, Stmt.bodyOf, executeAll_singleton, Bool.false_eq_true, if_false]

theorem runs_roundTest {n n' : Nat} {done : Assembly.Label} {cond : Option Expr}
    {c : List Assembly.Line} (h : TestCode f n done cond c n') (hnames : ∀ e ∈ cond, PlainNames e) :
    Runs f (roundTest cx cond) fun _ s => Agrees f s := by
  cases h with
  | none => exact Triple.pure fun _ hs => hs
  | some he =>
    exact ((sound_evaluate he (hnames _ rfl)).suits_condition).runs.post fun _ _ hs => hs.2

theorem runs_roundUpdate {n n' : Nat} {update : Option Expr} {c : List Assembly.Line}
    (h : UpdateCode f n update c n') (hnames : ∀ e ∈ update, PlainNames e) :
    Runs f (roundUpdate cx update) fun _ s => Agrees f s := by
  cases h with
  | none => exact Triple.pure fun _ hs => hs
  | some he =>
    apply (sound_evaluate he (hnames _ rfl)).bindRuns
    exact fun _ _ => Triple.pure fun _ hs => hs

theorem runs_loop {cond : Run Bool} {body : Run Flow} {update : Run Unit} {j : JumpTargets}
    {done next : Assembly.Label} {level : Int}
    (hcond : Runs f cond fun _ s => Agrees f s)
    (hbody : Runs f body fun flow s => Allowed (j.inLoop done next level) flow ∧ Agrees f s)
    (hupdate : Runs f update fun _ s => Agrees f s) (fuel : Nat) :
    Runs f (loop cond body update fuel) fun flow s => flow = .normal ∧ Agrees f s := by
  apply Triple.loop (B := Agrees f) (U := Agrees f)
  · apply hcond.post
    intro b s hs
    cases b with
    | true => exact hs
    | false => exact ⟨rfl, hs⟩
  · apply hbody.post
    rintro flow s ⟨hflow, hs⟩
    cases flow with
    | breaking => exact ⟨rfl, hs⟩
    | returning => exact hflow.elim
    | normal | continuing => exact hs
  · exact hupdate
  · exact fun _ _ => trivial

theorem runs_evaluateAll {n n' : Nat} {separator c : List Assembly.Line} {args : List Expr}
    (h : PrintCode f n separator args c n') (hnames : ∀ e ∈ args, PlainNames e) :
    Runs f (evaluateAll cx (fun _ x => x) args) fun _ s => Agrees f s := by
  induction h with
  | nil => exact Triple.pure fun _ hs => hs
  | cons he _ ih =>
    rw [List.forall_mem_cons] at hnames
    rw [evaluateAll]
    apply (sound_evaluate he hnames.1).bindRuns
    intro v _
    apply Triple.bind (ih hnames.2)
    exact fun _ => Triple.pure fun _ hs => hs

end Runs

/-! Switches -/

section Switch

variable {cx : Context} {f : Frame} {kind : SlotKind}

theorem evaluate_of_caseWord {e : Expr} {word : Int} (h : CaseWord kind e word) :
    ∃ v, evaluate cx e = pure v ∧ v.kind = kind.kind := by
  have hint {k : Int64} {word : Int} (hword : Lowering.intWord k = .ok word) :
      Value.ofLiteral (.int k) = .ok (.int (Int32.ofInt k.toInt)) := by
    unfold Lowering.intWord at hword
    split at hword
    · next hrange => rw [Value.ofLiteral, if_pos hrange]
    · cases hword
  induction h with
  | grouping _ ih =>
    rw [evaluate]
    exact ih
  | int hword => exact ⟨_, by rw [evaluate, hint hword, liftAt], rfl⟩
  | char span c => exact ⟨.char c, rfl, rfl⟩
  | bool span b => exact ⟨.bool b, rfl, rfl⟩
  | @negative _ _ k _ hword =>
    refine ⟨.int (-Int32.ofInt k.toInt), ?_, rfl⟩
    rw [evaluate, evaluate, hint hword]
    rfl

theorem comparesWords_eq (h : kind = .int ∨ kind = .char ∨ kind = .bool) :
    Lowering.comparesWords .eq kind = true := by
  simpa [Lowering.comparesWords] using h

theorem evaluate_of_casesCode {cases : List (Expr × Assembly.Label)} {c : List Assembly.Line}
    (h : CasesCode kind cases c) : ∀ entry ∈ cases, ∃ v, evaluate cx entry.1 = pure v ∧
      v.kind = kind.kind ∧ ∀ u : Value, u.kind = kind.kind →
        Computes (.scalar .bool) (Value.binary .eq u v) := by
  cases h with
  | strings hcode =>
    induction hcode with
    | nil => simp
    | @cons _ raw _ _ _ _ ih =>
      rw [List.forall_mem_cons]
      refine ⟨⟨.text (Text.unescape raw), rfl, rfl, fun u hu => ?_⟩, ih⟩
      obtain ⟨s, rfl⟩ := exists_text hu
      exact .ok rfl
  | words hkind hcode =>
    induction hcode with
    | nil => simp
    | cons hword _ ih =>
      rw [List.forall_mem_cons]
      refine ⟨?_, ih⟩
      obtain ⟨v, hv, hvkind⟩ := evaluate_of_caseWord hword
      exact ⟨v, hv, hvkind, fun u hu => computes_words (comparesWords_eq hkind) hu hvkind⟩

theorem runs_firstMatch {subject : Value} {cases : List SwitchCase}
    (hcases : ∀ e ∈ cases.map SwitchCase.value, ∃ v, evaluate cx e = pure v ∧ v.kind = kind.kind ∧
      Computes (.scalar .bool) (Value.binary .eq subject v)) :
    Runs f (firstMatch subject equalForSwitch (caseValues cx cases)) fun _ s => Agrees f s := by
  induction cases with
  | nil => exact Triple.pure fun _ hs => hs
  | cons first rest ih =>
    obtain ⟨span, value, body⟩ := first
    rw [List.map_cons, List.forall_mem_cons] at hcases
    obtain ⟨⟨v, hv, hkind, hcomputes⟩, hrest⟩ := hcases
    rw [caseValues]
    apply Triple.firstMatch_cons (R := fun w s => w = v ∧ Agrees f s) (S := Agrees f)
    · have hvalue : Sound f (evaluate cx value) fun w => w = v := by
        rw [show evaluate cx value = _ from hv]
        exact .pure rfl
      apply (hvalue.literal _).runs
      rintro _ rfl
      exact isLiteral_of_kind hkind
    · intro w
      apply Triple.assuming fun _ hs => hs.1
      intro hw
      subst hw
      have hequal : Sound f (liftAt span (Value.binary .eq subject w))
          fun u => u.kind = .scalar .bool ∧ u.WellKinded :=
        Sound.computes hcomputes fun _ => Value.wellKinded_binary
      have hruns : Runs f (equalForSwitch span subject w) fun _ s => Agrees f s := by
        apply hequal.bindRuns
        rintro u ⟨hu, -⟩
        obtain ⟨b, rfl⟩ := exists_bool hu
        exact Triple.pure fun _ hs => hs
      apply hruns.conseq (fun _ hs => hs.2)
      · intro b s hs
        cases b <;> exact hs
      · exact fun _ _ h => h
    · exact ih hrest

theorem runs_fallThrough {bodies : List (Run Flow)} {j : JumpTargets} {t : Lowering.JumpTarget}
    (hbodies : ∀ x ∈ bodies, Runs f x fun flow s => Allowed (j.pushBreak t) flow ∧ Agrees f s) :
    Runs f (fallThrough bodies) fun flow s => Allowed j flow ∧ Agrees f s := by
  induction bodies with
  | nil => exact Triple.pure fun _ hs => ⟨trivial, hs⟩
  | cons x rest ih =>
    rw [List.forall_mem_cons] at hbodies
    apply Triple.fallThrough_cons (R := Agrees f) _ (ih hbodies.2)
    apply hbodies.1.post
    rintro flow s ⟨hflow, hs⟩
    cases flow with
    | normal => exact hs
    | breaking => exact ⟨trivial, hs⟩
    | continuing => exact ⟨hflow, hs⟩
    | returning => exact hflow.elim

end Switch

end Arbor.Agreement
