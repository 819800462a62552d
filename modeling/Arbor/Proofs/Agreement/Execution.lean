import Arbor.Proofs.Agreement.Statements

/-!
This module contains the run of the parts of a program that are lowered in a frame. It keeps to the frame by induction
on the rules by which the parts become code.
-/

namespace Arbor.Agreement

open Lowering (Frame Slot SlotKind JumpTargets Part StmtCode ArrayCode CasesCode ExprCode TestCode UpdateCode
  switchBodies)
open Evaluation

section Loops

variable {cx : Context} {f : Frame} {j : JumpTargets} {span : Span} {name : String} {elem : Scalar}

theorem runs_forValues {round : Value → Run Flow} {j' : JumpTargets} {done next : Assembly.Label}
    {level : Int} {items : List Value}
    (hround : ∀ v, v.kind = .scalar elem →
      Runs f (round v) fun flow s => Allowed (j'.inLoop done next level) flow ∧ Agrees f s)
    (hitems : ∀ v ∈ items, v.kind = .scalar elem) :
    Runs f (forValues round items) fun flow s => Allowed j flow ∧ Agrees f s := by
  induction items with
  | nil => exact Triple.pure fun _ hs => ⟨trivial, hs⟩
  | cons v rest ih =>
    rw [List.forall_mem_cons] at hitems
    apply Triple.forValues_cons _ (ih hitems.2)
    apply (hround v hitems.1).post
    rintro flow s ⟨hflow, hs⟩
    cases flow with
    | breaking => exact ⟨trivial, hs⟩
    | returning => exact hflow.elim
    | normal | continuing => exact hs

theorem runs_declareEach {base : SlotKind} {len : Option Nat} {v : Value} (hname : Declarable Plain name)
    (hkind : v.kind = .scalar elem) :
    Triple (fun s => ∃ t, Agrees f t ∧ s = { t with env := t.env.push })
      (declare span name (.scalar elem) v) (fun _ s => Agrees (inEach f base len (.scalar elem) name) s)
      fun h _ => Expected h := by
  have hkind : v.kind = (SlotKind.scalar elem).kind := hkind
  apply Triple.pre
  · exact runs_declare Agrees.isDeclared_openEach hname hkind (Value.wellKinded_of_kind hkind)
  · rintro _ ⟨s, hs, rfl⟩
    exact hs.openEach

theorem runs_round {base : SlotKind} {len : Option Nat} {x : Run Flow} {v : Value} {Q : Flow → Prop}
    (hname : Declarable Plain name) (hkind : v.kind = .scalar elem)
    (hx : Runs (inEach f base len (.scalar elem) name) x fun flow s =>
      Q flow ∧ Agrees (inEach f base len (.scalar elem) name) s) :
    Runs f (inScope (do
      declare span name (.scalar elem) v
      x)) fun flow s => Q flow ∧ Agrees f s := by
  apply Triple.inScope
  apply Triple.bind (runs_declareEach hname hkind)
  intro _
  apply hx.conseq (fun _ hs => hs)
  · exact fun flow s hs => ⟨hs.1, hs.2.closeEach⟩
  · exact fun _ _ h => h

end Loops

variable {cx : Context} {f f' : Frame} {j : JumpTargets} {limit n n' : Nat}
  {d d' : Assembly.DataSection} {c : List Assembly.Line}

/--
What is to show of the run of a part that is lowered from one frame to another. Statements that end with a signal may
leave some of their variables undeclared.
-/
def Ends (cx : Context) (j : JumpTargets) (f f' : Frame) : Part → Prop
  | .stmt s => EachPart Stmt.Regular [s] →
    Runs f (execute cx s) fun flow t => Allowed j flow ∧ Agrees f' t
  | .seq body => EachPart Stmt.Regular body →
    Runs f (executeAll cx body) fun flow t => Allowed j flow ∧
      ∃ g added, f.Extends g added ∧ Agrees g t ∧ (flow = .normal ∨ body.length ≤ 1 → g = f')
  | .scope body => EachPart Stmt.Regular body →
    Runs f (inScope (executeAll cx body)) fun flow t => Allowed j flow ∧ Agrees f t
  | .bodies bodies => ∀ entry ∈ bodies, EachPart Stmt.Regular entry.2 →
    Runs f (inScope (executeAll cx entry.2)) fun flow t => Allowed j flow ∧ Agrees f t

theorem ends_varDecl {span : Span} {ty : TypeName} {name : String} {e : Expr} {kind : SlotKind}
    {len : Option Nat} {Q : Value → Prop} (hregular : EachPart Stmt.Regular [.varDecl span ty name (some e)])
    (hfree : f.isDeclared name = false) (he : Sound f (evaluate cx e) Q)
    (hQ : ∀ v, Q v → ∃ w, checkDeclared ty (some v) = (kind.kind, .ok w) ∧ w.kind = kind.kind ∧
      w.WellKinded) :
    Runs f (execute cx (.varDecl span ty name (some e))) fun flow t =>
      Allowed j flow ∧ Agrees (f.pushNamed kind len name) t := by
  have hname : Declarable Plain name :=
    declarable (eachPart_head hregular) List.mem_cons_self rfl
  unfold execute
  simp only [bind_map_left]
  apply he.bindRuns
  intro v hv
  obtain ⟨w, hchecked, hkind, hwell⟩ := hQ v hv
  apply Triple.bind (runs_declareVariable hfree hname hchecked hkind hwell)
  exact fun _ => Triple.pure fun _ ht => ⟨trivial, ht⟩

theorem checkDeclared_var {v : Value} {s : Scalar} (hv : v.kind = .scalar s) :
    checkDeclared .var (some v) = (.scalar s, .ok v) := by
  cases v <;> cases hv <;> rfl

theorem ends_cons {s : Stmt} {rest : List Stmt} {f₁ : Frame} {added : List Slot}
    (hfirst : f.Extends f₁ added) (hrest : rest = [] → f₁ = f')
    (ih₁ : Ends cx j f f₁ (.stmt s)) (ih₂ : Ends cx j f₁ f' (.seq rest)) :
    Ends cx j f f' (.seq (s :: rest)) := by
  intro hregular
  rw [eachPart_cons] at hregular
  rw [executeAll]
  have hs : EachPart Stmt.Regular [s] := eachPart_cons.mpr ⟨hregular.1, eachPart_nil⟩
  apply Triple.andThen (R := Agrees f₁)
  · apply (ih₁ hs).post
    rintro flow t ⟨hflow, ht⟩
    have hends (hne : flow ≠ .normal) : Allowed j flow ∧ ∃ g added, f.Extends g added ∧ Agrees g t ∧
        (flow = .normal ∨ (s :: rest).length ≤ 1 → g = f') := by
      refine ⟨hflow, f₁, added, hfirst, ht, ?_⟩
      rintro (rfl | hlength)
      · exact absurd rfl hne
      · exact hrest (List.eq_nil_of_length_eq_zero (by simpa using hlength))
    cases flow with
    | normal => exact ht
    | _ => exact hends (by simp)
  · apply (ih₂ hregular.2).post
    rintro flow t ⟨hflow, g, more, hg, ht, hnormal⟩
    refine ⟨hflow, g, _, hfirst.trans hg, ht, ?_⟩
    rintro (rfl | hlength)
    · exact hnormal (.inl rfl)
    · have hlength : rest.length = 0 := by simpa using hlength
      exact hnormal (.inr (by omega))

theorem runs_bodyOf {s : Stmt} (hregular : EachPart Stmt.Regular [s]) (ih : Ends cx j f f (.scope s.bodyOf)) :
    Runs f (asBody s.isBlock (execute cx s)) fun flow t => Allowed j flow ∧ Agrees f t := by
  rw [asBody_eq]
  exact ih (eachPart_bodyOf hregular)

theorem plainNames_of_mem {s : Stmt} {e : Expr} (hregular : EachPart Stmt.Regular [s]) (he : e ∈ s.exprs) :
    PlainNames e :=
  (eachPart_head hregular).exprs e he

theorem plainNames_for {span : Span} {init : Option Stmt} {c update : Option Expr} {body : Stmt}
    (hregular : EachPart Stmt.Regular [.forLoop span init c update body]) :
    (∀ e ∈ c, PlainNames e) ∧ ∀ e ∈ update, PlainNames e :=
  ⟨fun _ he => plainNames_of_mem hregular (by simp [Stmt.exprs, Option.mem_def.mp he]),
    fun _ he => plainNames_of_mem hregular (by simp [Stmt.exprs, Option.mem_def.mp he])⟩

theorem ends_zeroed {span : Span} {ty : TypeName} {name : String} {elem : Scalar}
    (hfree : f.isDeclared name = false) (hty : ty.scalar? = some elem) :
    Ends cx j f (f.pushNamed (.scalar elem) none name) (.stmt (.varDecl span ty name none)) := by
  intro hregular
  have hname := declarable (eachPart_head hregular) List.mem_cons_self rfl
  have hzero : (Value.zeroScalar elem).kind = (SlotKind.scalar elem).kind := Value.kind_zeroScalar elem
  unfold execute
  simp only [pure_bind]
  apply Triple.bind (runs_declareVariable hfree hname (checkDeclared_scalar hty) hzero
    (Value.wellKinded_of_kind hzero))
  exact fun _ => Triple.pure fun _ ht => ⟨trivial, ht⟩

theorem ends_arrayDecl {span : Span} {ty : TypeName} {name : String} {init : ArrayInit} {elem : Scalar}
    {len : Option Nat} (hfree : f.isDeclared name = false) (hty : ty.scalar? ≠ none ∨ ty = .var)
    (harray : ArrayCode limit f n d ty.scalar? init elem len c n' d') :
    Ends cx j f (f.pushNamed (.array elem) len name) (.stmt (.arrayDecl span ty 1 name init)) := by
  intro hregular
  have hstmt := eachPart_head hregular
  have hname := declarable hstmt (by cases init <;> exact List.mem_cons_self) rfl
  obtain ⟨s, hs⟩ : ∃ s, ty.scalar? = some s := by
    rcases hty with hty | rfl
    · exact Option.ne_none_iff_exists'.mp hty
    · exact absurd rfl hstmt.elements
  rw [hs] at harray
  have hsource (source : String) (hinit : init = .copyOf source) : Plain source := by
    subst hinit
    exact hstmt.ownNames _ (.tail _ List.mem_cons_self)
  have hexprs : ∀ e ∈ (Stmt.arrayDecl span .int 1 name init).exprs, PlainNames e := by
    intro e he
    apply hstmt.exprs
    cases init <;> exact he
  have hbuild : s = elem ∧ Sound _ (initialArray cx span init s 1) _ :=
    sound_initialArray harray hexprs hsource
  obtain ⟨rfl, hbuild⟩ := hbuild
  unfold execute
  apply Triple.bind (runs_declareArray hfree hname hs hbuild)
  exact fun _ => Triple.pure fun _ ht => ⟨trivial, ht⟩

theorem ends_whileLoop {span : Span} {cond : Expr} {body : Stmt} {len : Option Nat}
    {done next : Assembly.Label} {level : Int} (he : ExprCode f n none cond .bool len c n')
    (ih : Ends cx (j.inLoop done next level) f f (.scope body.bodyOf)) :
    Ends cx j f f (.stmt (.whileLoop span cond body)) := by
  intro hregular
  have htest : Runs f (roundTest cx (some cond)) fun _ t => Agrees f t := by
    apply ((sound_evaluate he (plainNames_of_mem hregular List.mem_cons_self)).suits_condition).runs.post
    exact fun _ _ ht => ht.2
  have hbody := runs_bodyOf (eachPart_while hregular) ih
  rw [execute_whileLoop]
  apply (runs_loop htest hbody (Triple.pure fun _ ht => ht) cx.fuel).post
  rintro _ t ⟨rfl, ht⟩
  exact ⟨trivial, ht⟩

theorem ends_forLoop {span : Span} {init : Option Stmt} {cond update : Option Expr} {body : Stmt}
    {f₁ : Frame} {added : List Slot} {done next : Assembly.Label} {level : Int} {n₁ n₂ n₃ n₄ : Nat}
    {c₁ c₂ : List Assembly.Line} (hadded : f.openScope.Extends f₁ added)
    (hcond : TestCode f₁ n₁ done cond c₁ n₂) (hupdate : UpdateCode f₁ n₃ update c₂ n₄)
    (ih₁ : Ends cx j f.openScope f₁ (.seq init.toList))
    (ih₂ : Ends cx (j.inLoop done next level) f₁ f₁ (.scope body.bodyOf)) :
    Ends cx j f f (.stmt (.forLoop span init cond update body)) := by
  intro hregular
  obtain ⟨hinit, hbody⟩ := eachPart_for hregular
  obtain ⟨htestNames, hupdateNames⟩ := plainNames_for hregular
  have htest : Runs f₁ (roundTest cx cond) fun _ t => Agrees f₁ t := runs_roundTest hcond htestNames
  have hround : Runs f₁ (roundUpdate cx update) fun _ t => Agrees f₁ t :=
    runs_roundUpdate hupdate hupdateNames
  have hloop : Runs f₁ (loop (roundTest cx cond) (asBody body.isBlock (execute cx body))
      (roundUpdate cx update) cx.fuel) fun flow t =>
        Allowed j flow ∧ ∃ g added, f.openScope.Extends g added ∧ Agrees g t := by
    apply (runs_loop htest (runs_bodyOf hbody ih₂) hround cx.fuel).post
    rintro _ t ⟨rfl, ht⟩
    exact ⟨trivial, f₁, added, hadded, ht⟩
  rw [execute_forLoop]
  apply runs_inScope
  cases init with
  | none =>
    have hstart := ih₁ hinit
    simp only [Option.toList_none, executeAll] at hstart
    have hframe : Runs f.openScope (pure Flow.normal) fun _ t => Agrees f₁ t := by
      apply hstart.post
      rintro flow t ⟨_, g, _, _, ht, hg⟩
      rwa [← hg (.inr (Nat.zero_le 1))]
    exact Triple.bind hframe fun _ => hloop
  | some first =>
    have hstart := ih₁ hinit
    rw [Option.toList_some, executeAll_singleton] at hstart
    have hframe : Runs f.openScope (execute cx first) fun _ t => Agrees f₁ t := by
      apply hstart.post
      rintro flow t ⟨_, g, _, _, ht, hg⟩
      rwa [← hg (.inr (Nat.le_refl 1))]
    exact Triple.bind hframe fun _ => hloop

theorem ends_forEach {span : Span} {declared : TypeName} {name iterable : String} {body : Stmt}
    {offset : Int} {slot : Slot} {elem : Scalar} {f₁ f₂ : Frame} {done next : Assembly.Label}
    {level : Int} (hslot : f.resolve? iterable = some (offset, slot)) (hkind : slot.kind = .array elem)
    (hdeclared : declared = .var ∨ declared.scalar? = some elem)
    (hf₁ : f₁ = (f.openScope.pushNamed slot.kind slot.length "#base").pushNamed .int none "#idx")
    (hf₂ : f₂ = f₁.openScope.pushNamed (.scalar elem) none name)
    (ih : Ends cx (j.inLoop done next level) f₂ f₂ (.scope body.bodyOf)) :
    Ends cx j f f (.stmt (.forEach span declared name iterable body)) := by
  intro hregular
  have hstmt := eachPart_head hregular
  have hname := declarable hstmt List.mem_cons_self rfl
  have hiterable : Plain iterable := hstmt.ownNames _ (.tail _ List.mem_cons_self)
  have hcheck : checkElement (.scalar elem) declared = .ok () := by
    unfold checkElement
    rcases hdeclared with rfl | hdeclared
    · rfl
    · simp [hdeclared]
  unfold execute
  apply (sound_readArray hiterable hslot hkind).bindRuns
  rintro ⟨_, items⟩ ⟨rfl, hwell⟩
  simp only [hcheck]
  have hbody := runs_bodyOf (eachPart_forEach hregular) ih
  subst hf₁
  subst hf₂
  exact runs_forValues (fun v hv => runs_round hname hv hbody) fun v hv => hwell.kind_of_mem hv

theorem mem_bodiesFrom {α : Type} {position? : Option Nat} {cases : List α} {default : Option α} {x : α}
    (h : x ∈ bodiesFrom position? cases default) : x ∈ cases ++ default.toList := by
  unfold bodiesFrom at h
  rcases List.mem_append.mp h with h | h
  · cases position? with
    | none => cases h
    | some i => exact List.mem_append.mpr (.inl (List.mem_of_mem_drop h))
  · exact List.mem_append.mpr (.inr h)

theorem runs_cases {cases : List SwitchCase} {labels : List Assembly.Label} {kind : SlotKind} {v : Value}
    (hlabels : labels.length = cases.length)
    (hcases : CasesCode kind ((cases.map SwitchCase.value).zip labels) c) (hv : v.kind = kind.kind) :
    Runs f (firstMatch v equalForSwitch (caseValues cx cases)) fun _ t => Agrees f t := by
  have hvalues : ((cases.map SwitchCase.value).zip labels).map Prod.fst = cases.map SwitchCase.value :=
    List.map_fst_zip (Nat.le_of_eq (by rw [hlabels, List.length_map]))
  apply runs_firstMatch
  intro e he
  rw [← hvalues] at he
  obtain ⟨entry, hentry, rfl⟩ := List.mem_map.mp he
  obtain ⟨w, hw, hkind, hcomputes⟩ := evaluate_of_casesCode hcases entry hentry
  exact ⟨w, hw, hkind, hcomputes v hv⟩

theorem ends_switch {span : Span} {subject : Expr} {cases : List SwitchCase}
    {default : Option (List Stmt)} {kind : SlotKind} {len : Option Nat} {t : Lowering.JumpTarget}
    {m n₁ n₂ : Nat} {c₁ c₂ : List Assembly.Line} (he : ExprCode f n none subject kind len c₁ n₁)
    (hcases : CasesCode kind
      ((cases.map SwitchCase.value).zip (Lowering.labelsFrom n₂ cases.length)) c₂)
    (ih : Ends cx (j.pushBreak t) f f (.bodies (switchBodies m cases default))) :
    Ends cx j f f (.stmt (.switch span subject cases default)) := by
  intro hregular
  unfold execute
  apply (sound_evaluate he (plainNames_of_mem hregular List.mem_cons_self)).suits_literal.bindRuns
  intro v hv
  apply Triple.bind (runs_cases (Lowering.length_labelsFrom _ _) hcases (hv.kind rfl))
  intro position?
  apply runs_fallThrough
  intro x hx
  have hx : x ∈ (cases.map SwitchCase.body ++ default.toList).map fun body =>
      inScope (executeAll cx body) := by
    rw [List.map_append, ← caseBodies_eq]
    cases default <;> exact mem_bodiesFrom hx
  obtain ⟨body, hbody, rfl⟩ := List.mem_map.mp hx
  have hregular := eachPart_switch hregular hbody
  rw [← snd_switchBodies, List.mem_map] at hbody
  obtain ⟨entry, hentry, rfl⟩ := hbody
  exact ih entry hentry hregular

/--
A part of a program that is lowered keeps to the frame when it runs.
-/
theorem StmtCode.ends (cx : Context) {p : Part} (h : StmtCode limit j f n d p c f' n' d') :
    Ends cx j f f' p := by
  induction h with
  | @declared j f _ _ _ span ty name e s _ _ hfree hty he =>
    intro hregular
    apply ends_varDecl hregular hfree (sound_evaluate he (plainNames_of_mem hregular List.mem_cons_self))
    intro v hv
    obtain ⟨w, hw⟩ := hv.coerce _ rfl
    refine ⟨w, ?_, Value.kind_of_coerce hw, hv.wellKinded.coerce hw⟩
    rw [checkDeclared_scalar hty]
    exact Prod.ext rfl hw
  | zeroed hfree hty => exact ends_zeroed hfree hty
  | inferred hfree he =>
    intro hregular
    apply ends_varDecl hregular hfree (sound_evaluate he (plainNames_of_mem hregular List.mem_cons_self))
    intro v hv
    exact ⟨v, checkDeclared_var (hv.kind rfl), hv.kind rfl, hv.wellKinded⟩
  | arrayDecl hfree helem harray => exact ends_arrayDecl hfree helem harray
  | expr he =>
    intro hregular
    unfold execute
    apply (sound_evaluate he (plainNames_of_mem hregular List.mem_cons_self)).bindRuns
    exact fun _ _ => Triple.pure fun _ ht => ⟨trivial, ht⟩
  | print hprint =>
    intro hregular
    unfold execute
    apply Triple.bind (runs_evaluateAll hprint (eachPart_head hregular).exprs)
    intro vs
    apply Triple.bind (R := fun _ t => Agrees _ t)
    · exact fun _ ht => ht
    · exact fun _ => Triple.pure fun _ ht => ⟨trivial, ht⟩
  | block hbody ih =>
    intro hregular
    rw [hbody.frame_scope]
    unfold execute
    exact ih (eachPart_block hregular)
  | ifElse he _ _ ih₁ ih₂ =>
    intro hregular
    unfold execute
    apply ((sound_evaluate he (plainNames_of_mem hregular List.mem_cons_self)).suits_condition).bindRuns
    intro b _
    split
    · exact runs_bodyOf (eachPart_whenTrue hregular) ih₁
    · exact runs_bodyOf (eachPart_whenFalse hregular) ih₂
  | ifThen he _ ih =>
    intro hregular
    unfold execute
    apply ((sound_evaluate he (plainNames_of_mem hregular List.mem_cons_self)).suits_condition).bindRuns
    intro b _
    split
    · exact runs_bodyOf (eachPart_whenTrue hregular) ih
    · exact Triple.pure fun _ ht => ⟨trivial, ht⟩
  | whileLoop he _ ih => exact ends_whileLoop he ih
  | forLoop hseq hcond _ hupdate ih₁ ih₂ =>
    obtain ⟨added, hadded⟩ := hseq.extends
    exact ends_forLoop hadded hcond hupdate ih₁ ih₂
  | forEach hslot hkind hdeclared hf₁ hf₂ _ ih => exact ends_forEach hslot hkind hdeclared hf₁ hf₂ ih
  | switch he hcases _ ih => exact ends_switch he hcases ih
  | breakStmt htarget =>
    intro _
    refine Triple.pure fun _ ht => ⟨?_, ht⟩
    exact List.ne_nil_of_mem (List.mem_of_mem_head? htarget)
  | continueStmt htarget =>
    intro _
    refine Triple.pure fun _ ht => ⟨?_, ht⟩
    exact List.ne_nil_of_mem (List.mem_of_mem_head? htarget)
  | nil =>
    intro _
    rw [executeAll]
    exact Triple.pure fun _ ht => ⟨trivial, _, _, .refl, ht, fun _ => rfl⟩
  | cons hs hrest ih₁ ih₂ =>
    obtain ⟨added, hadded⟩ := hs.extends
    apply ends_cons hadded _ ih₁ ih₂
    rintro rfl
    cases hrest with
    | nil => rfl
  | scope _ ih =>
    intro hregular
    apply runs_inScope
    apply (ih hregular).post
    rintro flow t ⟨hflow, g, added, hg, ht, _⟩
    exact ⟨hflow, g, added, hg, ht⟩
  | noBody => exact fun _ h => absurd h List.not_mem_nil
  | body _ _ ih₁ ih₂ =>
    intro entry hentry
    rcases List.mem_cons.mp hentry with rfl | hentry
    · exact ih₁
    · exact ih₂ entry hentry

end Arbor.Agreement
