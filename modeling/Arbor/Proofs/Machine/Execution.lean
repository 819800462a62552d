import Arbor.Proofs.Machine.Switches

/-!
This module contains the induction over the code of statements: the machine keeps up with the execution of every
statement on words, however it ends.
-/

namespace Arbor

namespace Evaluation

theorem eq_of_bind_pure {α β : Type} {x : Run α} {b c : β} {s s' : State}
    (h : (x >>= fun _ => pure b) s = .ok c s') : c = b := by
  change EStateM.bind x (fun _ => pure b) s = .ok c s' at h
  unfold EStateM.bind at h
  cases hx : x s with
  | ok a t =>
    rw [hx] at h
    cases h
    rfl
  | error e t =>
    rw [hx] at h
    cases h

theorem normal_of_isInitial {cx : Context} {init : Stmt} {flow : Flow} {s s' : State}
    (hinit : init.isInitial = true) (h : execute cx init s = .ok flow s') : flow = .normal := by
  cases init with
  | varDecl span ty name value =>
    unfold execute at h
    cases value with
    | none => exact eq_of_bind_pure h
    | some e =>
      simp only [← bind_assoc] at h
      exact eq_of_bind_pure h
  | expr =>
    unfold execute at h
    exact eq_of_bind_pure h
  | _ => cases hinit

theorem Triple.strengthen {α : Type} {P : State → Prop} {x : Run α} {Q : α → State → Prop} {R : α → Prop}
    {E : Halt → State → Prop} (hx : Triple P x Q E) (hR : ∀ s a s', x s = .ok a s' → R a) :
    Triple P x (fun a s => Q a s ∧ R a) E := by
  intro s hs
  have hx := hx s hs
  have hR := hR s
  revert hx hR
  cases x s with
  | ok a s' => exact fun hx hR => ⟨hx, hR a s' rfl⟩
  | error e s' => exact fun hx _ => hx

end Evaluation

namespace Machine.Process

open Agreement Assembly Evaluation
open Lowering (Frame Slot SlotKind JumpTargets Part StmtCode TestCode UpdateCode)

/--
What is to show of the code of a part of a program that lies between two lines. A list of statements that ends with a
signal may leave some of its variables undeclared. The bodies of a switch may be entered at each of their labels.
-/
def Follows (p : Process) (cx : Context) (kept : Nat → Word) (j : JumpTargets) (f f' : Frame) (k k' : Nat) :
    Part → Prop
  | .stmt s => EachPart (fun s => s.onWords = true) [s] →
    Triple (p.At k (p.Holds f kept [])) (execute cx s) (p.Ended j f' kept k' f'.bytes) p.Halts
  | .seq body => EachPart (fun s => s.onWords = true) body →
    Triple (p.At k (p.Holds f kept [])) (executeAll cx body) (fun flow s =>
      ∃ g added, f.Extends g added ∧ (flow = .normal → g = f') ∧ p.Ended j g kept k' f'.bytes flow s) p.Halts
  | .scope body => EachPart (fun s => s.onWords = true) body →
    Triple (p.At k (p.Holds f kept [])) (inScope (executeAll cx body)) (p.Ended j f kept k' f.bytes) p.Halts
  | .bodies bodies => (∀ entry ∈ bodies, EachPart (fun s => s.onWords = true) entry.2) →
    ∀ done, p.lines[k']? = some (.label done) → j.break? = some ⟨done, f.bytes⟩ → ∀ i, ∃ m,
      p.lines[m]? = some (.label (((bodies.drop i).map Prod.fst).headD done)) ∧ (i = 0 → m = k) ∧
      Triple (p.At m (p.Holds f kept []))
        (fallThrough ((bodies.drop i).map fun entry => inScope (executeAll cx entry.2)))
        (p.Ended j.popBreak f kept k' f.bytes) p.Halts

section Parts

variable {p : Process} {cx : Context} {kept : Nat → Word} {j : JumpTargets} {f f₁ f' : Frame}
  {k k' k₁ k₂ k₃ : Nat} {c c₁ c₂ c₃ c₄ : List Line} {span : Span} {added : List Slot}

/-! Tests and updates of loops -/

theorem follows_roundTest {cond : Option Expr} {n n' m : Nat} {done : Label}
    (h : TestCode f n done cond c n') (hwords : ∀ e ∈ cond, e.onWords = true) (hc : CodeAt p.lines k c k')
    (hm : p.lines[m]? = some (.label done)) :
    Triple (p.At k (p.Holds f kept [])) (roundTest cx cond)
      (fun b => p.At (if b then k' else m) (p.Holds f kept [])) p.Halts := by
  cases h with
  | none =>
    cases hc
    exact Triple.pure fun _ hs => hs
  | some he =>
    rw [List.append_assoc] at hc
    obtain ⟨k₁, hexpr, htest⟩ := codeAt_append.mp hc
    exact follows_beqz (follows_evaluate he (hwords _ rfl) (by simp) List.not_mem_nil hexpr) htest hm

theorem follows_roundUpdate {update : Option Expr} {n n' : Nat} (h : UpdateCode f n update c n')
    (hwords : ∀ e ∈ update, e.onWords = true) (hc : CodeAt p.lines k c k') :
    Triple (p.At k (p.Holds f kept [])) (roundUpdate cx update) (fun _ => p.At k' (p.Holds f kept []))
      p.Halts := by
  cases h with
  | none =>
    cases hc
    exact Triple.pure fun _ hs => hs
  | some he =>
    obtain ⟨k₁, hexpr, hrelease⟩ := codeAt_append.mp hc
    apply Triple.bind (follows_evaluate he (hwords _ rfl) (by simp) List.not_mem_nil hexpr)
    exact fun v => Triple.pure fun _ hs => hs.dropped hrelease

/-! Lists of statements -/

theorem follows_cons {s : Stmt} {rest : List Stmt} (hfirst : f.Extends f₁ added)
    (ih₁ : p.Follows cx kept j f f₁ k k₁ (.stmt s)) (ih₂ : p.Follows cx kept j f₁ f' k₁ k' (.seq rest)) :
    p.Follows cx kept j f f' k k' (.seq (s :: rest)) := by
  intro hwords
  rw [eachPart_cons] at hwords
  have hs : EachPart (fun s => s.onWords = true) [s] := eachPart_cons.mpr ⟨hwords.1, eachPart_nil⟩
  rw [executeAll]
  apply Triple.andThen (R := p.At k₁ (p.Holds f₁ kept []))
  · apply (ih₁ hs).post
    intro flow s hended
    -- After a signal the rest is skipped, and its declarations with it.
    have hsignal (hflow : flow ≠ .normal) : ∃ g added, f.Extends g added ∧ (flow = .normal → g = f') ∧
        p.Ended j g kept k' f'.bytes flow s :=
      ⟨f₁, added, hfirst, fun h => absurd h hflow, hended.signal hflow⟩
    cases flow with
    | normal => exact hended.holds
    | _ => exact hsignal (by simp)
  · apply (ih₂ hwords.2).post
    rintro flow s ⟨g, more, hmore, hnormal, hended⟩
    exact ⟨g, _, hfirst.trans hmore, hnormal, hended⟩

/-! Statements -/

theorem varDecl_onWords {ty : TypeName} {name : String} {init : Option Expr}
    (h : EachPart (fun s => s.onWords = true) [.varDecl span ty name init]) :
    (ty = .int ∨ ty = .bool ∨ ty = .var) ∧ Environment.embedded.lookup name = none ∧
      ∀ e ∈ init, e.onWords = true := by
  have h := eachPart_head h
  simp only [Stmt.onWords, Bool.and_eq_true, Bool.or_eq_true, beq_iff_eq, Option.isNone_iff_eq_none, or_assoc,
    Option.all_eq_true] at h
  exact ⟨h.1.1, lookup_embedded_eq_none h.1.2, h.2⟩

theorem follows_whileLoop {cond : Expr} {body : Stmt} {n m : Nat} {len : Option Nat}
    (hcond : ∀ {k k'}, CodeAt p.lines k c₁ k' → Triple (p.At k (p.Holds f kept [])) (evaluate cx cond)
      (p.Pushed f kept [] .bool len k') p.Halts)
    (hbody : ∀ {k k'}, CodeAt p.lines k c₂ k' → Triple (p.At k (p.Holds f kept []))
      (inScope (executeAll cx body.bodyOf)) (p.Ended (j.inLoop (.numbered m) (.numbered n) f.bytes) f kept k' f.bytes)
      p.Halts)
    (hc : CodeAt p.lines k ([.label (.numbered n)] ++ c₁ ++ pop .t0 ++ [.beqz .t0 (.numbered m)] ++ c₂
      ++ [.j (.numbered n), .label (.numbered m)]) k') :
    Triple (p.At k (p.Holds f kept [])) (execute cx (.whileLoop span cond body)) (p.Ended j f kept k' f.bytes)
      p.Halts := by
  have hc : CodeAt p.lines k (.label (.numbered n) :: (c₁ ++ ((pop .t0 ++ [.beqz .t0 (.numbered m)]) ++ (c₂ ++
      [.j (.numbered n), .label (.numbered m)])))) k' := by
    simpa only [List.append_assoc, List.cons_append, List.nil_append] using hc
  obtain ⟨htop, hc⟩ := codeAt_label.mp hc
  obtain ⟨k₁, hc₁, hc⟩ := codeAt_append.mp hc
  obtain ⟨k₂, htest, hc⟩ := codeAt_append.mp hc
  obtain ⟨k₃, hc₂, hc⟩ := codeAt_append.mp hc
  simp only [codeAt_instruction, codeAt_label, codeAt_nil] at hc
  obtain ⟨hj, hdone, rfl⟩ := hc
  rw [execute_whileLoop]
  have hround : Triple (p.At k (p.Holds f kept [])) (roundTest cx (some cond))
      (fun b => p.At (if b then k₂ else k₃ + 1) (p.Holds f kept [])) p.Halts := by
    apply (follows_beqz (hcond hc₁) htest hdone).pre
    rintro s ⟨core, hg, h⟩
    exact ⟨core, hg.label htop, h⟩
  apply (follows_loop hround (follows_bodyOf (hbody hc₂)) (fun core hg => hg.jump hj htop)
    (Triple.pure fun _ hs => hs) hdone htop cx.fuel).post
  rintro _ s ⟨rfl, core, hg, h⟩
  exact At.ended ⟨core, hg.label hdone, h⟩

theorem follows_forLoop {init : Option Stmt} {cond update : Option Expr} {body : Stmt}
    {n m n₁ n₂ n₃ n₄ : Nat} {next : Label} (hadded : f.openScope.Extends f₁ added)
    (hwords : EachPart (fun s => s.onWords = true) [.forLoop span init cond update body])
    (hcond : TestCode f₁ n₁ (.numbered m) cond c₂ n₂) (hupdate : UpdateCode f₁ n₃ update c₄ n₄)
    (hinit : ∀ {k k'}, CodeAt p.lines k c₁ k' → p.Follows cx kept j f.openScope f₁ k k' (.seq init.toList))
    (hbody : ∀ {k k'}, CodeAt p.lines k c₃ k' → p.Follows cx kept (j.inLoop (.numbered m) next f₁.bytes) f₁ f₁
      k k' (.scope body.bodyOf))
    (hc : CodeAt p.lines k (c₁ ++ [.label (.numbered n)] ++ c₂ ++ c₃ ++ [.label next] ++ c₄
      ++ [.j (.numbered n), .label (.numbered m)] ++ release (f₁.bytes - f.bytes)) k') :
    Triple (p.At k (p.Holds f kept [])) (execute cx (.forLoop span init cond update body))
      (p.Ended j f kept k' f.bytes) p.Halts := by
  have hc : CodeAt p.lines k (c₁ ++ (.label (.numbered n) :: (c₂ ++ (c₃ ++ (.label next :: (c₄ ++
      (.j (.numbered n) :: .label (.numbered m) :: release (f₁.bytes - f.bytes)))))))) k' := by
    simpa only [List.append_assoc, List.cons_append, List.nil_append] using hc
  obtain ⟨k₁, hc₁, hc⟩ := codeAt_append.mp hc
  obtain ⟨htop, hc⟩ := codeAt_label.mp hc
  obtain ⟨k₂, hc₂, hc⟩ := codeAt_append.mp hc
  obtain ⟨k₃, hc₃, hc⟩ := codeAt_append.mp hc
  obtain ⟨hnext, hc⟩ := codeAt_label.mp hc
  obtain ⟨k₄, hc₄, hc⟩ := codeAt_append.mp hc
  obtain ⟨hj, hc⟩ := codeAt_instruction.mp hc
  obtain ⟨hdone, hrelease⟩ := codeAt_label.mp hc
  obtain ⟨hwordsInit, hwordsBody⟩ := eachPart_for hwords
  have hstmt := eachPart_head hwords
  simp only [Stmt.onWords, Bool.and_eq_true, Option.all_eq_true] at hstmt
  have hle : f.bytes ≤ f₁.bytes := hadded.bytes_le
  have htest : Triple (p.At k₁ (p.Holds f₁ kept [])) (roundTest cx cond)
      (fun b => p.At (if b then k₂ else k₄ + 1) (p.Holds f₁ kept [])) p.Halts := by
    apply (follows_roundTest hcond hstmt.1.2 hc₂ hdone).pre
    rintro s ⟨core, hg, h⟩
    exact ⟨core, hg.label htop, h⟩
  have hround : Triple (p.At k₃ (p.Holds f₁ kept [])) (roundUpdate cx update)
      (fun _ => p.At k₁ (p.Holds f₁ kept [])) p.Halts := by
    apply (follows_roundUpdate hupdate hstmt.2 hc₄).conseq
    · rintro s ⟨core, hg, h⟩
      exact ⟨core, hg.label hnext, h⟩
    · rintro _ s ⟨core, hg, h⟩
      exact ⟨core, hg.jump hj htop, h⟩
    · exact fun _ _ h => h
  have hloop : Triple (p.At k₁ (p.Holds f₁ kept [])) (loop (roundTest cx cond)
      (asBody body.isBlock (execute cx body)) (roundUpdate cx update) cx.fuel)
      (fun flow s => ∃ g added, f.openScope.Extends g added ∧ p.Ended j g kept k' f.bytes flow s) p.Halts := by
    apply (follows_loop htest (follows_bodyOf (hbody hc₃ (eachPart_bodyOf hwordsBody))) (fun _ hg => hg) hround
      hdone hnext cx.fuel).post
    rintro _ s ⟨rfl, core, hg, h⟩
    have hended : p.Ended j f₁ kept (k₄ + 1 + 1) f₁.bytes .normal s := At.ended ⟨core, hg.label hdone, h⟩
    exact ⟨f₁, added, hadded, hended.released hrelease hle⟩
  rw [execute_forLoop]
  apply follows_inScope
  have hstart := hinit hc₁ hwordsInit
  -- The declaration before the loop is code of a list of statements, but is executed on its own.
  cases init with
  | none =>
    simp only [Option.toList_none, executeAll] at hstart
    apply hloop.pre
    intro s hs
    obtain ⟨g, _, -, hg, hended⟩ := hstart s hs
    obtain rfl := hg rfl
    exact hended.holds
  | some first =>
    rw [Option.toList_some, executeAll_singleton] at hstart
    have hframe : Triple (p.At k (p.Holds f.openScope kept [])) (execute cx first)
        (fun _ => p.At k₁ (p.Holds f₁ kept [])) p.Halts := by
      apply (hstart.strengthen fun s flow s' => normal_of_isInitial (hstmt.1.1 _ rfl)).post
      rintro _ s ⟨⟨g, _, -, hg, hended⟩, rfl⟩
      obtain rfl := hg rfl
      exact hended.holds
    exact Triple.bind hframe fun _ => hloop

theorem follows_ifElse {cond : Expr} {whenTrue whenFalse : Stmt} {n m : Nat} {len : Option Nat}
    (hcond : ∀ {k k'}, CodeAt p.lines k c₁ k' → Triple (p.At k (p.Holds f kept [])) (evaluate cx cond)
      (p.Pushed f kept [] .bool len k') p.Halts)
    (htrue : ∀ {k k'}, CodeAt p.lines k c₂ k' → Triple (p.At k (p.Holds f kept []))
      (inScope (executeAll cx whenTrue.bodyOf)) (p.Ended j f kept k' f.bytes) p.Halts)
    (hfalse : ∀ {k k'}, CodeAt p.lines k c₃ k' → Triple (p.At k (p.Holds f kept []))
      (inScope (executeAll cx whenFalse.bodyOf)) (p.Ended j f kept k' f.bytes) p.Halts)
    (hc : CodeAt p.lines k (c₁ ++ pop .t0 ++ [.beqz .t0 (.numbered m)] ++ c₂
      ++ [.j (.numbered n), .label (.numbered m)] ++ c₃ ++ [.label (.numbered n)]) k') :
    Triple (p.At k (p.Holds f kept [])) (execute cx (.conditional span cond whenTrue (some whenFalse)))
      (p.Ended j f kept k' f.bytes) p.Halts := by
  have hc : CodeAt p.lines k (c₁ ++ ((pop .t0 ++ [.beqz .t0 (.numbered m)]) ++ (c₂ ++
      (.j (.numbered n) :: .label (.numbered m) :: (c₃ ++ [.label (.numbered n)]))))) k' := by
    simpa only [List.append_assoc, List.cons_append, List.nil_append] using hc
  obtain ⟨k₁, hc₁, hc⟩ := codeAt_append.mp hc
  obtain ⟨k₂, htest, hc⟩ := codeAt_append.mp hc
  obtain ⟨k₃, hc₂, hc⟩ := codeAt_append.mp hc
  obtain ⟨hj, hc⟩ := codeAt_instruction.mp hc
  obtain ⟨helse, hc⟩ := codeAt_label.mp hc
  obtain ⟨k₄, hc₃, hc⟩ := codeAt_append.mp hc
  obtain ⟨hend, rfl⟩ := codeAt_label.mp hc
  unfold execute
  apply follows_conditional (hcond hc₁) htest helse
  · apply (htrue hc₂).post
    exact fun _ _ hended => hended.goOn fun _ hg => (hg.jump hj hend).label hend
  · apply (follows_bodyOf (hfalse hc₃)).post
    exact fun _ _ hended => hended.goOn fun _ hg => hg.label hend

theorem follows_ifThen {cond : Expr} {whenTrue : Stmt} {n : Nat} {len : Option Nat}
    (hcond : ∀ {k k'}, CodeAt p.lines k c₁ k' → Triple (p.At k (p.Holds f kept [])) (evaluate cx cond)
      (p.Pushed f kept [] .bool len k') p.Halts)
    (htrue : ∀ {k k'}, CodeAt p.lines k c₂ k' → Triple (p.At k (p.Holds f kept []))
      (inScope (executeAll cx whenTrue.bodyOf)) (p.Ended j f kept k' f.bytes) p.Halts)
    (hc : CodeAt p.lines k (c₁ ++ pop .t0 ++ [.beqz .t0 (.numbered n)] ++ c₂ ++ [.label (.numbered n)]) k') :
    Triple (p.At k (p.Holds f kept [])) (execute cx (.conditional span cond whenTrue none))
      (p.Ended j f kept k' f.bytes) p.Halts := by
  have hc : CodeAt p.lines k (c₁ ++ ((pop .t0 ++ [.beqz .t0 (.numbered n)]) ++ (c₂ ++
      [.label (.numbered n)]))) k' := by
    simpa only [List.append_assoc, List.cons_append, List.nil_append] using hc
  obtain ⟨k₁, hc₁, hc⟩ := codeAt_append.mp hc
  obtain ⟨k₂, htest, hc⟩ := codeAt_append.mp hc
  obtain ⟨k₃, hc₂, hc⟩ := codeAt_append.mp hc
  obtain ⟨hend, rfl⟩ := codeAt_label.mp hc
  unfold execute
  apply follows_conditional (hcond hc₁) htest hend
  · apply (htrue hc₂).post
    exact fun _ _ hended => hended.goOn fun _ hg => hg.label hend
  · exact Triple.pure fun _ hs => hs.ended

theorem follows_jump {t : Lowering.JumpTarget} {flow : Flow} {level : Int} {m : Nat}
    (hle : t.level ≤ f.bytes) (hm : p.lines[m]? = some (.label t.label))
    (hleads : p.Leads j k' level flow m t.level)
    (hc : CodeAt p.lines k (release (f.bytes - t.level) ++ [.j t.label]) k') :
    Triple (p.At k (p.Holds f kept [])) (pure flow) (p.Ended j f kept k' level) p.Halts := by
  obtain ⟨k₁, hrelease, hj⟩ := codeAt_append.mp hc
  obtain ⟨hj, -⟩ := codeAt_instruction.mp hj
  apply Triple.pure
  rintro s ⟨core, hg, h⟩
  have hreleased := hg.release hrelease h.sp hle
  exact ⟨m, t.level, hleads, _, hreleased.jump hj hm, h.toStands.set, Core.get_set (by decide)⟩

theorem exists_jumpTarget {t : Lowering.JumpTarget} {level : Int}
    (hc : CodeAt p.lines k (release level ++ [.j t.label]) k') :
    ∃ m : Nat, p.lines[m]? = some (.label t.label) := by
  obtain ⟨k₁, -, hj⟩ := codeAt_append.mp hc
  exact exists_target (codeAt_instruction.mp hj).1 rfl

/--
The bodies of a switch are followed from wherever its cases lead, and a jump out of them ends it.
-/
theorem follows_switchStmt {subject : Expr} {cases : List SwitchCase} {default : Option (List Stmt)}
    {kind : SlotKind} {len : Option Nat} {n : Nat}
    (hsubject : ∀ {k k'}, CodeAt p.lines k c₁ k' → Triple (p.At k (p.Holds f kept [])) (evaluate cx subject)
      (p.Pushed f kept [] kind len k') p.Halts)
    (hcases : Lowering.CasesCode kind
      ((cases.map SwitchCase.value).zip (Lowering.labelsFrom (n + 1) cases.length)) c₂)
    (hbodies : ∀ {k k'}, CodeAt p.lines k c₃ k' → p.Follows cx kept (j.pushBreak ⟨.numbered n, f.bytes⟩) f f k k'
      (.bodies (Lowering.switchBodies (n + 1) cases default)))
    (hc : CodeAt p.lines k (c₁ ++ c₂ ++ [.j (Lowering.switchDefault (n + 1) cases default (.numbered n))] ++ c₃
      ++ [.label (.numbered n)]) k') :
    p.Follows cx kept j f f k k' (.stmt (.switch span subject cases default)) := by
  intro hwords
  have hc : CodeAt p.lines k (c₁ ++ (c₂ ++ (.j (Lowering.switchDefault (n + 1) cases default (.numbered n)) ::
      (c₃ ++ [.label (.numbered n)])))) k' := by
    simpa only [List.append_assoc, List.cons_append, List.nil_append] using hc
  obtain ⟨k₁, hc₁, hc⟩ := codeAt_append.mp hc
  obtain ⟨k₂, hc₂, hc⟩ := codeAt_append.mp hc
  obtain ⟨hj, hc⟩ := codeAt_instruction.mp hc
  obtain ⟨k₃, hc₃, hc⟩ := codeAt_append.mp hc
  obtain ⟨hdone, rfl⟩ := codeAt_label.mp hc
  have hentries : ∀ entry ∈ Lowering.switchBodies (n + 1) cases default,
      EachPart (fun s => s.onWords = true) entry.2 := by
    intro entry hentry
    apply eachPart_switch hwords
    rw [← snd_switchBodies]
    exact List.mem_map_of_mem hentry
  apply follows_switch (hsubject hc₁) hcases hc₂ hj
  intro i
  obtain ⟨m, hm, -, hrun⟩ := hbodies hc₃ hentries _ hdone rfl i
  exact ⟨m, hm, hrun.post fun _ _ hended => hended.goOn fun _ hg => hg.label hdone⟩

theorem follows_firstBody {label : Label} {body : List Stmt} {rest : List (Label × List Stmt)}
    (hbody : ∀ {k k'}, CodeAt p.lines k c₁ k' → p.Follows cx kept j f f k k' (.scope body))
    (hrest : ∀ {k}, CodeAt p.lines k c₂ k' → p.Follows cx kept j f f k k' (.bodies rest))
    (hc : CodeAt p.lines k (.label label :: c₁ ++ c₂) k') :
    p.Follows cx kept j f f k k' (.bodies ((label, body) :: rest)) := by
  intro hwords done hdone hj i
  rw [List.forall_mem_cons] at hwords
  obtain ⟨k₁, hc₁, hc₂⟩ := codeAt_append.mp hc
  obtain ⟨hlabel, hc₁⟩ := codeAt_label.mp hc₁
  have hothers := hrest hc₂ hwords.2 done hdone hj
  cases i with
  | zero =>
    obtain ⟨m, -, hm, hrun⟩ := hothers 0
    obtain rfl := hm rfl
    refine ⟨k, hlabel, fun _ => rfl, ?_⟩
    apply follows_fallThrough hdone hj _ hrun
    apply (hbody hc₁ hwords.1).pre
    rintro s ⟨core, hg, h⟩
    exact ⟨core, hg.label hlabel, h⟩
  | succ i =>
    obtain ⟨m, hm, -, hrun⟩ := hothers i
    exact ⟨m, hm, (Nat.succ_ne_zero i · |>.elim), hrun⟩

end Parts

/--
The code of a part of a program keeps up with its execution.
-/
theorem follows_part {p : Process} {kept : Nat → Word} {limit n n' : Nat} {j : JumpTargets} {f f' : Frame}
    {d d' : DataSection} {c : List Line} {part : Part} (cx : Context)
    (h : StmtCode limit j f n d part c f' n' d') (hbelow : Below j f) {k k' : Nat}
    (hc : CodeAt p.lines k c k') : p.Follows cx kept j f f' k k' part := by
  -- The length of a run is bounded inside the rule for loops, so the induction is on the code alone.
  induction h generalizing k k' with
  | @declared _ _ _ _ _ _ _ _ _ s _ _ hfree hty he =>
    intro hwords
    obtain ⟨hscalar, hname, hinit⟩ := varDecl_onWords hwords
    have hwant : some (SlotKind.scalar s) ≠ some .float := by
      rintro ⟨⟩
      rcases hscalar with rfl | rfl | rfl <;> cases hty
    apply follows_varDecl hfree hname (follows_evaluate he (hinit _ rfl) hwant List.not_mem_nil hc)
    intro v hv
    rw [checkDeclared_scalar hty]
    exact Prod.ext rfl (coerce_of_kind hv.kind_eq)
  | @zeroed _ _ _ _ _ _ _ s hfree hty =>
    intro hwords
    obtain ⟨hscalar, hname, -⟩ := varDecl_onWords hwords
    have hzero : HasWord (.scalar s) (.zeroScalar s) := by
      rcases hscalar with rfl | rfl | rfl <;> cases hty
      · exact .int 0
      · exact .bool false
    exact follows_zeroed hfree hname hty hzero hc
  | inferred hfree he =>
    intro hwords
    obtain ⟨-, hname, hinit⟩ := varDecl_onWords hwords
    apply follows_varDecl hfree hname (follows_evaluate he (hinit _ rfl) (by simp) List.not_mem_nil hc)
    exact fun v hv => checkDeclared_var hv.kind_eq
  | expr he =>
    intro hwords
    have hexpr := eachPart_head hwords
    obtain ⟨k₁, hc₁, hrelease⟩ := codeAt_append.mp hc
    unfold execute
    apply Triple.bind (follows_evaluate he hexpr (by simp) List.not_mem_nil hc₁)
    exact fun v => Triple.pure fun _ hs => (hs.dropped hrelease).ended
  | print hprint =>
    intro hwords
    exact follows_print hprint (List.all_eq_true.mp (eachPart_head hwords)) hc
  | block hbody ih =>
    intro hwords
    rw [hbody.frame_scope]
    unfold execute
    exact ih hbelow hc (eachPart_block hwords)
  | ifElse he _ _ ih₁ ih₂ =>
    intro hwords
    exact follows_ifElse (follows_evaluate he (eachPart_head hwords) (by simp) List.not_mem_nil)
      (fun hc₂ => ih₁ hbelow hc₂ (eachPart_bodyOf (eachPart_whenTrue hwords)))
      (fun hc₃ => ih₂ hbelow hc₃ (eachPart_bodyOf (eachPart_whenFalse hwords))) hc
  | ifThen he _ ih =>
    intro hwords
    exact follows_ifThen (follows_evaluate he (eachPart_head hwords) (by simp) List.not_mem_nil)
      (fun hc₂ => ih hbelow hc₂ (eachPart_bodyOf (eachPart_whenTrue hwords))) hc
  | whileLoop he _ ih =>
    intro hwords
    exact follows_whileLoop (follows_evaluate he (eachPart_head hwords) (by simp) List.not_mem_nil)
      (fun hc₂ => ih below_inLoop hc₂ (eachPart_bodyOf (eachPart_while hwords))) hc
  | forLoop hseq hcond _ hupdate ih₁ ih₂ =>
    intro hwords
    obtain ⟨added, hadded⟩ := hseq.extends
    exact follows_forLoop hadded hwords hcond hupdate (ih₁ hbelow) (ih₂ below_inLoop) hc
  | switch he hcases _ ih =>
    intro hwords
    exact follows_switchStmt (follows_evaluate he (eachPart_head hwords) (by simp) List.not_mem_nil) hcases
      (ih (hbelow.pushBreak (Int.le_refl _))) hc hwords
  | arrayDecl | forEach => exact fun hwords => absurd (eachPart_head hwords) (by simp [Stmt.onWords])
  | breakStmt htarget =>
    intro _
    obtain ⟨m, hm⟩ := exists_jumpTarget hc
    unfold execute
    exact follows_jump (hbelow _ (.inl htarget)) hm (.breaking htarget hm) hc
  | continueStmt htarget =>
    intro _
    obtain ⟨m, hm⟩ := exists_jumpTarget hc
    unfold execute
    exact follows_jump (hbelow _ (.inr htarget)) hm (.continuing htarget hm) hc
  | nil =>
    intro _
    cases hc
    rw [executeAll]
    exact Triple.pure fun _ hs => ⟨_, _, .refl, fun _ => rfl, hs.ended⟩
  | cons hs _ ih₁ ih₂ =>
    obtain ⟨k₁, hc₁, hc₂⟩ := codeAt_append.mp hc
    obtain ⟨added, hadded⟩ := hs.extends
    exact follows_cons hadded (ih₁ hbelow hc₁) (ih₂ (hbelow.mono hadded.bytes_le) hc₂)
  | scope hseq ih =>
    intro hwords
    obtain ⟨k₁, hc₁, hrelease⟩ := codeAt_append.mp hc
    have hle := hseq.bytes_le
    apply follows_inScope
    apply (ih hbelow hc₁ hwords).post
    rintro flow s ⟨g, added, hadded, -, hended⟩
    exact ⟨g, added, hadded, hended.released hrelease hle⟩
  | noBody =>
    intro _ done hdone _ i
    cases hc
    rw [List.drop_nil]
    exact ⟨k, hdone, fun _ => rfl, Triple.pure fun _ hs => hs.ended⟩
  | body _ _ ih₁ ih₂ => exact follows_firstBody (ih₁ hbelow) (ih₂ hbelow) hc

end Machine.Process

end Arbor
