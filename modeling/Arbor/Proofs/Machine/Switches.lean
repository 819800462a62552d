import Arbor.Proofs.Evaluation.Moment
import Arbor.Proofs.Machine.Statements

/-!
This module contains the code of switches over words. It compares the subject with one case after the other, jumps to
the body of the first one that is equal, and falls through the bodies from there on.
-/

namespace Arbor

namespace Evaluation

theorem literal_pure {span : Span} {v : Value} (hv : v.isLiteral = true) :
    literal span (pure v) = pure v := by
  cases v <;> first | rfl | cases hv

theorem equalForSwitch_eq {kind : Lowering.SlotKind} {span : Span} {v w : Value} (hv : Machine.HasWord kind v)
    (hw : Machine.HasWord kind w) :
    equalForSwitch span v w = pure (Machine.wordOf v == Machine.wordOf w) := by
  unfold equalForSwitch
  rw [Machine.binary_eq hv hw]
  rfl

end Evaluation

namespace Machine.Process

open Agreement Assembly Evaluation
open Lowering (Frame SlotKind JumpTargets CaseWord WordsCode CasesCode switchBodies switchDefault labelsFrom)

/-! Cases -/

theorem evaluate_caseWord (cx : Context) {kind : SlotKind} {e : Expr} {word : Int} (h : CaseWord kind e word)
    (hkind : kind = .int ∨ kind = .bool) :
    ∃ v, evaluate cx e = pure v ∧ HasWord kind v ∧ wordOf v = .ofInt 32 word := by
  have hint {n : Int64} {word : Int} (hword : Lowering.intWord n = .ok word) :
      word = n.toInt ∧ Value.ofLiteral (.int n) = .ok (.int (Int32.ofInt n.toInt)) := by
    unfold Lowering.intWord at hword
    split at hword
    · next hrange =>
      cases hword
      exact ⟨rfl, by rw [Value.ofLiteral, if_pos hrange]⟩
    · cases hword
  induction h with
  | grouping _ ih =>
    rw [evaluate]
    exact ih hkind
  | int hword =>
    obtain ⟨rfl, hvalue⟩ := hint hword
    exact ⟨_, by rw [evaluate, hvalue, liftAt], .int _, Int32.toBitVec_ofInt _⟩
  | char => rcases hkind with h | h <;> cases h
  | bool span b => exact ⟨.bool b, rfl, .bool b, rfl⟩
  | @negative _ _ n _ hword =>
    obtain ⟨rfl, hvalue⟩ := hint hword
    refine ⟨.int (-Int32.ofInt n.toInt), ?_, .int _, ?_⟩
    · rw [evaluate, evaluate, hvalue]
      rfl
    · rw [wordOf, Int32.toBitVec_neg, Int32.toBitVec_ofInt, BitVec.ofInt_neg]

def Matched (p : Process) (labels : List Label) (k' : Nat) : Option Nat → Nat → Prop
  | some i, m => ∃ l, labels[i]? = some l ∧ p.lines[m]? = some (.label l)
  | none, m => m = k'

section Pieces

variable {p : Process} {f : Frame} {kept : Nat → Word} {k k' m n : Nat} {kind : SlotKind}
  {len : Option Nat} {v w : Value} {s : State} {cx : Context} {c : List Line} {cases : List SwitchCase}
  {default : Option (List Stmt)}

theorem follows_comparison {word : Int} {l : Label} (hv : HasWord kind v) (hw : HasWord kind w)
    (hword : wordOf w = .ofInt 32 word) (hc : CodeAt p.lines k [.li .t1 word, .beq .t0 .t1 l] k')
    (hm : p.lines[m]? = some (.label l)) {span : Span} :
    Triple (p.At k fun s core => p.Holds f kept [] s core ∧ core.get .t0 = wordOf v)
      (equalForSwitch span v w)
      (fun b => p.At (if b then m else k') fun s core => p.Holds f kept [] s core ∧ core.get .t0 = wordOf v)
      p.Halts := by
  simp only [codeAt_instruction, codeAt_nil] at hc
  obtain ⟨hli, hbeq, rfl⟩ := hc
  rw [equalForSwitch_eq hv hw]
  apply Triple.pure
  rintro s ⟨core, hg, h, ht₀⟩
  have hloaded : p.Gets (k + 1) (core.set .t1 (.ofInt 32 word)) :=
    Reaches.step hg (step_instruction hli rfl)
  have hbranch := hloaded.branch hbeq hm
  rw [Core.get_set_of_ne (by decide), Core.get_set (by decide), ht₀, ← hword] at hbranch
  have ht₀ : (core.set .t1 (.ofInt 32 word)).get .t0 = wordOf v := (Core.get_set_of_ne (by decide)).trans ht₀
  exact ⟨_, hbranch, h.set (by decide), ht₀⟩

theorem follows_firstMatch {labels : List Label}
    (hcode : WordsCode kind ((cases.map SwitchCase.value).zip labels) c)
    (hlabels : labels.length = cases.length) (hkind : kind = .int ∨ kind = .bool) (hv : HasWord kind v)
    (hc : CodeAt p.lines k c k') :
    Triple (p.At k fun s core => p.Holds f kept [] s core ∧ core.get .t0 = wordOf v)
      (firstMatch v equalForSwitch (caseValues cx cases))
      (fun i? s => ∃ m, p.Matched labels k' i? m ∧ p.At m (p.Holds f kept []) s) p.Halts := by
  induction cases generalizing labels c k with
  | nil =>
    cases hcode
    cases hc
    apply Triple.pure
    rintro s ⟨core, hg, h, -⟩
    exact ⟨_, rfl, core, hg, h⟩
  | cons first rest ih =>
    obtain ⟨span, value, body⟩ := first
    cases labels with
    | nil => cases hlabels
    | cons l labels =>
      cases hcode with
      | cons hword hrest =>
        obtain ⟨k₁, hcompare, hc⟩ := codeAt_append.mp hc
        obtain ⟨m, hm⟩ : ∃ m : Nat, p.lines[m]? = some (.label l) := by
          have hcompare := hcompare
          simp only [codeAt_instruction] at hcompare
          exact exists_target hcompare.2.1 rfl
        obtain ⟨w, hw, hhas, hwordOf⟩ := evaluate_caseWord cx hword hkind
        have hvalue : literal value.span (evaluate cx value) = pure w := by
          rw [show evaluate cx value = _ from hw, literal_pure hhas.isLiteral]
        rw [caseValues, hvalue]
        apply Triple.firstMatch_cons
          (R := fun u s => u = w ∧ p.At k (fun s core => p.Holds f kept [] s core ∧ core.get .t0 = wordOf v) s)
        · exact Triple.pure fun s hs => ⟨rfl, hs⟩
        · intro u
          apply Triple.assuming fun _ hs => hs.1
          rintro rfl
          apply (follows_comparison hv hhas hwordOf hcompare hm).conseq (fun _ hs => hs.2)
          · intro b s hs
            cases b with
            | true =>
              obtain ⟨core, hg, h, -⟩ := hs
              exact ⟨m, ⟨l, rfl, hm⟩, core, hg, h⟩
            | false => exact hs
          · exact fun _ _ h => h
        · apply (ih hrest (by simpa using hlabels) hc).post
          rintro i? s ⟨m, hmatched, h⟩
          exact ⟨m, by cases i? <;> exact hmatched, h⟩

/-! Bodies -/

theorem bodiesFrom_eq {position? : Option Nat} (hposition : position?.getD cases.length ≤ cases.length) :
    bodiesFrom position? (caseBodies cx cases) (default.map fun body => inScope (executeAll cx body)) =
      ((switchBodies n cases default).drop (position?.getD cases.length)).map
        fun entry => inScope (executeAll cx entry.2) := by
  have hbodies : (switchBodies n cases default).map (fun entry => inScope (executeAll cx entry.2)) =
      caseBodies cx cases ++ (default.map fun body => inScope (executeAll cx body)).toList := by
    rw [caseBodies_eq, Option.toList_map, ← List.map_append, ← snd_switchBodies, List.map_map]
    rfl
  have hlength : (caseBodies cx cases).length = cases.length := by
    rw [caseBodies_eq, List.length_map, List.length_map]
  rw [List.map_drop, hbodies, List.drop_append_of_le_length (by rwa [hlength])]
  cases position? with
  | some i => rfl
  | none => rw [Option.getD_none, ← hlength, List.drop_length]; rfl

theorem label_of_matched {i? : Option Nat} {done : Label}
    (hj : p.lines[k']? = some (.j (switchDefault n cases default done)))
    (hmatched : p.Matched (labelsFrom n cases.length) k' i? m) :
    i?.getD cases.length ≤ cases.length ∧
      ∀ m', p.lines[m']? = some (.label
          ((((switchBodies n cases default).drop (i?.getD cases.length)).map Prod.fst).headD done)) →
        ∀ core, p.Gets m core → p.Gets m' core := by
  rw [List.map_drop, Lowering.fst_switchBodies, Lowering.labelsFrom_append]
  cases i? with
  -- Without a match the jump after the comparisons gets to the default, or to the end.
  | none =>
    refine ⟨Nat.le_refl _, fun m' hm' core hg => ?_⟩
    rw [Option.getD_none, List.drop_left' (Lowering.length_labelsFrom _ _)] at hm'
    cases hmatched
    exact hg.jump hj hm'
  | some i =>
    obtain ⟨l, hl, hm⟩ := hmatched
    have hi : i < cases.length := by
      have := (List.getElem?_eq_some_iff.mp hl).1
      rwa [Lowering.length_labelsFrom] at this
    refine ⟨Nat.le_of_lt hi, fun m' hm' core hg => ?_⟩
    rw [Option.getD_some, List.headD_eq_head?_getD, List.head?_drop, List.getElem?_append_left
      (by rwa [Lowering.length_labelsFrom]), hl] at hm'
    rwa [label_unique hm' hm]

theorem follows_switch {span : Span} {subject : Expr} {done : Label} {c₂ : List Line} {m₁ m₂ : Nat}
    {Q : Flow → State → Prop}
    (hsubject : Triple (p.At k (p.Holds f kept [])) (evaluate cx subject) (p.Pushed f kept [] kind len m₁)
      p.Halts)
    (hcases : CasesCode kind ((cases.map SwitchCase.value).zip (labelsFrom n cases.length)) c₂)
    (hc : CodeAt p.lines m₁ c₂ m₂)
    (hj : p.lines[m₂]? = some (.j (switchDefault n cases default done)))
    (hbodies : ∀ i, ∃ m, p.lines[m]? = some (.label
        ((((switchBodies n cases default).drop i).map Prod.fst).headD done)) ∧
      Triple (p.At m (p.Holds f kept [])) (fallThrough
        (((switchBodies n cases default).drop i).map fun entry => inScope (executeAll cx entry.2))) Q p.Halts) :
    Triple (p.At k (p.Holds f kept [])) (execute cx (.switch span subject cases default)) Q p.Halts := by
  rw [execute_switch]
  apply Triple.bind (follows_literal hsubject)
  intro v
  apply Triple.assuming fun _ hs => hs.value
  intro hv
  cases hcases with
  | strings => cases hv
  | words _ hwords =>
    obtain ⟨m, hpop, hcompare⟩ := codeAt_append.mp hc
    apply Triple.bind (R := fun i? s =>
      ∃ m, p.Matched (labelsFrom n cases.length) m₂ i? m ∧ p.At m (p.Holds f kept []) s)
    · apply (follows_firstMatch hwords (Lowering.length_labelsFrom _ _) hv.int_or_bool hv hcompare).pre
      rintro s ⟨-, core, hg, h⟩
      obtain ⟨core', hg', h', ht₀, -⟩ := h.popped hg hpop (by decide) (by decide)
      exact ⟨core', hg', h', ht₀⟩
    intro i?
    obtain ⟨m', hm', hrun⟩ := hbodies (i?.getD cases.length)
    apply Triple.assuming (p := i?.getD cases.length ≤ cases.length)
    · rintro s ⟨m, hmatched, -⟩
      exact (label_of_matched hj hmatched).1
    intro hposition
    rw [bodiesFrom_eq hposition]
    apply hrun.pre
    rintro s ⟨m, hmatched, core, hg, h⟩
    exact ⟨core, (label_of_matched hj hmatched).2 m' hm' core hg, h⟩

theorem follows_fallThrough {j : JumpTargets} {done : Label} {body : Run Flow} {rest : List (Run Flow)}
    {m₁ m₂ : Nat} (hdone : p.lines[k']? = some (.label done)) (hj : j.break? = some ⟨done, f.bytes⟩)
    (hbody : Triple (p.At m₁ (p.Holds f kept [])) body (p.Ended j f kept m₂ f.bytes) p.Halts)
    (hrest : Triple (p.At m₂ (p.Holds f kept [])) (fallThrough rest) (p.Ended j.popBreak f kept k' f.bytes)
      p.Halts) :
    Triple (p.At m₁ (p.Holds f kept [])) (fallThrough (body :: rest)) (p.Ended j.popBreak f kept k' f.bytes)
      p.Halts := by
  apply Triple.fallThrough_cons _ hrest
  apply hbody.post
  rintro flow s ⟨m, b, hleads, core, hg, h⟩
  cases hleads with
  | normal => exact ⟨core, hg, h.holds⟩
  | breaking ht hm =>
    rw [hj] at ht
    cases ht
    rw [label_unique hm hdone] at hg
    exact ⟨_, _, .normal, core, hg, h⟩
  | continuing ht hm => exact ⟨_, _, .continuing ht hm, core, hg, h⟩

end Pieces

end Machine.Process

end Arbor
