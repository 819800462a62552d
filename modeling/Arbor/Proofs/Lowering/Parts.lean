import Arbor.Proofs.Agreement.Names

/-!
This module contains what holds of every statement in a part of a program, read off the parts inside it: the rules of
the code of a statement go from a part to these.
-/

namespace Arbor.Lowering

open Assembly Agreement

def Part.Each (P : Stmt → Prop) : Part → Prop
  | .stmt s => EachPart P [s]
  | .seq body | .scope body => EachPart P body
  | .bodies entries => ∀ entry ∈ entries, EachPart P entry.2

theorem parts_cases {cases : List SwitchCase} :
    SwitchCase.parts cases = (cases.map SwitchCase.body).flatMap Stmt.partsOfAll := by
  induction cases with
  | nil => rw [SwitchCase.parts, List.map_nil, List.flatMap_nil]
  | cons first rest ih =>
    obtain ⟨_, _, body⟩ := first
    rw [SwitchCase.parts, ih, List.map_cons, List.flatMap_cons]
    rfl

namespace Part

variable {P : Stmt → Prop} {span : Span} {s body : Stmt} {rest : List Stmt}

theorem each_stmt : (Part.stmt s).Each P ↔ ∀ t ∈ s.parts, P t := by
  simp [Each]

theorem each_leaf (h : s.parts = [s]) : (Part.stmt s).Each P ↔ P s := by
  simp [each_stmt, h]

theorem each_nil : (Part.seq []).Each P :=
  eachPart_nil

theorem each_cons : (Part.seq (s :: rest)).Each P ↔ (Part.stmt s).Each P ∧ (Part.seq rest).Each P := by
  simp [Each]

theorem each_noBody : (Part.bodies []).Each P := by
  simp [Each]

theorem each_body {label : Label} {entries : List (Label × List Stmt)} :
    (Part.bodies ((label, rest) :: entries)).Each P ↔ (Part.scope rest).Each P ∧ (Part.bodies entries).Each P := by
  simp [Each]

-- A block that is the body of a loop or a branch is not a statement of its own.
variable (hblock : ∀ span body, P (.block span body))

include hblock

theorem each_block : (Part.stmt (.block span rest)).Each P ↔ (Part.scope rest).Each P := by
  simp [Each, EachPart, Stmt.parts, hblock]

theorem each_bodyOf : (Part.scope body.bodyOf).Each P ↔ ∀ t ∈ body.parts, P t := by
  cases body with
  | block => simp [Each, EachPart, Stmt.bodyOf, Stmt.parts, hblock]
  | _ => simp [Each, Stmt.bodyOf]

theorem each_ifThen {cond : Expr} :
    (Part.stmt (.conditional span cond body none)).Each P ↔
      P (.conditional span cond body none) ∧ (Part.scope body.bodyOf).Each P := by
  rw [each_stmt, Stmt.parts_conditional, each_bodyOf hblock]
  simp

theorem each_ifElse {cond : Expr} {other : Stmt} :
    (Part.stmt (.conditional span cond body (some other))).Each P ↔
      P (.conditional span cond body (some other)) ∧ (Part.scope body.bodyOf).Each P ∧
        (Part.scope other.bodyOf).Each P := by
  rw [each_stmt, Stmt.parts_conditional, each_bodyOf hblock, each_bodyOf hblock]
  simp [or_imp, forall_and]

theorem each_whileLoop {cond : Expr} :
    (Part.stmt (.whileLoop span cond body)).Each P ↔
      P (.whileLoop span cond body) ∧ (Part.scope body.bodyOf).Each P := by
  rw [each_stmt, Stmt.parts, each_bodyOf hblock]
  simp

theorem each_forLoop {init : Option Stmt} {cond update : Option Expr} :
    (Part.stmt (.forLoop span init cond update body)).Each P ↔
      P (.forLoop span init cond update body) ∧ (Part.seq init.toList).Each P ∧
        (Part.scope body.bodyOf).Each P := by
  rw [each_stmt, Stmt.parts_forLoop, each_bodyOf hblock]
  simp [Each, EachPart, or_imp, forall_and]

theorem each_forEach {ty : TypeName} {name iterable : String} :
    (Part.stmt (.forEach span ty name iterable body)).Each P ↔
      P (.forEach span ty name iterable body) ∧ (Part.scope body.bodyOf).Each P := by
  rw [each_stmt, Stmt.parts, each_bodyOf hblock]
  simp

omit hblock

theorem each_switch {subject : Expr} {cases : List SwitchCase} {default : Option (List Stmt)} {n : Nat} :
    (Part.stmt (.switch span subject cases default)).Each P ↔
      P (.switch span subject cases default) ∧ (Part.bodies (switchBodies n cases default)).Each P := by
  have hbodies : (switchBodies n cases default).map Prod.snd = cases.map SwitchCase.body ++ default.toList := by
    rw [switchBodies, List.map_snd_zip]
    simp [labelsFrom]
  have heach : (Part.bodies (switchBodies n cases default)).Each P ↔
      ∀ body ∈ cases.map SwitchCase.body ++ default.toList, EachPart P body := by
    rw [← hbodies, List.forall_mem_map, Each]
  rw [each_stmt, Stmt.parts_switch, heach, parts_cases, ← List.flatMap_append, List.forall_mem_cons]
  simp only [List.mem_flatMap, EachPart]
  grind

end Part

end Arbor.Lowering
