import Arbor.Proofs.Agreement.Scopes
import Arbor.Proofs.Lowering.Labels

/-!
This module contains the programs whose names mean the same to the evaluator and to the generator, as a property of
each of their statements.
-/

namespace Arbor

mutual

def Expr.names : Expr → List String
  | .literal .. => []
  | .binary _ _ l r => l.names ++ r.names
  | .unary _ _ e | .grouping _ e => e.names
  | .var _ name | .step _ name _ | .length _ name | .join _ name => [name]
  | .assign _ name _ e | .index _ name e | .indexOf _ name e => name :: e.names
  | .ternary _ c t f => c.names ++ t.names ++ f.names
  | .arrayLiteral _ items => Expr.namesOfAll items
  | .indexAssign _ name i _ e => name :: (i.names ++ e.names)
  | .call _ callee args => callee.names ++ Expr.namesOfAll args

def Expr.namesOfAll : List Expr → List String
  | [] => []
  | e :: es => e.names ++ Expr.namesOfAll es

end

mutual

def Stmt.parts (s : Stmt) : List Stmt :=
  s :: match s with
    | .funcDecl _ _ _ _ body | .block _ body => Stmt.partsOfAll body
    | .conditional _ _ t f => t.parts ++ match f with
      | none => []
      | some f => f.parts
    | .whileLoop _ _ body | .forEach _ _ _ _ body => body.parts
    | .forLoop _ init _ _ body => (match init with
      | none => []
      | some init => init.parts) ++ body.parts
    | .switch _ _ cases default => SwitchCase.parts cases ++ match default with
      | none => []
      | some body => Stmt.partsOfAll body
    | _ => []

def Stmt.partsOfAll : List Stmt → List Stmt
  | [] => []
  | s :: rest => s.parts ++ Stmt.partsOfAll rest

def SwitchCase.parts : List SwitchCase → List Stmt
  | [] => []
  | .mk _ _ body :: rest => Stmt.partsOfAll body ++ SwitchCase.parts rest

end

namespace Stmt

section Parts

variable {span : Span} {body s t : Stmt} {rest : List Stmt} {c subject : Expr}

@[simp]
theorem partsOfAll_nil : partsOfAll [] = [] := by
  rw [partsOfAll]

@[simp]
theorem partsOfAll_cons : partsOfAll (s :: rest) = s.parts ++ partsOfAll rest := by
  rw [partsOfAll]

theorem parts_conditional {f : Option Stmt} :
    (conditional span c t f).parts =
      conditional span c t f :: (t.parts ++ partsOfAll f.toList) := by
  cases f <;> simp [parts]

theorem parts_forLoop {init : Option Stmt} {c update : Option Expr} :
    (forLoop span init c update body).parts =
      forLoop span init c update body :: (partsOfAll init.toList ++ body.parts) := by
  cases init <;> simp [parts]

theorem parts_switch {cases : List SwitchCase} {default : Option (List Stmt)} :
    (switch span subject cases default).parts =
      switch span subject cases default ::
        (SwitchCase.parts cases ++ default.toList.flatMap partsOfAll) := by
  cases default <;> simp [parts]

end Parts

def exprs : Stmt → List Expr
  | .varDecl _ _ _ init => init.toList
  | .arrayDecl _ _ _ _ (.values items) => items
  | .arrayDecl _ _ _ _ (.sized length) => [length]
  | .expr _ e => [e]
  | .print _ args => args
  | .conditional _ c _ _ | .whileLoop _ c _ => [c]
  | .forLoop _ _ c update _ => c.toList ++ update.toList
  | .switch _ subject cases _ => subject :: cases.map fun | .mk _ value _ => value
  | .returnStmt _ value => value.toList
  | _ => []

def ownNames : Stmt → List String
  | .varDecl _ _ name _ => [name]
  | .arrayDecl _ _ _ name (.copyOf source) => [name, source]
  | .arrayDecl _ _ _ name _ => [name]
  | .funcDecl _ _ name params _ => name :: params.map Param.name
  | .forEach _ _ name iterable _ => [name, iterable]
  | _ => []

def declared? : Stmt → Option String
  | .varDecl _ _ name _ | .arrayDecl _ _ _ name _ | .funcDecl _ _ name _ _
  | .forEach _ _ name _ _ => some name
  | _ => none

def elementType? : Stmt → Option TypeName
  | .arrayDecl _ elem _ _ _ => some elem
  | _ => none

/--
A statement is regular if its names do not start as those of hidden variables, it does not declare an embedded
function anew, and it does not leave the type of elements open.
-/
structure Regular (s : Stmt) : Prop where
  ownNames : ∀ name ∈ s.ownNames, Agreement.Plain name
  exprs : ∀ e ∈ s.exprs, ∀ name ∈ e.names, Agreement.Plain name
  declared : ∀ name ∈ s.declared?, Embedded.ofName? name = none
  elements : s.elementType? ≠ some .var

instance : DecidablePred Regular := fun s =>
  decidable_of_iff ((∀ name ∈ s.ownNames, Agreement.Plain name) ∧
      (∀ e ∈ s.exprs, ∀ name ∈ e.names, Agreement.Plain name) ∧
      (∀ name ∈ s.declared?, Embedded.ofName? name = none) ∧ s.elementType? ≠ some .var)
    ⟨fun h => ⟨h.1, h.2.1, h.2.2.1, h.2.2.2⟩, fun h => ⟨h.ownNames, h.exprs, h.declared, h.elements⟩⟩

end Stmt

namespace Agreement

open Lowering

def PlainNames (e : Expr) : Prop :=
  ∀ name ∈ e.names, Plain name

section PlainNames

variable {span : Span} {name : String} {l r e : Expr}

theorem plainNames_binary {op : BinaryOp} :
    PlainNames (.binary span op l r) ↔ PlainNames l ∧ PlainNames r := by
  simp [PlainNames, Expr.names, or_imp, forall_and]

theorem plainNames_ternary :
    PlainNames (.ternary span l r e) ↔ PlainNames l ∧ PlainNames r ∧ PlainNames e := by
  simp [PlainNames, Expr.names, or_imp, forall_and]

theorem plainNames_assign {op : AssignOp} :
    PlainNames (.assign span name op e) ↔ Plain name ∧ PlainNames e := by
  simp [PlainNames, Expr.names]

theorem plainNames_index : PlainNames (.index span name e) ↔ Plain name ∧ PlainNames e := by
  simp [PlainNames, Expr.names]

theorem plainNames_indexOf : PlainNames (.indexOf span name e) ↔ Plain name ∧ PlainNames e := by
  simp [PlainNames, Expr.names]

theorem plainNames_indexAssign {op : AssignOp} :
    PlainNames (.indexAssign span name l op r) ↔ Plain name ∧ PlainNames l ∧ PlainNames r := by
  simp [PlainNames, Expr.names, or_imp, forall_and]

theorem plainNames_call : PlainNames (.call span l [e]) ↔ PlainNames l ∧ PlainNames e := by
  simp [PlainNames, Expr.names, Expr.namesOfAll, or_imp, forall_and]

end PlainNames

def EachPart (P : Stmt → Prop) (body : List Stmt) : Prop :=
  ∀ s ∈ Stmt.partsOfAll body, P s

section EachPart

variable {P : Stmt → Prop} {span : Span} {s t : Stmt} {body rest : List Stmt}

@[simp]
theorem eachPart_nil : EachPart P [] := by
  simp [EachPart]

@[simp]
theorem eachPart_cons : EachPart P (s :: rest) ↔ (∀ t ∈ s.parts, P t) ∧ EachPart P rest := by
  simp [EachPart, or_imp, forall_and]

theorem eachPart_head (h : EachPart P [s]) : P s := by
  rw [eachPart_cons] at h
  unfold Stmt.parts at h
  exact h.1 s List.mem_cons_self

theorem eachPart_block (h : EachPart P [.block span body]) : EachPart P body := by
  simp only [eachPart_cons, Stmt.parts, List.forall_mem_cons] at h
  exact h.1.2

theorem eachPart_bodyOf (h : EachPart P [t]) : EachPart P t.bodyOf := by
  cases t with
  | block => exact eachPart_block h
  | _ => exact h

theorem eachPart_whenTrue {c : Expr} {f : Option Stmt} (h : EachPart P [.conditional span c t f]) :
    EachPart P [t] := by
  simp only [eachPart_cons, Stmt.parts_conditional, List.forall_mem_cons,
    List.forall_mem_append] at h ⊢
  exact ⟨h.1.2.1, eachPart_nil⟩

theorem eachPart_whenFalse {c : Expr} {f : Option Stmt} (h : EachPart P [.conditional span c t f]) :
    EachPart P f.toList := by
  simp only [eachPart_cons, Stmt.parts_conditional, List.forall_mem_cons,
    List.forall_mem_append] at h
  exact h.1.2.2

theorem eachPart_while {c : Expr} (h : EachPart P [.whileLoop span c t]) : EachPart P [t] := by
  simp only [eachPart_cons, Stmt.parts, List.forall_mem_cons] at h ⊢
  exact ⟨h.1.2, eachPart_nil⟩

theorem eachPart_forEach {ty : TypeName} {name iterable : String}
    (h : EachPart P [.forEach span ty name iterable t]) : EachPart P [t] := by
  simp only [eachPart_cons, Stmt.parts, List.forall_mem_cons] at h ⊢
  exact ⟨h.1.2, eachPart_nil⟩

theorem eachPart_for {init : Option Stmt} {c update : Option Expr}
    (h : EachPart P [.forLoop span init c update t]) : EachPart P init.toList ∧ EachPart P [t] := by
  simp only [eachPart_cons, Stmt.parts_forLoop, List.forall_mem_cons,
    List.forall_mem_append] at h ⊢
  exact ⟨h.1.2.1, h.1.2.2, eachPart_nil⟩

theorem mem_parts_of_mem_cases {cases : List SwitchCase} (hbody : body ∈ cases.map SwitchCase.body)
    (hs : s ∈ Stmt.partsOfAll body) : s ∈ SwitchCase.parts cases := by
  induction cases with
  | nil => cases hbody
  | cons c rest ih =>
    obtain ⟨_, _, first⟩ := c
    rw [List.map_cons, List.mem_cons] at hbody
    rw [SwitchCase.parts, List.mem_append]
    rcases hbody with rfl | hbody
    · exact .inl hs
    · exact .inr (ih hbody)

theorem eachPart_switch {subject : Expr} {cases : List SwitchCase} {default : Option (List Stmt)}
    (h : EachPart P [.switch span subject cases default])
    (hbody : body ∈ cases.map SwitchCase.body ++ default.toList) : EachPart P body := by
  simp only [eachPart_cons, Stmt.parts_switch, List.forall_mem_cons, List.forall_mem_append] at h
  intro s hs
  rcases List.mem_append.mp hbody with hbody | hbody
  · exact h.1.2.1 s (mem_parts_of_mem_cases hbody hs)
  · exact h.1.2.2 s (List.mem_flatMap.mpr ⟨body, hbody, hs⟩)

end EachPart

theorem lookup_embedded_eq_none {name : String} (h : Embedded.ofName? name = none) :
    Environment.embedded.lookup name = none := by
  unfold Embedded.ofName? at h
  rw [List.find?_eq_none] at h
  unfold Environment.embedded
  rw [List.lookup_eq_none_iff]
  simp only [List.mem_reverse, List.mem_map]
  rintro _ ⟨f, hf, rfl⟩
  have := h f hf
  simp only [beq_iff_eq] at this
  simpa using Ne.symm this

theorem declarable {s : Stmt} {name : String} (h : s.Regular) (hname : name ∈ s.ownNames)
    (hdeclared : name ∈ s.declared?) : Declarable Plain name :=
  ⟨h.ownNames name hname, lookup_embedded_eq_none (h.declared name hdeclared)⟩

end Agreement

end Arbor
