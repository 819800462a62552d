import Arbor.Proofs.Agreement.Execution
import Arbor.Proofs.Agreement.Resolution

/-!
This module contains the programs that are accepted and whose names mean the same to the evaluator and to the
generator, whatever else may go wrong in them: they never fail because of what a name stands for.
-/

namespace Arbor

/--
A statement is well named if it mentions none of the names that loops over arrays keep slots under, and does not
declare an embedded function anew.
-/
structure Stmt.WellNamed (s : Stmt) : Prop where
  ownNames : ∀ name ∈ s.ownNames, Agreement.Unreserved name
  exprs : ∀ e ∈ s.exprs, ∀ name ∈ e.names, Agreement.Unreserved name
  declared : ∀ name ∈ s.declared?, Embedded.ofName? name = none

instance : DecidablePred Stmt.WellNamed := fun s =>
  decidable_of_iff ((∀ name ∈ s.ownNames, Agreement.Unreserved name) ∧
      (∀ e ∈ s.exprs, ∀ name ∈ e.names, Agreement.Unreserved name) ∧
      (∀ name ∈ s.declared?, Embedded.ofName? name = none))
    ⟨fun h => ⟨h.1, h.2.1, h.2.2⟩, fun h => ⟨h.ownNames, h.exprs, h.declared⟩⟩

namespace Agreement

open Lowering (Frame Slot SlotKind JumpTargets Part StmtCode CasesCode ExprCode ItemsCode ArrayCode PrintCode
  TestCode UpdateCode switchBodies generate)
open Evaluation

/--
From a state with the names of a frame, a run ends with a result and a state that have a property, or halts with no
error about a name.
-/
def Proceeds {α : Type} (f : Frame) (x : Run α) (Q : α → State → Prop) : Prop :=
  Triple (SameNames f) x Q fun h _ => Named h

section Proceeds

variable {α β : Type} {f : Frame} {x : Run α} {Q : β → State → Prop}

theorem Steady.proceeds (hx : Steady f x) : Proceeds f x fun _ s => SameNames f s :=
  hx.conseq (fun _ hs => hs) (fun _ _ hs => hs) (fun _ _ hs => hs.1)

theorem Steady.bindProceeds {y : α → Run β} (hx : Steady f x) (hy : ∀ a, Proceeds f (y a) Q) :
    Proceeds f (x >>= y) Q :=
  Triple.bind hx.proceeds hy

theorem proceeds_inScope
    (hx : Proceeds f.openScope x fun _ s => ∃ g added, f.openScope.Extends g added ∧ SameNames g s) :
    Proceeds f (inScope x) fun _ s => SameNames f s := by
  intro t ht
  have hscope : Triple (fun s => s = t) (inScope x) (fun _ s => SameNames f s) fun h _ => Named h := by
    apply Triple.inScope
    apply hx.conseq
    · rintro _ ⟨_, rfl, rfl⟩
      exact ht.openScope
    · rintro _ s ⟨g, added, hfg, hs⟩
      exact hs.closeScope hfg ht
    · exact fun _ _ h => h
  exact hscope t rfl

end Proceeds

/-! Declarations -/

section Declarations

variable {cx : Context} {f : Frame} {span : Span} {name : String} {kind : SlotKind} {len : Option Nat}

theorem wellNamed_declarable {s : Stmt} (h : s.WellNamed) (hname : name ∈ s.ownNames)
    (hdeclared : name ∈ s.declared?) : Declarable Unreserved name :=
  ⟨h.ownNames name hname, lookup_embedded_eq_none (h.declared name hdeclared)⟩

theorem proceeds_declare {k : Kind} {v : Value} (hfree : f.isDeclared name = false)
    (hname : Declarable Unreserved name) :
    Proceeds f (declare span name k v) fun _ s => SameNames (f.pushNamed kind len name) s := by
  intro s hs
  obtain ⟨env, hdeclare, henv⟩ := hs.declare hfree hname k v
  have hrun : declare span name k v s = .ok () { s with env } := by
    change EStateM.bind (liftAt span (s.env.declare name k v)) setEnvironment s = _
    rw [hdeclare]
    rfl
  rw [hrun]
  exact henv

theorem proceeds_bindChecked {k : Kind} {checked : Except EvalErrorKind Value}
    (hfree : f.isDeclared name = false) (hname : Declarable Unreserved name)
    (hchecked : ∀ e, checked = .error e → e.misnamed? = none) :
    Proceeds f (bindChecked span name k checked) fun _ s => SameNames (f.pushNamed kind len name) s := by
  cases checked with
  | ok v => exact proceeds_declare hfree hname
  | error e =>
    -- The name is bound all the same before the declaration fails.
    have hdeclare : Proceeds f (declare span name k .null)
        fun _ s => SameNames (f.pushNamed kind len name) s := proceeds_declare hfree hname
    exact Triple.bind hdeclare fun _ => Triple.raise fun _ _ => hchecked e rfl

theorem proceeds_declareVariable {ty : TypeName} {value? : Option Value} (hfree : f.isDeclared name = false)
    (hname : Declarable Unreserved name) :
    Proceeds f (declareVariable span ty name value?)
      fun _ s => SameNames (f.pushNamed kind len name) s :=
  proceeds_bindChecked hfree hname fun _ he => misnamed?_checkDeclared he

theorem proceeds_checkArray {x : Run Value} (hx : Steady f x) :
    Proceeds f (checkArray x) fun checked s =>
      SameNames f s ∧ ∀ e, checked = .error e → e.misnamed? = none := by
  have hchecked : Triple (SameNames f) (checkArray x)
      (fun checked s => SameNames f s ∧ ∀ e, checked = .error e → e.misnamed? = none)
      fun h s => Named h ∧ SameNames f s := by
    apply Triple.checkArray hx (fun _ _ hs => ⟨hs, nofun⟩)
    rintro e s ⟨he, hs⟩
    refine ⟨hs, ?_⟩
    rintro _ ⟨⟩
    exact he
  exact hchecked.conseq (fun _ hs => hs) (fun _ _ hs => hs) fun _ _ hs => hs.1

theorem proceeds_declareArray {elem : TypeName} {build : Scalar → Nat → Run Value}
    (hfree : f.isDeclared name = false) (hname : Declarable Unreserved name)
    (hbuild : ∀ s, elem.scalar? = some s → Steady f (build s 1)) :
    Proceeds f (declareArray span elem 1 name build)
      fun _ s => SameNames (f.pushNamed kind len name) s := by
  unfold declareArray
  cases helem : elem.scalar? with
  -- The declaration fails before it binds its name, but not for a name.
  | none => exact Triple.raise fun _ _ => rfl
  | some s =>
    apply Triple.bind (proceeds_checkArray (hbuild s helem))
    intro checked
    apply Triple.assuming fun _ hs => hs.2
    intro hchecked
    exact (proceeds_bindChecked hfree hname hchecked).pre fun _ hs => hs.1

theorem steady_convertedElement {s : Scalar} {e : Expr} (he : Steady f (evaluate cx e)) :
    Steady f (convertedElement cx (.scalar s) e) :=
  he.literal.bind fun _ => .liftAt fun _ => misnamed?_elementOf

theorem steady_elements {n n' : Nat} {f' : Frame} {declared : Option Scalar} {s elem : Scalar}
    {items : List Expr} {c : List Assembly.Line} (h : ItemsCode f n declared items elem c f' n')
    (hnames : ∀ e ∈ items, ∀ name ∈ e.names, Unreserved name) : Steady f (elements cx s 1 items) := by
  induction h with
  | nil => exact .pure
  | known he _ ih | first he _ ih =>
    rw [List.forall_mem_cons] at hnames
    rw [elements, element_eq]
    apply (steady_convertedElement (steady_evaluate he hnames.1)).bind
    intro v
    exact (Steady.push_iff.mp (ih hnames.2)).bind fun _ => .pure

theorem steady_sized {limit : Nat} {elem : Kind} {length : Expr} (hlength : Steady f (evaluate cx length)) :
    Steady f (do
      let n ← literal length.span (evaluate cx length)
      liftAt length.span (zeroArray limit elem n)) :=
  hlength.literal.bind fun _ => .liftAt fun _ => misnamed?_zeroArray

theorem steady_initialArray {limit n n' : Nat} {d d' : Assembly.DataSection} {init : ArrayInit}
    {declared : Option Scalar} {s elem : Scalar} {c : List Assembly.Line}
    (h : ArrayCode limit f n d declared init elem len c n' d')
    (hstmt : (Stmt.arrayDecl span .int 1 name init).WellNamed) :
    Steady f (initialArray cx span init s 1) := by
  cases h with
  | values hitems => exact (steady_elements hitems hstmt.exprs).bind fun _ => .pure
  | sized hliteral _ hword =>
    apply steady_sized
    rw [evaluate_of_intLiteral? hword hliteral]
    exact .pure
  | computed _ hlength => exact steady_sized (steady_evaluate hlength (hstmt.exprs _ List.mem_cons_self))
  | copied hslot | copiedHeap hslot =>
    exact steady_copyArray (hstmt.ownNames _ (.tail _ List.mem_cons_self)) hslot

end Declarations

/-! Parts of statements -/

section Parts

variable {cx : Context} {f : Frame}

theorem steady_roundTest {n n' : Nat} {done : Assembly.Label} {cond : Option Expr} {c : List Assembly.Line}
    (h : TestCode f n done cond c n') (hnames : ∀ e ∈ cond, ∀ name ∈ e.names, Unreserved name) :
    Steady f (roundTest cx cond) := by
  cases h with
  | none => exact .pure
  | some he => exact (steady_evaluate he (hnames _ rfl)).condition

theorem steady_roundUpdate {n n' : Nat} {update : Option Expr} {c : List Assembly.Line}
    (h : UpdateCode f n update c n') (hnames : ∀ e ∈ update, ∀ name ∈ e.names, Unreserved name) :
    Steady f (roundUpdate cx update) := by
  cases h with
  | none => exact .pure
  | some he => exact (steady_evaluate he (hnames _ rfl)).bind fun _ => .pure

theorem steady_evaluateAll {n n' : Nat} {separator c : List Assembly.Line} {args : List Expr}
    (h : PrintCode f n separator args c n') (hnames : ∀ e ∈ args, ∀ name ∈ e.names, Unreserved name) :
    Steady f (evaluateAll cx (fun _ x => x) args) := by
  induction h with
  | nil => exact .pure
  | cons he _ ih =>
    rw [List.forall_mem_cons] at hnames
    rw [evaluateAll]
    apply (steady_evaluate he hnames.1).bind
    intro v
    exact (ih hnames.2).bind fun _ => .pure

theorem proceeds_loop {cond : Run Bool} {body : Run Flow} {update : Run Unit} (hcond : Steady f cond)
    (hbody : Proceeds f body fun _ s => SameNames f s) (hupdate : Steady f update) (fuel : Nat) :
    Proceeds f (loop cond body update fuel) fun _ s => SameNames f s := by
  apply Triple.loop (B := SameNames f) (U := SameNames f)
  · apply hcond.proceeds.post
    intro b s hs
    cases b <;> exact hs
  · apply hbody.post
    intro flow s hs
    cases flow <;> exact hs
  · exact hupdate.proceeds
  · exact fun _ _ => trivial

theorem proceeds_firstMatch {subject : Value} {cases : List SwitchCase}
    (hcases : ∀ e ∈ cases.map SwitchCase.value, ∃ v, evaluate cx e = pure v) :
    Proceeds f (firstMatch subject equalForSwitch (caseValues cx cases)) fun _ s => SameNames f s := by
  induction cases with
  | nil => exact Triple.pure fun _ hs => hs
  | cons first rest ih =>
    obtain ⟨span, value, body⟩ := first
    rw [List.map_cons, List.forall_mem_cons] at hcases
    obtain ⟨⟨v, hv⟩, hrest⟩ := hcases
    rw [caseValues]
    apply Triple.firstMatch_cons (R := fun _ s => SameNames f s) (S := SameNames f)
    · have hvalue : Steady f (evaluate cx value) := by
        rw [show evaluate cx value = pure v from hv]
        exact .pure
      exact hvalue.literal.proceeds
    · intro w
      have hequal : Steady f (equalForSwitch span subject w) := by
        apply Steady.bind (.liftAt fun _ => Value.misnamed?_binary)
        intro u
        split <;> exact .pure
      apply hequal.proceeds.post
      intro b s hs
      cases b <;> exact hs
    · exact ih hrest

theorem proceeds_cases {cases : List SwitchCase} {labels : List Assembly.Label} {kind : SlotKind} {v : Value}
    {c : List Assembly.Line} (hlabels : labels.length = cases.length)
    (hcases : CasesCode kind ((cases.map SwitchCase.value).zip labels) c) :
    Proceeds f (firstMatch v equalForSwitch (caseValues cx cases)) fun _ s => SameNames f s := by
  have hvalues : ((cases.map SwitchCase.value).zip labels).map Prod.fst = cases.map SwitchCase.value :=
    List.map_fst_zip (Nat.le_of_eq (by rw [hlabels, List.length_map]))
  apply proceeds_firstMatch
  intro e he
  rw [← hvalues] at he
  obtain ⟨entry, hentry, rfl⟩ := List.mem_map.mp he
  obtain ⟨w, hw, _⟩ := evaluate_of_casesCode hcases entry hentry
  exact ⟨w, hw⟩

theorem proceeds_fallThrough {bodies : List (Run Flow)}
    (hbodies : ∀ x ∈ bodies, Proceeds f x fun _ s => SameNames f s) :
    Proceeds f (fallThrough bodies) fun _ s => SameNames f s := by
  induction bodies with
  | nil => exact Triple.pure fun _ hs => hs
  | cons x rest ih =>
    rw [List.forall_mem_cons] at hbodies
    apply Triple.fallThrough_cons (R := SameNames f) _ (ih hbodies.2)
    apply hbodies.1.post
    intro flow s hs
    cases flow <;> exact hs

theorem proceeds_forValues {round : Value → Run Flow} {items : List Value}
    (hround : ∀ v, Proceeds f (round v) fun _ s => SameNames f s) :
    Proceeds f (forValues round items) fun _ s => SameNames f s := by
  induction items with
  | nil => exact Triple.pure fun _ hs => hs
  | cons v rest ih =>
    apply Triple.forValues_cons _ ih
    apply (hround v).post
    intro flow s hs
    cases flow <;> exact hs

theorem proceeds_declareEach {base elem : SlotKind} {len : Option Nat} {span : Span} {name : String} {k : Kind}
    {v : Value} (hname : Declarable Unreserved name) :
    Triple (fun s => ∃ t, SameNames f t ∧ s = { t with env := t.env.push }) (declare span name k v)
      (fun _ s => SameNames (inEach f base len elem name) s) fun h _ => Named h := by
  -- The slots that the loop keeps are none of the scope of a round, so the name of its variable is free.
  apply (proceeds_declare Agrees.isDeclared_openEach hname).pre
  rintro _ ⟨s, hs, rfl⟩
  exact hs.openEach

theorem proceeds_round {base elem : SlotKind} {len : Option Nat} {span : Span} {name : String} {k : Kind}
    {x : Run Flow} {v : Value} (hname : Declarable Unreserved name)
    (hx : Proceeds (inEach f base len elem name) x fun _ s => SameNames (inEach f base len elem name) s) :
    Proceeds f (inScope (do
      declare span name k v
      x)) fun _ s => SameNames f s := by
  apply Triple.inScope
  apply Triple.bind (proceeds_declareEach hname)
  intro _
  exact hx.conseq (fun _ hs => hs) (fun _ _ hs => hs.closeEach) (fun _ _ h => h)

end Parts

/-! Statements -/

variable {cx : Context} {f f' : Frame} {j : JumpTargets} {limit n n' : Nat} {d d' : Assembly.DataSection}
  {c : List Assembly.Line}

def Follows (cx : Context) (f f' : Frame) : Part → Prop
  | .stmt s => EachPart Stmt.WellNamed [s] →
    Proceeds f (execute cx s) fun _ t => SameNames f' t
  | .seq body => EachPart Stmt.WellNamed body →
    Proceeds f (executeAll cx body) fun flow t =>
      ∃ g added, f.Extends g added ∧ SameNames g t ∧ (flow = .normal ∨ body.length ≤ 1 → g = f')
  | .scope body => EachPart Stmt.WellNamed body →
    Proceeds f (inScope (executeAll cx body)) fun _ t => SameNames f t
  | .bodies bodies => ∀ entry ∈ bodies, EachPart Stmt.WellNamed entry.2 →
    Proceeds f (inScope (executeAll cx entry.2)) fun _ t => SameNames f t

theorem names_of_mem {s : Stmt} {e : Expr} (hnamed : EachPart Stmt.WellNamed [s]) (he : e ∈ s.exprs) :
    ∀ name ∈ e.names, Unreserved name :=
  (eachPart_head hnamed).exprs e he

theorem proceeds_bodyOf {s : Stmt} (hnamed : EachPart Stmt.WellNamed [s])
    (ih : Follows cx f f (.scope s.bodyOf)) :
    Proceeds f (asBody s.isBlock (execute cx s)) fun _ t => SameNames f t := by
  rw [asBody_eq]
  exact ih (eachPart_bodyOf hnamed)

theorem follows_varDecl {span : Span} {ty : TypeName} {name : String} {init : Option Expr} {kind : SlotKind}
    {len : Option Nat} (hfree : f.isDeclared name = false)
    (hinit : ∀ e ∈ init, (∀ x ∈ e.names, Unreserved x) → Steady f (evaluate cx e)) :
    Follows cx f (f.pushNamed kind len name) (.stmt (.varDecl span ty name init)) := by
  intro hnamed
  have hname : Declarable Unreserved name :=
    wellNamed_declarable (eachPart_head hnamed) List.mem_cons_self rfl
  have hbind (value? : Option Value) : Proceeds f (do
      declareVariable span ty name value?
      return Flow.normal) fun _ t => SameNames (f.pushNamed kind len name) t := by
    apply Triple.bind (proceeds_declareVariable hfree hname)
    exact fun _ => Triple.pure fun _ ht => ht
  unfold execute
  cases init with
  | none =>
    simp only [pure_bind]
    exact hbind none
  | some e =>
    simp only [bind_map_left]
    exact (hinit e rfl (names_of_mem hnamed List.mem_cons_self)).bindProceeds fun v => hbind (some v)

theorem follows_arrayDecl {span : Span} {elem : TypeName} {name : String} {init : ArrayInit}
    {declared : Option Scalar} {s : Scalar} {len : Option Nat} (hfree : f.isDeclared name = false)
    (h : ArrayCode limit f n d declared init s len c n' d') :
    Follows cx f (f.pushNamed (.array s) len name) (.stmt (.arrayDecl span elem 1 name init)) := by
  intro hnamed
  have hstmt := eachPart_head hnamed
  have hname := wellNamed_declarable hstmt (by cases init <;> exact List.mem_cons_self) rfl
  have hinit : (Stmt.arrayDecl span .int 1 name init).WellNamed := by
    refine ⟨?_, ?_, hstmt.declared⟩
    · have := hstmt.ownNames
      cases init <;> exact this
    · have := hstmt.exprs
      cases init <;> exact this
  unfold execute
  apply Triple.bind (proceeds_declareArray hfree hname fun _ _ => steady_initialArray h hinit)
  exact fun _ => Triple.pure fun _ ht => ht

theorem follows_cons {s : Stmt} {rest : List Stmt} {f₁ : Frame} {added : List Slot}
    (hfirst : f.Extends f₁ added) (hrest : rest = [] → f₁ = f')
    (ih₁ : Follows cx f f₁ (.stmt s)) (ih₂ : Follows cx f₁ f' (.seq rest)) :
    Follows cx f f' (.seq (s :: rest)) := by
  intro hnamed
  rw [eachPart_cons] at hnamed
  rw [executeAll]
  have hs : EachPart Stmt.WellNamed [s] := eachPart_cons.mpr ⟨hnamed.1, eachPart_nil⟩
  apply Triple.andThen (R := SameNames f₁)
  · apply (ih₁ hs).post
    intro flow t ht
    have hends (hne : flow ≠ .normal) : ∃ g added, f.Extends g added ∧ SameNames g t ∧
        (flow = .normal ∨ (s :: rest).length ≤ 1 → g = f') := by
      refine ⟨f₁, added, hfirst, ht, ?_⟩
      rintro (rfl | hlength)
      · exact absurd rfl hne
      · exact hrest (List.eq_nil_of_length_eq_zero (by simpa using hlength))
    cases flow with
    | normal => exact ht
    | _ => exact hends (by simp)
  · apply (ih₂ hnamed.2).post
    rintro flow t ⟨g, more, hg, ht, hnormal⟩
    refine ⟨g, _, hfirst.trans hg, ht, ?_⟩
    rintro (rfl | hlength)
    · exact hnormal (.inl rfl)
    · have hlength : rest.length = 0 := by simpa using hlength
      exact hnormal (.inr (by omega))

theorem follows_whileLoop {span : Span} {cond : Expr} {body : Stmt} {len : Option Nat}
    (he : ExprCode f n none cond .bool len c n') (ih : Follows cx f f (.scope body.bodyOf)) :
    Follows cx f f (.stmt (.whileLoop span cond body)) := by
  intro hnamed
  have htest : Steady f (roundTest cx (some cond)) :=
    (steady_evaluate he (names_of_mem hnamed List.mem_cons_self)).condition
  rw [execute_whileLoop]
  exact proceeds_loop htest (proceeds_bodyOf (eachPart_while hnamed) ih) .pure cx.fuel

theorem follows_forLoop {span : Span} {init : Option Stmt} {cond update : Option Expr} {body : Stmt}
    {f₁ : Frame} {added : List Slot} {done : Assembly.Label} {n₁ n₂ n₃ n₄ : Nat}
    {c₁ c₂ : List Assembly.Line} (hadded : f.openScope.Extends f₁ added)
    (hcond : TestCode f₁ n₁ done cond c₁ n₂) (hupdate : UpdateCode f₁ n₃ update c₂ n₄)
    (ih₁ : Follows cx f.openScope f₁ (.seq init.toList)) (ih₂ : Follows cx f₁ f₁ (.scope body.bodyOf)) :
    Follows cx f f (.stmt (.forLoop span init cond update body)) := by
  intro hnamed
  obtain ⟨hinit, hbody⟩ := eachPart_for hnamed
  have hnames := (eachPart_head hnamed).exprs
  have htest : Steady f₁ (roundTest cx cond) :=
    steady_roundTest hcond fun e he => hnames e (by simp [Stmt.exprs, Option.mem_def.mp he])
  have hround : Steady f₁ (roundUpdate cx update) :=
    steady_roundUpdate hupdate fun e he => hnames e (by simp [Stmt.exprs, Option.mem_def.mp he])
  have hloop : Proceeds f₁ (loop (roundTest cx cond) (asBody body.isBlock (execute cx body))
      (roundUpdate cx update) cx.fuel) fun _ t =>
        ∃ g added, f.openScope.Extends g added ∧ SameNames g t := by
    apply (proceeds_loop htest (proceeds_bodyOf hbody ih₂) hround cx.fuel).post
    exact fun _ t ht => ⟨f₁, added, hadded, ht⟩
  have hstart := ih₁ hinit
  rw [execute_forLoop]
  apply proceeds_inScope
  cases init with
  | none =>
    simp only [Option.toList_none, executeAll] at hstart
    have hframe : Proceeds f.openScope (pure Flow.normal) fun _ t => SameNames f₁ t := by
      apply hstart.post
      rintro flow t ⟨g, _, _, ht, hg⟩
      rwa [← hg (.inr (Nat.zero_le 1))]
    exact Triple.bind hframe fun _ => hloop
  | some first =>
    rw [Option.toList_some, executeAll_singleton] at hstart
    have hframe : Proceeds f.openScope (execute cx first) fun _ t => SameNames f₁ t := by
      apply hstart.post
      rintro flow t ⟨g, _, _, ht, hg⟩
      rwa [← hg (.inr (Nat.le_refl 1))]
    exact Triple.bind hframe fun _ => hloop

theorem follows_forEach {span : Span} {declared : TypeName} {name iterable : String} {body : Stmt}
    {offset : Int} {slot : Slot} {elem : Scalar} {f₁ f₂ : Frame}
    (hslot : f.resolve? iterable = some (offset, slot))
    (hf₁ : f₁ = (f.openScope.pushNamed slot.kind slot.length "#base").pushNamed .int none "#idx")
    (hf₂ : f₂ = f₁.openScope.pushNamed (.scalar elem) none name)
    (ih : Follows cx f₂ f₂ (.scope body.bodyOf)) :
    Follows cx f f (.stmt (.forEach span declared name iterable body)) := by
  intro hnamed
  have hstmt := eachPart_head hnamed
  have hname := wellNamed_declarable hstmt List.mem_cons_self rfl
  have hiterable : Unreserved iterable := hstmt.ownNames _ (.tail _ List.mem_cons_self)
  have hbody := proceeds_bodyOf (eachPart_forEach hnamed) ih
  subst hf₁ hf₂
  unfold execute
  apply (steady_readArray hiterable hslot).bindProceeds
  rintro ⟨k, items⟩
  have hcheck : Steady f (liftAt span (checkElement k declared)) := .liftAt fun _ => misnamed?_checkElement
  apply hcheck.bindProceeds
  exact fun _ => proceeds_forValues fun v => proceeds_round hname hbody

theorem follows_switch {span : Span} {subject : Expr} {cases : List SwitchCase}
    {default : Option (List Stmt)} {kind : SlotKind} {len : Option Nat} {m n₁ n₂ : Nat}
    {c₁ c₂ : List Assembly.Line} (he : ExprCode f n none subject kind len c₁ n₁)
    (hcases : CasesCode kind
      ((cases.map SwitchCase.value).zip (Lowering.labelsFrom n₂ cases.length)) c₂)
    (ih : Follows cx f f (.bodies (switchBodies m cases default))) :
    Follows cx f f (.stmt (.switch span subject cases default)) := by
  intro hnamed
  unfold execute
  apply (steady_evaluate he (names_of_mem hnamed List.mem_cons_self)).literal.bindProceeds
  intro v
  apply Triple.bind (proceeds_cases (Lowering.length_labelsFrom _ _) hcases)
  intro position?
  apply proceeds_fallThrough
  intro x hx
  have hx : x ∈ (cases.map SwitchCase.body ++ default.toList).map fun body =>
      inScope (executeAll cx body) := by
    rw [List.map_append, ← caseBodies_eq]
    cases default <;> exact mem_bodiesFrom hx
  obtain ⟨body, hbody, rfl⟩ := List.mem_map.mp hx
  have hnamed := eachPart_switch hnamed hbody
  rw [← snd_switchBodies, List.mem_map] at hbody
  obtain ⟨entry, hentry, rfl⟩ := hbody
  exact ih entry hentry hnamed

theorem StmtCode.follows (cx : Context) {p : Part} (h : StmtCode limit j f n d p c f' n' d') :
    Follows cx f f' p := by
  induction h with
  | declared hfree _ he | inferred hfree he =>
    apply follows_varDecl hfree
    rintro _ ⟨⟩
    exact steady_evaluate he
  | zeroed hfree => exact follows_varDecl hfree nofun
  | arrayDecl hfree _ harray => exact follows_arrayDecl hfree harray
  | expr he =>
    intro hnamed
    unfold execute
    apply (steady_evaluate he (names_of_mem hnamed List.mem_cons_self)).bindProceeds
    exact fun _ => Triple.pure fun _ ht => ht
  | print hprint =>
    intro hnamed
    unfold execute
    apply (steady_evaluateAll hprint (eachPart_head hnamed).exprs).bindProceeds
    intro vs
    apply Triple.bind (R := fun _ t => SameNames _ t)
    · exact fun _ ht => ht
    · exact fun _ => Triple.pure fun _ ht => ht
  | block hbody ih =>
    intro hnamed
    rw [hbody.frame_scope]
    unfold execute
    exact ih (eachPart_block hnamed)
  | ifElse he _ _ ih₁ ih₂ =>
    intro hnamed
    unfold execute
    apply (steady_evaluate he (names_of_mem hnamed List.mem_cons_self)).condition.bindProceeds
    intro b
    split
    · exact proceeds_bodyOf (eachPart_whenTrue hnamed) ih₁
    · exact proceeds_bodyOf (eachPart_whenFalse hnamed) ih₂
  | ifThen he _ ih =>
    intro hnamed
    unfold execute
    apply (steady_evaluate he (names_of_mem hnamed List.mem_cons_self)).condition.bindProceeds
    intro b
    split
    · exact proceeds_bodyOf (eachPart_whenTrue hnamed) ih
    · exact Triple.pure fun _ ht => ht
  | whileLoop he _ ih => exact follows_whileLoop he ih
  | forLoop hseq hcond _ hupdate ih₁ ih₂ =>
    obtain ⟨added, hadded⟩ := hseq.extends
    exact follows_forLoop hadded hcond hupdate ih₁ ih₂
  | forEach hslot _ _ hf₁ hf₂ _ ih => exact follows_forEach hslot hf₁ hf₂ ih
  | switch he hcases _ ih => exact follows_switch he hcases ih
  | breakStmt | continueStmt => exact fun _ => Triple.pure fun _ ht => ht
  | nil =>
    intro _
    rw [executeAll]
    exact Triple.pure fun _ ht => ⟨_, _, .refl, ht, fun _ => rfl⟩
  | cons hs hrest ih₁ ih₂ =>
    obtain ⟨added, hadded⟩ := hs.extends
    apply follows_cons hadded _ ih₁ ih₂
    rintro rfl
    cases hrest with
    | nil => rfl
  | scope _ ih =>
    intro hnamed
    apply proceeds_inScope
    apply (ih hnamed).post
    rintro flow t ⟨g, added, hg, ht, _⟩
    exact ⟨g, added, hg, ht⟩
  | noBody => exact fun _ h => absurd h List.not_mem_nil
  | body _ _ ih₁ ih₂ =>
    intro entry hentry
    rcases List.mem_cons.mp hentry with rfl | hentry
    · exact ih₁
    · exact ih₂ entry hentry

/-! Programs -/

theorem misnamed?_of_runAll {limit fuel n n' : Nat} {config : EvaluatorConfig} {f f' : Frame}
    {d d' : Assembly.DataSection} {c : List Assembly.Line} {body : List Stmt} {s : State}
    (habort : config.abortOnError = true) (hnamed : EachPart Stmt.WellNamed body) (hs : SameNames f s)
    (h : StmtCode limit .empty f n d (.seq body) c f' n' d') :
    ∀ e ∈ (Session.runAll config fuel body s).1, e.kind.misnamed? = none := by
  induction body generalizing f n d c s with
  | nil => simp [Session.runAll]
  | cons stmt rest ih =>
    rw [eachPart_cons] at hnamed
    cases h with
    | cons hstmt hrest =>
      have hend := StmtCode.follows (.of config fuel) hstmt
        (eachPart_cons.mpr ⟨hnamed.1, eachPart_nil⟩) s hs
      unfold Session.runAll
      revert hend
      cases execute (.of config fuel) stmt s with
      | ok flow s' =>
        intro hs'
        cases flow with
        | normal => exact ih hnamed.2 hs' hrest
        | _ => simp [Session.strayError?, habort, EvalErrorKind.misnamed?]
      | error halt s' =>
        intro hhalt
        cases halt with
        | outOfFuel => simp
        | error e => simpa [habort] using (show e.kind.misnamed? = none from hhalt)

end Agreement

end Arbor
