import Arbor.Proofs.Machine.Following
import Arbor.Proofs.Machine.Statements

/-!
This module contains the code of bodies with a scope of their own, in a workspace: the line that the machine gets to
when a body ends, with a signal or without one, and the bodies whose code keeps up with their execution.
-/

namespace Arbor

open Lowering (Frame Slot SlotKind JumpTarget JumpTargets Part StmtCode)

namespace Lowering.Frame

variable {f g : Frame} {kind : SlotKind} {len : Option Nat} {name : String} {n : Nat} {added : List Slot}

theorem isVariable_pushNamed :
    (f.pushNamed kind len name).IsVariable n ↔ f.IsVariable n ∨ n = f.slots.length ∧ Agreement.Plain name := by
  have hslots : (f.pushNamed kind len name).slots.reverse =
      f.slots.reverse ++ [⟨kind, Assembly.wordBytes, f.depth, some name, len⟩] :=
    List.reverse_cons
  unfold IsVariable
  rw [hslots]
  rcases Nat.lt_trichotomy n f.slots.length with hn | rfl | hn
  · rw [List.getElem?_append_left (by rwa [List.length_reverse])]
    simp [Nat.ne_of_lt hn]
  · simp
  · have hnone : (f.slots.reverse ++ [(⟨kind, Assembly.wordBytes, f.depth, some name, len⟩ : Slot)])[n]? = none :=
      List.getElem?_eq_none (by simpa using Nat.succ_le_of_lt hn)
    have hnone' : f.slots.reverse[n]? = none := List.getElem?_eq_none (by simpa using Nat.le_of_lt hn)
    simp [hnone, hnone', Nat.ne_of_gt hn]

theorem IsVariable.pushNamed (h : f.IsVariable n) : (f.pushNamed kind len name).IsVariable n :=
  isVariable_pushNamed.mpr (.inl h)

theorem isVariable_of_extends (h : f.Extends g added) (hn : n < f.slots.length) : g.IsVariable n ↔ f.IsVariable n := by
  unfold IsVariable
  rw [h.slots, List.reverse_append, List.getElem?_append_left (by rwa [List.length_reverse])]

end Lowering.Frame

/--
The statements in a frame that declare variables of ints, bools and chars, evaluate expressions on words, branch,
loop and jump, and the number of words that their code has pushed at a time. What stands after a jump is not
executed.
-/
inductive BodyOnWords : Frame → List Stmt → Nat → Prop where
  | nil {f : Frame} : BodyOnWords f [] 0
  | varDecl {f : Frame} {span : Span} {ty : TypeName} {name : String} {e : Expr} {s : Scalar} {rest : List Stmt}
    {h h' : Nat} :
    Agreement.Declarable Agreement.Plain name → OnWords f e s h → ty = .var ∨ ty.scalar? = some s →
    (∀ len, BodyOnWords (f.pushNamed (.scalar s) len name) rest h') →
    BodyOnWords f (.varDecl span ty name (some e) :: rest) (max h (h' + 1))
  | expr {f : Frame} {span : Span} {e : Expr} {s : Scalar} {rest : List Stmt} {h h' : Nat} :
    OnWords f e s h → BodyOnWords f rest h' → BodyOnWords f (.expr span e :: rest) (max h h')
  | block {f : Frame} {span : Span} {body rest : List Stmt} {h h' : Nat} :
    BodyOnWords f.openScope body h → BodyOnWords f rest h' → BodyOnWords f (.block span body :: rest) (max h h')
  | ifThen {f : Frame} {span : Span} {cond : Expr} {t : Stmt} {rest : List Stmt} {h h₁ h' : Nat} :
    OnWords f cond .bool h → BodyOnWords f.openScope t.bodyOf h₁ → BodyOnWords f rest h' →
    BodyOnWords f (.conditional span cond t none :: rest) (max h (max h₁ h'))
  | ifElse {f : Frame} {span : Span} {cond : Expr} {t e : Stmt} {rest : List Stmt} {h h₁ h₂ h' : Nat} :
    OnWords f cond .bool h → BodyOnWords f.openScope t.bodyOf h₁ → BodyOnWords f.openScope e.bodyOf h₂ →
    BodyOnWords f rest h' →
    BodyOnWords f (.conditional span cond t (some e) :: rest) (max h (max h₁ (max h₂ h')))
  | whileLoop {f : Frame} {span : Span} {cond : Expr} {body : Stmt} {rest : List Stmt} {h h₁ h' : Nat} :
    OnWords f cond .bool h → BodyOnWords f.openScope body.bodyOf h₁ → BodyOnWords f rest h' →
    BodyOnWords f (.whileLoop span cond body :: rest) (max h (max h₁ h'))
  | breakStmt {f : Frame} {span : Span} {rest : List Stmt} : BodyOnWords f (.breakStmt span :: rest) 0
  | continueStmt {f : Frame} {span : Span} {rest : List Stmt} : BodyOnWords f (.continueStmt span :: rest) 0

namespace Machine

open Agreement Assembly Evaluation
open Process (Below below_inLoop)

namespace Workspace

variable {p : Workspace} {k k' m : Nat} {core : Core} {f g : Frame} {kept : Nat → Word} {s : State} {kind : SlotKind}
  {len : Option Nat} {name : String} {v : Value} {env : Environment} {added : List Slot} {j : JumpTargets}
  {level a b : Int} {flow : Flow} {c c₁ c₂ c₃ : List Line} {span : Span} {cx : Context} {heap heap₁ heap₂ : Heap}
  {P : State → Prop}

/-! Frames that change -/

namespace Holds

theorem reframed (h : p.Holds g kept s core) (hle : f.slots.length ≤ g.slots.length)
    (hbound : Bound Plain (p.Variable core) (fun _ => True) f env)
    (hvars : ∀ n < f.slots.length, g.IsVariable n → f.IsVariable n) :
    p.Holds f kept { s with env } (core.set .sp (stackTop p.base f.bytes)) where
  le := Nat.le_trans hle h.le
  sp := Core.get_set (by decide)
  bound := hbound.mono (fun _ _ _ _ hb => hb.congr rfl (Core.get_set_of_ne (by decide))) fun _ _ h => h
  kept n hn hother := h.kept n (Nat.lt_of_lt_of_le hn hle) fun hvar => hother (hvars n hn hvar)
  memory := h.memory
  heap := h.heap.congr (Core.get_set_of_ne (by decide)) fun _ _ => rfl

theorem openScope (h : p.Holds f kept s core) : p.Holds f.openScope kept { s with env := s.env.push } core where
  le := h.le
  sp := h.sp
  bound := h.bound.openScope
  kept := h.kept
  memory := h.memory
  heap := h.heap

theorem declaredWord {w : Word} (h : p.Holds (f.push kind len) (Function.update kept f.slots.length w) s core)
    (hfree : f.isDeclared name = false) (hname : Declarable Plain name)
    (hv : core.loadWord (slotAt p.base f.slots.length) = w →
      p.Variable core f.slots.length ⟨kind, wordBytes, f.depth, some name, len⟩ ⟨kind.kind, v⟩) :
    ∃ env, s.env.declare name kind.kind v = .ok env ∧ p.Holds (f.pushNamed kind len name) kept { s with env } core := by
  obtain ⟨env, hdeclare, hbound⟩ := h.of_push.declare hfree hname (hv (by rw [← h.sp_push, h.top]))
  refine ⟨env, hdeclare, h.le, h.sp, hbound, fun n hn hother => ?_, h.memory, h.heap⟩
  rw [Frame.isVariable_pushNamed, not_or, not_and] at hother
  have hne : n ≠ f.slots.length := fun heq => hother.2 heq hname.visible
  rw [h.kept n hn (fun hvar => hother.1 (Frame.isVariable_push.mp hvar)), Function.update_of_ne hne]

theorem declared {scalar : Scalar}
    (h : p.Holds (f.push (.scalar scalar) len) (Function.update kept f.slots.length (wordOf v)) s core)
    (hv : HasCell (.scalar scalar) v) (hfree : f.isDeclared name = false) (hname : Declarable Plain name) :
    ∃ env, s.env.declare name (.scalar scalar) v = .ok env ∧
      p.Holds (f.pushNamed (.scalar scalar) len name) kept { s with env } core := by
  apply h.declaredWord hfree hname
  intro hword
  refine ⟨h.le, rfl, fun _ _ _ => ⟨hv, hword⟩, nofun, fun scalar' hscalar hother => ?_⟩
  rcases hscalar with hscalar | hscalar <;> cases hscalar
  rw [hv.isCell] at hother
  cases hother

end Holds

/-! Ends of code -/

/--
The machine agrees with a state whose variables are those of a frame, with a number of bytes on the stack.
-/
structure Left (p : Workspace) (f : Frame) (kept : Nat → Word) (level : Int) (s : State) (core : Core) : Prop where
  holds : p.Holds f kept s (core.set .sp (stackTop p.base f.bytes))
  sp : core.get .sp = stackTop p.base level

/--
The line that a signal leads to, and the bytes on the stack there. Without a signal this is the line after the code.
-/
inductive Leads (lines : List Line) (j : JumpTargets) (k' : Nat) (level : Int) : Flow → Nat → Int → Prop where
  | normal : Leads lines j k' level .normal k' level
  | breaking {span : Span} {t : JumpTarget} {m : Nat} :
    j.break? = some t → lines[m]? = some (.label t.label) → Leads lines j k' level (.breaking span) m t.level
  | continuing {span : Span} {t : JumpTarget} {m : Nat} :
    j.continue? = some t → lines[m]? = some (.label t.label) → Leads lines j k' level (.continuing span) m t.level

def Ended (p : Workspace) (j : JumpTargets) (f : Frame) (kept : Nat → Word) (k' : Nat) (level : Int) (flow : Flow)
    (s : State) : Prop :=
  ∃ m b, Leads p.lines j k' level flow m b ∧ p.tracker.At m (p.Left f kept b) s

def Places (p : Workspace) (j : JumpTargets) : Prop :=
  ∀ t, j.break? = some t ∨ j.continue? = some t → ∃ m : Nat, p.lines[m]? = some (.label t.label)

theorem places_inLoop {done next : Label} (hdone : p.lines[k]? = some (.label done))
    (hnext : p.lines[k']? = some (.label next)) : p.Places (j.inLoop done next level) := by
  rintro _ (ht | ht) <;> cases ht
  · exact ⟨k, hdone⟩
  · exact ⟨k', hnext⟩

theorem Holds.left (h : p.Holds f kept s core) : p.Left f kept f.bytes s core := by
  refine ⟨?_, h.sp⟩
  rwa [← h.sp, Core.set_get (by decide)]

theorem Left.of_bytes (h : p.Left f kept f.bytes s core) : p.Holds f kept s core := by
  have hholds := h.holds
  rwa [← h.sp, Core.set_get (by decide)] at hholds

theorem ended_of_at (h : p.tracker.At k (p.Holds f kept) s) : p.Ended j f kept k f.bytes .normal s := by
  obtain ⟨core, hg, h⟩ := h
  exact ⟨_, _, .normal, core, hg, h.left⟩

theorem Left.widened (h : p.Left f kept level s core) (hheap : p.heap.Within heap) :
    (p.withHeap heap).Left f kept level s core :=
  ⟨h.holds.widened hheap, h.sp⟩

namespace Ended

theorem widened (h : p.Ended j f kept k level flow s) (hheap : p.heap.Within heap) :
    (p.withHeap heap).Ended j f kept k level flow s := by
  obtain ⟨m, b, hleads, core, hg, h⟩ := h
  exact ⟨m, b, hleads, core, hg, h.widened hheap⟩

theorem holds (h : p.Ended j f kept k f.bytes .normal s) : p.tracker.At k (p.Holds f kept) s := by
  obtain ⟨_, _, hleads, core, hg, h⟩ := h
  cases hleads
  exact ⟨core, hg, h.of_bytes⟩

theorem signal (h : p.Ended j f kept k a flow s) (hflow : flow ≠ .normal) : p.Ended j f kept k' b flow s := by
  obtain ⟨_, _, hleads, h⟩ := h
  cases hleads with
  | normal => exact (hflow rfl).elim
  | breaking ht hm => exact ⟨_, _, .breaking ht hm, h⟩
  | continuing ht hm => exact ⟨_, _, .continuing ht hm, h⟩

/--
The code is followed by lines that only lead elsewhere.
-/
theorem goOn (h : p.Ended j f kept k a flow s)
    (hgo : ∀ core, Reaches p.layout p.lines p.start ⟨core, k⟩ → Reaches p.layout p.lines p.start ⟨core, k'⟩) :
    p.Ended j f kept k' a flow s := by
  obtain ⟨_, _, hleads, core, hg, h⟩ := h
  cases hleads with
  | normal => exact ⟨_, _, .normal, core, hgo core hg, h⟩
  | breaking ht hm => exact ⟨_, _, .breaking ht hm, core, hg, h⟩
  | continuing ht hm => exact ⟨_, _, .continuing ht hm, core, hg, h⟩

theorem released (h : p.Ended j f kept k a flow s) (hc : CodeAt p.lines k (release (a - b)) k') (hle : b ≤ a) :
    p.Ended j f kept k' b flow s := by
  obtain ⟨_, _, hleads, core, hg, h⟩ := h
  cases hleads with
  | normal =>
    refine ⟨_, _, .normal, _, hg.release hc h.sp hle, ?_, Core.get_set (by decide)⟩
    rw [Core.set_set]
    exact h.holds
  | breaking ht hm => exact ⟨_, _, .breaking ht hm, core, hg, h⟩
  | continuing ht hm => exact ⟨_, _, .continuing ht hm, core, hg, h⟩

end Ended

/-! Pieces of statements -/

theorem Left.closeScope {named : Nat → Slot → Binding → Prop} {temp : Nat → Prop} (h : p.Left g kept level s core)
    (hfg : f.openScope.Extends g added) (h₀ : Bound Plain named temp f env) :
    p.Left f kept level { s with env := s.env.pop } core := by
  have hle : f.slots.length ≤ g.slots.length := by
    rw [hfg.slots, List.length_append]
    exact Nat.le_add_left _ _
  refine ⟨?_, h.sp⟩
  have hclosed := h.holds.reframed hle (h.holds.bound.closeScope hfg h₀)
    fun n hn hvar => (Frame.isVariable_of_extends hfg hn).mp hvar
  rwa [Core.set_set] at hclosed

theorem follows_inScope {x : Run Flow}
    (hx : Triple (p.tracker.At k (p.Holds f.openScope kept)) x
      (fun flow s => ∃ g added, f.openScope.Extends g added ∧ (p.withHeap heap).Ended j g kept k' level flow s)
      p.Halts) :
    Triple (p.tracker.At k (p.Holds f kept)) (inScope x) ((p.withHeap heap).Ended j f kept k' level) p.Halts := by
  -- Closing the scope needs the frame from before it was opened, which the run of `x` says nothing about.
  apply Triple.assuming (p := ∃ named env, Bound Plain named (fun _ => True) f env)
  · rintro s ⟨core, -, h⟩
    exact ⟨_, s.env, Holds.bound h⟩
  rintro ⟨named, env, hbound⟩
  apply Triple.inScope
  apply hx.conseq
  · rintro _ ⟨s, ⟨core, hg, h⟩, rfl⟩
    exact ⟨core, hg, Holds.openScope h⟩
  · rintro flow s ⟨g, added, hfg, m, b, hleads, core, hg, h⟩
    exact ⟨m, b, hleads, core, hg, Left.closeScope (p := p.withHeap heap) h hfg hbound⟩
  · intro h s hs
    cases h with
    | error e => exact hs
    | outOfFuel => exact hs

theorem declare_eq {ty : Kind} (hdeclare : s.env.declare name ty v = .ok env) :
    declare span name ty v s = .ok () { s with env } := by
  change EStateM.bind (liftAt span (s.env.declare name ty v)) setEnvironment s = _
  rw [hdeclare]
  rfl

theorem follows_declare {scalar : Scalar} (hfree : f.isDeclared name = false) (hname : Declarable Plain name) :
    Triple (p.tracker.Pushed f kept (.scalar scalar) len k v) (declare span name (.scalar scalar) v)
      (fun _ => p.tracker.At k (p.Holds (f.pushNamed (.scalar scalar) len name) kept)) p.Halts := by
  rintro s ⟨hv, core, hg, h⟩
  obtain ⟨env, hdeclare, h⟩ := Holds.declared h hv hfree hname
  rw [declare_eq hdeclare]
  exact ⟨core, hg, h⟩

theorem follows_varDecl {ty : TypeName} {scalar : Scalar} {e : Expr} {R : Value → State → Prop} {Q : State → Prop}
    (he : Triple P (evaluate cx e) R p.Halts)
    (hchecked : ∀ v s, R v s → checkDeclared ty (some v) = (.scalar scalar, .ok v))
    (hdeclare : ∀ v, Triple (R v) (declare span name (.scalar scalar) v) (fun _ => Q) p.Halts) :
    Triple P (execute cx (.varDecl span ty name (some e))) (fun flow s => flow = .normal ∧ Q s) p.Halts := by
  unfold execute
  simp only [bind_map_left]
  apply Triple.bind he
  intro v
  apply Triple.assuming (hchecked v)
  intro hv
  have hdeclared : declareVariable span ty name (some v) = declare span name (.scalar scalar) v := by
    unfold declareVariable
    rw [hv]
    rfl
  rw [hdeclared]
  apply Triple.bind (hdeclare v)
  exact fun _ => Triple.pure fun _ hs => ⟨rfl, hs⟩

theorem follows_expr {e : Expr} {R : Value → State → Prop} {Q : State → Prop}
    (he : Triple P (evaluate cx e) R p.Halts) (hQ : ∀ v s, R v s → Q s) :
    Triple P (execute cx (.expr span e)) (fun flow s => flow = .normal ∧ Q s) p.Halts := by
  unfold execute
  apply Triple.bind he
  exact fun v => Triple.pure fun s hs => ⟨rfl, hQ v s hs⟩

theorem Holds.released {w : Word} (h : p.Holds (f.push kind len) (Function.update kept f.slots.length w) s core)
    (hg : Reaches p.layout p.lines p.start ⟨core, k⟩) (hc : CodeAt p.lines k (release wordBytes) k') :
    p.tracker.At k' (p.Holds f kept) s := by
  have hbytes : wordBytes = (f.push kind len).bytes - f.bytes := by
    rw [Frame.bytes_push]
    omega
  have hle : f.bytes ≤ (f.push kind len).bytes := by
    rw [Frame.bytes_push]
    exact Int.le_add_of_nonneg_right (by decide)
  rw [hbytes] at hc
  exact ⟨_, Reaches.release hg hc h.sp hle, h.dropped⟩

theorem follows_bodyOf {stmt : Stmt} {Q : Flow → State → Prop}
    (h : Triple P (inScope (executeAll cx stmt.bodyOf)) Q p.Halts) :
    Triple P (asBody stmt.isBlock (execute cx stmt)) Q p.Halts := by
  rwa [asBody_eq]

theorem follows_conditional {cond : Expr} {whenTrue : Stmt} {whenFalse : Run Flow} {Q : Flow → State → Prop} {l : Label}
    {m₁ m₂ : Nat} (hcond : Triple P (evaluate cx cond) (p.tracker.Pushed f kept .bool len m₁) p.Halts)
    (hc : CodeAt p.lines m₁ (pop .t0 ++ [.beqz .t0 l]) m₂) (hm : p.lines[m]? = some (.label l))
    (htrue : Triple (p.tracker.At m₂ (p.Holds f kept)) (inScope (executeAll cx whenTrue.bodyOf)) Q p.Halts)
    (hfalse : Triple (p.tracker.At (m + 1) (p.Holds f kept)) whenFalse Q p.Halts) :
    Triple P (do
      if ← condition cond.span (evaluate cx cond) then asBody whenTrue.isBlock (execute cx whenTrue)
      else whenFalse) Q p.Halts := by
  apply Triple.bind (Tracker.follows_beqz hcond hc hm)
  intro b
  cases b with
  | true => exact follows_bodyOf htrue
  | false =>
    apply hfalse.pre
    rintro s ⟨core, hg, h⟩
    exact ⟨core, hg.label hm, h⟩

theorem follows_ifThen {cond : Expr} {whenTrue : Stmt} {n : Nat}
    (hcond : ∀ {k'}, CodeAt p.lines k c₁ k' → Triple P (evaluate cx cond) (p.tracker.Pushed f kept .bool len k')
      p.Halts)
    (htrue : ∀ {k k'}, CodeAt p.lines k c₂ k' → Triple (p.tracker.At k (p.Holds f kept))
      (inScope (executeAll cx whenTrue.bodyOf)) ((p.withHeap heap).Ended j f kept k' f.bytes) p.Halts)
    (hheap : p.heap.Within heap)
    (hc : CodeAt p.lines k (c₁ ++ pop .t0 ++ [.beqz .t0 (.numbered n)] ++ c₂ ++ [.label (.numbered n)]) k') :
    Triple P (execute cx (.conditional span cond whenTrue none)) ((p.withHeap heap).Ended j f kept k' f.bytes)
      p.Halts := by
  have hc : CodeAt p.lines k (c₁ ++ ((pop .t0 ++ [.beqz .t0 (.numbered n)]) ++ (c₂ ++
      [.label (.numbered n)]))) k' := by
    simpa only [List.append_assoc, List.cons_append, List.nil_append] using hc
  obtain ⟨k₁, hc₁, hc⟩ := codeAt_append.mp hc
  obtain ⟨k₂, htest, hc⟩ := codeAt_append.mp hc
  obtain ⟨k₃, hc₂, hc⟩ := codeAt_append.mp hc
  obtain ⟨hend, rfl⟩ := codeAt_label.mp hc
  unfold execute
  apply follows_conditional (hcond hc₁) htest hend
  · apply (htrue hc₂).post
    exact fun _ _ hended => Ended.goOn (p := p.withHeap heap) hended fun _ hg => hg.label hend
  · exact Triple.pure fun _ hs => (ended_of_at hs).widened hheap

theorem follows_ifElse {cond : Expr} {whenTrue whenFalse : Stmt} {n m : Nat}
    (hcond : ∀ {k'}, CodeAt p.lines k c₁ k' → Triple P (evaluate cx cond) (p.tracker.Pushed f kept .bool len k')
      p.Halts)
    (htrue : ∀ {k k'}, CodeAt p.lines k c₂ k' → Triple (p.tracker.At k (p.Holds f kept))
      (inScope (executeAll cx whenTrue.bodyOf)) ((p.withHeap heap).Ended j f kept k' f.bytes) p.Halts)
    (hfalse : ∀ {k k'}, CodeAt p.lines k c₃ k' → Triple (p.tracker.At k (p.Holds f kept))
      (inScope (executeAll cx whenFalse.bodyOf)) ((p.withHeap heap).Ended j f kept k' f.bytes) p.Halts)
    (hc : CodeAt p.lines k (c₁ ++ pop .t0 ++ [.beqz .t0 (.numbered m)] ++ c₂
      ++ [.j (.numbered n), .label (.numbered m)] ++ c₃ ++ [.label (.numbered n)]) k') :
    Triple P (execute cx (.conditional span cond whenTrue (some whenFalse)))
      ((p.withHeap heap).Ended j f kept k' f.bytes) p.Halts := by
  have hc : CodeAt p.lines k (c₁ ++ ((pop .t0 ++ [.beqz .t0 (.numbered m)]) ++ (c₂ ++
      (.j (.numbered n) :: .label (.numbered m) :: (c₃ ++ [.label (.numbered n)]))))) k' := by
    simpa only [List.append_assoc, List.cons_append, List.nil_append] using hc
  obtain ⟨k₁, hc₁, hc⟩ := codeAt_append.mp hc
  obtain ⟨k₂, htest, hc⟩ := codeAt_append.mp hc
  obtain ⟨k₃, hc₂, hc⟩ := codeAt_append.mp hc
  obtain ⟨hj, hc⟩ := codeAt_instruction.mp hc
  obtain ⟨helse, hc⟩ := codeAt_label.mp hc
  obtain ⟨k₄, hc₃, hc⟩ := codeAt_append.mp hc
  obtain ⟨hend, rfl⟩ := codeAt_label.mp hc
  unfold execute
  apply follows_conditional (hcond hc₁) htest helse
  · apply (htrue hc₂).post
    exact fun _ _ hended => Ended.goOn (p := p.withHeap heap) hended fun _ hg =>
      (hg.jump hj hend (p.linked.unique _)).label hend
  · apply (follows_bodyOf (hfalse hc₃)).post
    exact fun _ _ hended => Ended.goOn (p := p.withHeap heap) hended fun _ hg => hg.label hend

/--
A loop whose test is at its first line. The signals of a round lead to the labels of the loop, and each of them is
at one line only.
-/
theorem follows_whileLoop {cond : Expr} {body : Stmt} {n m : Nat}
    (hcond : ∀ {k k'}, CodeAt p.lines k c₁ k' → Triple (p.tracker.At k (p.Holds f kept)) (evaluate cx cond)
      (p.tracker.Pushed f kept .bool len k') p.Halts)
    (hbody : ∀ {k k'}, CodeAt p.lines k c₂ k' → p.Places (j.inLoop (.numbered m) (.numbered n) f.bytes) →
      Triple (p.tracker.At k (p.Holds f kept)) (inScope (executeAll cx body.bodyOf))
        (p.Ended (j.inLoop (.numbered m) (.numbered n) f.bytes) f kept k' f.bytes) p.Halts)
    (hc : CodeAt p.lines k ([.label (.numbered n)] ++ c₁ ++ pop .t0 ++ [.beqz .t0 (.numbered m)] ++ c₂
      ++ [.j (.numbered n), .label (.numbered m)]) k') :
    Triple (p.tracker.At k (p.Holds f kept)) (execute cx (.whileLoop span cond body)) (p.Ended j f kept k' f.bytes)
      p.Halts := by
  have hc : CodeAt p.lines k (.label (.numbered n) :: (c₁ ++ ((pop .t0 ++ [.beqz .t0 (.numbered m)]) ++ (c₂ ++
      [.j (.numbered n), .label (.numbered m)])))) k' := by
    simpa only [List.append_assoc, List.cons_append, List.nil_append] using hc
  obtain ⟨htop, hc⟩ := codeAt_label.mp hc
  obtain ⟨k₁, hc₁, hc⟩ := codeAt_append.mp hc
  obtain ⟨k₂, htest, hc⟩ := codeAt_append.mp hc
  obtain ⟨k₃, hc₂, hc⟩ := codeAt_append.mp hc
  simp only [codeAt_instruction, codeAt_label, codeAt_nil] at hc
  obtain ⟨hj, hdone, rfl⟩ := hc
  have hlabels {m n : Nat} {l : Label} (hm : p.lines[m]? = some (.label l)) (hn : p.lines[n]? = some (.label l)) :
      m = n :=
    Lowering.eq_of_labelCount_le_one (p.linked.unique l) hm hn
  have hround : Triple (p.tracker.At k (p.Holds f kept)) (condition cond.span (evaluate cx cond))
      (fun b => p.tracker.At (if b then k₂ else k₃ + 1) (p.Holds f kept)) p.Halts := by
    apply (Tracker.follows_beqz (hcond hc₁) htest hdone).pre
    rintro s ⟨core, hg, h⟩
    exact ⟨core, hg.label htop, h⟩
  unfold execute
  apply Triple.loop (B := p.tracker.At k₂ (p.Holds f kept)) (U := p.tracker.At k (p.Holds f kept))
  · apply hround.post
    intro b s hs
    cases b with
    | true => exact hs
    | false =>
      obtain ⟨core, hg, h⟩ := hs
      exact ended_of_at ⟨core, hg.label hdone, h⟩
  · apply (follows_bodyOf (hbody hc₂ (places_inLoop hdone htop))).post
    rintro flow s ⟨m, b, hleads, core, hg, h⟩
    cases hleads with
    | normal => exact ⟨core, hg.jump hj htop (p.linked.unique _), h.of_bytes⟩
    | breaking ht hm =>
      cases ht
      rw [hlabels hm hdone] at hg
      exact ended_of_at ⟨core, hg.label hdone, h.of_bytes⟩
    | continuing ht hm =>
      cases ht
      rw [hlabels hm htop] at hg
      exact ⟨core, hg, h.of_bytes⟩
  · exact Triple.pure fun _ hs => hs
  · exact fun _ _ => trivial

theorem follows_jump {t : JumpTarget} {i : Nat} (hle : t.level ≤ f.bytes) (hm : p.lines[m]? = some (.label t.label))
    (hleads : Leads p.lines j k' level flow m t.level)
    (hc : CodeAt p.lines k (release (f.bytes - t.level) ++ [.j t.label]) i) :
    Triple (p.tracker.At k (p.Holds f kept)) (pure flow) (p.Ended j f kept k' level) p.Halts := by
  obtain ⟨k₁, hrelease, hj⟩ := codeAt_append.mp hc
  obtain ⟨hj, -⟩ := codeAt_instruction.mp hj
  apply Triple.pure
  rintro s ⟨core, hg, h⟩
  have hreleased := Reaches.release hg hrelease (Holds.sp h) hle
  refine ⟨m, t.level, hleads, _, hreleased.jump hj hm (p.linked.unique _), ?_, Core.get_set (by decide)⟩
  rw [Core.set_set]
  exact (Holds.left h).holds

/-! Bodies -/

section

variable {body rest : List Stmt} {height h h' h₁ h₂ : Nat} {f' : Frame} {heap₃ : Heap}

/--
The machine gets to the line that a signal of some statements leads to. If they end with a signal, some of their
variables may be undeclared.
-/
def AllEnded (p : Workspace) (j : JumpTargets) (f f' : Frame) (kept : Nat → Word) (k' : Nat) (flow : Flow) (s : State) :
    Prop :=
  ∃ g added, f.Extends g added ∧ (flow = .normal → g = f') ∧ p.Ended j g kept k' f'.bytes flow s

/--
The code of statements in a frame keeps up with their execution, if there is room for a number of words above those
of the frame, and the stack can be released to the targets of jumps. What is known of the heap may be something else
afterwards.
-/
structure ExecutesAll (p : Workspace) (cx : Context) (f : Frame) (body : List Stmt) (height : Nat) (heap : Heap) :
    Prop where
  run : ∀ {limit n n' k k' : Nat} {j : JumpTargets} {d d' : DataSection} {c : List Line} {kept : Nat → Word}
    {f' : Frame},
    StmtCode limit j f n d (.seq body) c f' n' d' → Below j f → p.Places j → f.slots.length + height ≤ p.limit →
    CodeAt p.lines k c k' →
    Triple (p.tracker.At k (p.Holds f kept)) (executeAll cx body) ((p.withHeap heap).AllEnded j f f' kept k') p.Halts

structure Executes (p : Workspace) (cx : Context) (f : Frame) (body : List Stmt) (height : Nat) (heap : Heap) :
    Prop where
  run : ∀ {limit n n' k k' : Nat} {j : JumpTargets} {d d' : DataSection} {c : List Line} {kept : Nat → Word},
    StmtCode limit j f n d (.scope body) c f n' d' → Below j f → p.Places j → f.slots.length + height ≤ p.limit →
    CodeAt p.lines k c k' →
    Triple (p.tracker.At k (p.Holds f kept)) (inScope (executeAll cx body))
      ((p.withHeap heap).Ended j f kept k' f.bytes)
      p.Halts

/--
The code of a body keeps up with its execution in every listing, and from every machine that agrees with the evaluator.
-/
def KeepsUp (p : Workspace) (cx : Context) (f : Frame) (body : List Stmt) (height : Nat) (heap : Heap) : Prop :=
  ∀ ⦃lines : List Line⦄ (hlinked : Linked p.layout lines) ⦃start : Hart⦄, p.Resumes start →
    (p.relisted hlinked start).Executes cx f body height heap

theorem ExecutesAll.mono (h : p.ExecutesAll cx f body height heap₁) (hheap : heap₁.Within heap₂) :
    p.ExecutesAll cx f body height heap₂ where
  run hcode hbelow hplaces hroom hc := (h.run hcode hbelow hplaces hroom hc).post
    fun _ _ ⟨g, added, hadded, hnormal, hended⟩ =>
      ⟨g, added, hadded, hnormal, Ended.widened (p := p.withHeap heap₁) hended hheap⟩

theorem Executes.mono (h : p.Executes cx f body height heap₁) (hheap : heap₁.Within heap₂) :
    p.Executes cx f body height heap₂ where
  run hcode hbelow hplaces hroom hc := (h.run hcode hbelow hplaces hroom hc).post fun _ _ hended =>
    Ended.widened (p := p.withHeap heap₁) hended hheap

theorem KeepsUp.mono (h : p.KeepsUp cx f body height heap₁) (hheap : heap₁.Within heap₂) :
    p.KeepsUp cx f body height heap₂ :=
  fun _ hlinked _ hstart => (h hlinked hstart).mono hheap

theorem ExecutesAll.executes (h : p.ExecutesAll cx f.openScope body height heap) :
    p.Executes cx f body height heap := by
  constructor
  intro limit n n' k k' j d d' c kept hcode hbelow hplaces hroom hc
  cases hcode with
  | scope hseq =>
    obtain ⟨k₁, hc₁, hrelease⟩ := codeAt_append.mp hc
    apply follows_inScope
    apply (h.run hseq hbelow hplaces hroom hc₁).post
    rintro flow s ⟨g, added, hadded, -, hended⟩
    exact ⟨g, added, hadded, Ended.released (p := p.withHeap heap) hended hrelease hseq.bytes_le⟩

/--
The first of some statements may end with a signal. The rest is skipped then, and its declarations with it.
-/
theorem follows_cons {stmt : Stmt} {k₁ : Nat} {f₁ : Frame} (hfirst : f.Extends f₁ added)
    (hs : Triple P (execute cx stmt) (p.Ended j f₁ kept k₁ f₁.bytes) p.Halts)
    (hrest : Triple (p.tracker.At k₁ (p.Holds f₁ kept)) (executeAll cx rest)
      ((p.withHeap heap).AllEnded j f₁ f' kept k') p.Halts) (hheap : p.heap.Within heap) :
    Triple P (executeAll cx (stmt :: rest)) ((p.withHeap heap).AllEnded j f f' kept k') p.Halts := by
  rw [executeAll]
  apply Triple.andThen (R := p.tracker.At k₁ (p.Holds f₁ kept))
  · apply hs.post
    intro flow s hended
    have hsignal (hflow : flow ≠ .normal) : (p.withHeap heap).AllEnded j f f' kept k' flow s :=
      ⟨f₁, added, hfirst, fun h => absurd h hflow, (hended.widened hheap).signal hflow⟩
    cases flow with
    | normal => exact hended.holds
    | _ => exact hsignal (by simp)
  · apply hrest.post
    rintro flow s ⟨g, more, hmore, hnormal, hended⟩
    exact ⟨g, _, hfirst.trans hmore, hnormal, hended⟩

theorem follows_next {stmt : Stmt} {k₁ : Nat} {f₁ : Frame} (hfirst : f.Extends f₁ added)
    (hs : Triple P (execute cx stmt) (fun flow s => flow = .normal ∧ p.tracker.At k₁ (p.Holds f₁ kept) s) p.Halts)
    (hrest : Triple (p.tracker.At k₁ (p.Holds f₁ kept)) (executeAll cx rest)
      ((p.withHeap heap).AllEnded j f₁ f' kept k') p.Halts) :
    Triple P (executeAll cx (stmt :: rest)) ((p.withHeap heap).AllEnded j f f' kept k') p.Halts := by
  rw [executeAll]
  apply Triple.andThen (R := p.tracker.At k₁ (p.Holds f₁ kept))
  · apply hs.post
    rintro _ s ⟨rfl, hs⟩
    exact hs
  · apply hrest.post
    rintro flow s ⟨g, more, hmore, hnormal, hended⟩
    exact ⟨g, _, hfirst.trans hmore, hnormal, hended⟩

theorem follows_jumping {stmt : Stmt} (flow : Flow) (hexecute : execute cx stmt = pure flow) (hflow : flow ≠ .normal)
    (hs : Triple P (pure flow) (p.Ended j f kept k' f'.bytes) p.Halts) :
    Triple P (executeAll cx (stmt :: rest)) (p.AllEnded j f f' kept k') p.Halts := by
  have hskip : executeAll cx (stmt :: rest) = pure flow := by
    rw [executeAll, hexecute, andThen, pure_bind]
    cases flow with
    | normal => exact absurd rfl hflow
    | _ => rfl
  rw [hskip]
  exact fun s hs' => ⟨f, [], .refl, fun h => absurd h hflow, hs s hs'⟩

/-! Rules -/

namespace ExecutesAll

theorem nil : p.ExecutesAll cx f [] 0 p.heap := by
  constructor
  intro limit n n' k k' j d d' c kept f' hcode _ _ _ hc
  cases hcode with
  | nil =>
    cases hc
    rw [executeAll]
    exact Triple.pure fun _ hs => ⟨_, _, .refl, fun _ => rfl, ended_of_at hs⟩

theorem varDecl {ty : TypeName} {scalar : Scalar} {e : Expr} (hname : Declarable Plain name)
    (hty : ty = .var ∨ ty.scalar? = some scalar) (he : p.Pushes cx f e (.scalar scalar) h heap₁)
    (hrest : ∀ len, (p.withHeap heap₁).ExecutesAll cx (f.pushNamed (.scalar scalar) len name) rest h' heap₂) :
    p.ExecutesAll cx f (.varDecl span ty name (some e) :: rest) (max h (h' + 1)) heap₂ := by
  constructor
  intro limit n n' k k' j d d' c kept f' hcode hbelow hplaces hroom hc
  have hroom' (len : Option Nat) : (f.pushNamed (.scalar scalar) len name).slots.length + h' ≤ p.limit := by
    have hlength : (f.pushNamed (.scalar scalar) len name).slots.length = f.slots.length + 1 := rfl
    omega
  cases hcode with
  | cons hs hcode =>
    obtain ⟨k₁, hc₁, hc₂⟩ := codeAt_append.mp hc
    obtain ⟨added, hadded⟩ := hs.extends
    cases hs with
    | declared hfree hscalar hdeclared =>
      rcases hty with rfl | hty
      · cases hscalar
      cases hty.symm.trans hscalar
      refine follows_next (p := p.withHeap heap₁) hadded (follows_varDecl (he.asked .refl hdeclared (by omega) hc₁)
        (fun v s hs => ?_) fun v => follows_declare (p := p.withHeap heap₁) hfree hname)
        ((hrest _).run hcode (hbelow.mono hadded.bytes_le) hplaces (hroom' _) hc₂)
      rw [checkDeclared_scalar hscalar]
      exact Prod.ext rfl (coerce_of_kind hs.value.kind_eq)
    | inferred hfree hdeclared =>
      cases he.kind_eq .refl hdeclared
      exact follows_next (p := p.withHeap heap₁) hadded (follows_varDecl (he.run .refl hdeclared (by omega) hc₁)
        (fun v s hs => checkDeclared_var hs.value.kind_eq) fun v => follows_declare (p := p.withHeap heap₁) hfree hname)
        ((hrest _).run hcode (hbelow.mono hadded.bytes_le) hplaces (hroom' _) hc₂)

theorem expr {e : Expr} (he : p.Pushes cx f e kind h heap₁)
    (hrest : (p.withHeap heap₁).ExecutesAll cx f rest h' heap₂) :
    p.ExecutesAll cx f (.expr span e :: rest) (max h h') heap₂ := by
  constructor
  intro limit n n' k k' j d d' c kept f' hcode hbelow hplaces hroom hc
  cases hcode with
  | cons hs hcode =>
    obtain ⟨k₁, hc₁, hc₂⟩ := codeAt_append.mp hc
    cases hs with
    | expr hexpr =>
      obtain ⟨m, hvalue, hrelease⟩ := codeAt_append.mp hc₁
      cases he.kind_eq .refl hexpr
      exact follows_next (p := p.withHeap heap₁) .refl
        (follows_expr (he.run .refl hexpr (by omega) hvalue) fun v s ⟨_, core, hg, h⟩ =>
          Holds.released (p := p.withHeap heap₁) h hg hrelease)
        (hrest.run hcode hbelow hplaces (show _ ≤ p.limit by omega) hc₂)

theorem block (hbody : p.Executes cx f body h heap₁) (hrest : (p.withHeap heap₁).ExecutesAll cx f rest h' heap₂)
    (hheap : heap₁.Within heap₂) : p.ExecutesAll cx f (.block span body :: rest) (max h h') heap₂ := by
  constructor
  intro limit n n' k k' j d d' c kept f' hcode hbelow hplaces hroom hc
  cases hcode with
  | cons hs hcode =>
    obtain ⟨k₁, hc₁, hc₂⟩ := codeAt_append.mp hc
    cases hs with
    | block hscope =>
      obtain rfl := hscope.frame_scope
      refine follows_cons (p := p.withHeap heap₁) .refl ?_
        (hrest.run hcode hbelow hplaces (show _ ≤ p.limit by omega) hc₂) hheap
      rw [execute]
      exact hbody.run hscope hbelow hplaces (by omega) hc₁

theorem ifThen {cond : Expr} {t : Stmt} (hcond : p.Pushes cx f cond .bool h heap₁)
    (ht : (p.withHeap heap₁).Executes cx f t.bodyOf h₁ heap₂)
    (hrest : (p.withHeap heap₂).ExecutesAll cx f rest h' heap₃) (h₁₂ : heap₁.Within heap₂) (h₂₃ : heap₂.Within heap₃) :
    p.ExecutesAll cx f (.conditional span cond t none :: rest) (max h (max h₁ h')) heap₃ := by
  constructor
  intro limit n n' k k' j d d' c kept f' hcode hbelow hplaces hroom hc
  cases hcode with
  | cons hs hcode =>
    obtain ⟨k₁, hc₁, hc₂⟩ := codeAt_append.mp hc
    cases hs with
    | ifThen hexpr hscope =>
      exact follows_cons (p := p.withHeap heap₂) .refl (follows_ifThen (p := p.withHeap heap₁)
        (hcond.run .refl hexpr (by omega)) (ht.run hscope hbelow hplaces (show _ ≤ p.limit by omega)) h₁₂ hc₁)
        (hrest.run hcode hbelow hplaces (show _ ≤ p.limit by omega) hc₂) h₂₃

theorem ifElse {cond : Expr} {t e : Stmt} (hcond : p.Pushes cx f cond .bool h heap₁)
    (ht : (p.withHeap heap₁).Executes cx f t.bodyOf h₁ heap₂) (he : (p.withHeap heap₁).Executes cx f e.bodyOf h₂ heap₂)
    (hrest : (p.withHeap heap₂).ExecutesAll cx f rest h' heap₃) (hheap : heap₂.Within heap₃) :
    p.ExecutesAll cx f (.conditional span cond t (some e) :: rest) (max h (max h₁ (max h₂ h'))) heap₃ := by
  constructor
  intro limit n n' k k' j d d' c kept f' hcode hbelow hplaces hroom hc
  cases hcode with
  | cons hs hcode =>
    obtain ⟨k₁, hc₁, hc₂⟩ := codeAt_append.mp hc
    cases hs with
    | ifElse hexpr hscope helse =>
      exact follows_cons (p := p.withHeap heap₂) .refl (follows_ifElse (p := p.withHeap heap₁)
        (hcond.run .refl hexpr (by omega)) (ht.run hscope hbelow hplaces (show _ ≤ p.limit by omega))
        (he.run helse hbelow hplaces (show _ ≤ p.limit by omega)) hc₁)
        (hrest.run hcode hbelow hplaces (show _ ≤ p.limit by omega) hc₂) hheap

/--
There may be any number of rounds, so they are to leave the heap as it is.
-/
theorem whileLoop {cond : Expr} {stmt : Stmt} (hcond : p.Pushes cx f cond .bool h p.heap)
    (hbody : p.Executes cx f stmt.bodyOf h₁ p.heap) (hrest : p.ExecutesAll cx f rest h' heap)
    (hheap : p.heap.Within heap) : p.ExecutesAll cx f (.whileLoop span cond stmt :: rest) (max h (max h₁ h')) heap := by
  constructor
  intro limit n n' k k' j d d' c kept f' hcode hbelow hplaces hroom hc
  cases hcode with
  | cons hs hcode =>
    obtain ⟨k₁, hc₁, hc₂⟩ := codeAt_append.mp hc
    cases hs with
    | whileLoop hexpr hscope =>
      exact follows_cons .refl (follows_whileLoop (hcond.run .refl hexpr (by omega))
        (fun hc hplaces => hbody.run hscope below_inLoop hplaces (by omega) hc) hc₁)
        (hrest.run hcode hbelow hplaces (by omega) hc₂) hheap

theorem breakStmt : p.ExecutesAll cx f (.breakStmt span :: rest) 0 p.heap := by
  constructor
  intro limit n n' k k' j d d' c kept f' hcode hbelow hplaces _ hc
  cases hcode with
  | cons hs =>
    obtain ⟨k₁, hc₁, -⟩ := codeAt_append.mp hc
    cases hs with
    | breakStmt htarget =>
      obtain ⟨m, hm⟩ := hplaces _ (.inl htarget)
      exact follows_jumping (.breaking _) (by rw [execute]) (by rintro ⟨⟩)
        (follows_jump (hbelow _ (.inl htarget)) hm (.breaking htarget hm) hc₁)

theorem continueStmt : p.ExecutesAll cx f (.continueStmt span :: rest) 0 p.heap := by
  constructor
  intro limit n n' k k' j d d' c kept f' hcode hbelow hplaces _ hc
  cases hcode with
  | cons hs =>
    obtain ⟨k₁, hc₁, -⟩ := codeAt_append.mp hc
    cases hs with
    | continueStmt htarget =>
      obtain ⟨m, hm⟩ := hplaces _ (.inr htarget)
      exact follows_jumping (.continuing _) (by rw [execute]) (by rintro ⟨⟩)
        (follows_jump (hbelow _ (.inr htarget)) hm (.continuing htarget hm) hc₁)

end ExecutesAll

/--
The code of statements on words keeps up with their execution, and leaves the heap as it is.
-/
theorem executesAll_of_bodyOnWords (hbody : BodyOnWords f body height) : p.ExecutesAll cx f body height p.heap := by
  induction hbody with
  | nil => exact .nil
  | varDecl hname he hty _ ih => exact .varDecl hname hty (pushes_of_onWords he) ih
  | expr he _ ih => exact .expr (pushes_of_onWords he) ih
  | block _ _ ih₁ ih₂ => exact .block ih₁.executes ih₂ (.refl _)
  | ifThen he _ _ ih₁ ih₂ => exact .ifThen (pushes_of_onWords he) ih₁.executes ih₂ (.refl _) (.refl _)
  | ifElse he _ _ _ ih₁ ih₂ ih₃ => exact .ifElse (pushes_of_onWords he) ih₁.executes ih₂.executes ih₃ (.refl _)
  | whileLoop he _ _ ih₁ ih₂ => exact .whileLoop (pushes_of_onWords he) ih₁.executes ih₂ (.refl _)
  | breakStmt => exact .breakStmt
  | continueStmt => exact .continueStmt

theorem keepsUp_of_bodyOnWords (hbody : BodyOnWords f.openScope body height) : p.KeepsUp cx f body height p.heap :=
  fun _ _ _ _ => (executesAll_of_bodyOnWords hbody).executes

end

end Workspace

end Machine

end Arbor
