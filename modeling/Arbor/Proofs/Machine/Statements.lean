import Arbor.Proofs.Agreement.Execution
import Arbor.Proofs.Machine.Printing

/-!
This module contains the code of declarations, blocks, branches, loops and jumps: which line the machine gets to when a
statement ends, with a signal or without one, and how many bytes are on the stack there.
-/

namespace Arbor.Machine.Process

open Agreement Assembly Evaluation
open Lowering (Frame Slot SlotKind JumpTarget JumpTargets ExprCode TestCode UpdateCode PrintCode printCode)

/--
The machine stands for a state whose variables are those of a frame, with a number of bytes on the stack. It is about to
print a new line.
-/
structure Left (p : Process) (f : Frame) (kept : Nat → Word) (level : Int) (s : State) (core : Core) :
    Prop extends Stands p.layout p.base f kept [] s core where
  sp : core.get .sp = stackTop p.base level

inductive Leads (p : Process) (j : JumpTargets) (k' : Nat) (level : Int) : Flow → Nat → Int → Prop where
  | normal : Leads p j k' level .normal k' level
  | breaking {span : Span} {t : JumpTarget} {m : Nat} :
    j.break? = some t → p.lines[m]? = some (.label t.label) →
    Leads p j k' level (.breaking span) m t.level
  | continuing {span : Span} {t : JumpTarget} {m : Nat} :
    j.continue? = some t → p.lines[m]? = some (.label t.label) →
    Leads p j k' level (.continuing span) m t.level

/--
The machine gets to the line that a signal leads to.
-/
def Ended (p : Process) (j : JumpTargets) (f : Frame) (kept : Nat → Word) (k' : Nat) (level : Int) (flow : Flow)
    (s : State) : Prop :=
  ∃ m b, p.Leads j k' level flow m b ∧ p.At m (p.Left f kept b) s

def Below (j : JumpTargets) (f : Frame) : Prop :=
  ∀ t, j.break? = some t ∨ j.continue? = some t → t.level ≤ f.bytes

section Pieces

variable {p : Process} {j : JumpTargets} {f g : Frame} {kept : Nat → Word} {k k' m n : Nat}
  {level a b : Int} {flow : Flow} {s : State} {core : Core} {kind : SlotKind} {len : Option Nat}
  {v : Value} {cx : Context} {c : List Line} {span : Span} {added : List Slot}

theorem below_empty : Below .empty f := by
  rintro t (h | h) <;> cases h

theorem Below.mono (h : Below j f) (hle : f.bytes ≤ g.bytes) : Below j g :=
  fun t ht => Int.le_trans (h t ht) hle

theorem Below.pushBreak {t : JumpTarget} (h : Below j f) (hle : t.level ≤ f.bytes) :
    Below (j.pushBreak t) f := by
  rintro _ (ht | ht)
  · cases ht
    exact hle
  · exact h _ (.inr ht)

theorem below_inLoop {done next : Label} : Below (j.inLoop done next f.bytes) f := by
  rintro _ (ht | ht) <;> cases ht <;> exact Int.le_refl _

/-! Ends of code -/

theorem Holds.left (h : p.Holds f kept [] s core) : p.Left f kept f.bytes s core :=
  ⟨h.toStands, h.sp⟩

theorem Left.holds (h : p.Left f kept f.bytes s core) : p.Holds f kept [] s core :=
  ⟨h.toStands, h.sp⟩

theorem At.ended (h : p.At k (p.Holds f kept []) s) : p.Ended j f kept k f.bytes .normal s := by
  obtain ⟨core, hg, h⟩ := h
  exact ⟨_, _, .normal, core, hg, h.left⟩

namespace Ended

theorem holds (h : p.Ended j f kept k f.bytes .normal s) : p.At k (p.Holds f kept []) s := by
  obtain ⟨_, _, hleads, core, hg, h⟩ := h
  cases hleads
  exact ⟨core, hg, h.holds⟩

theorem signal (h : p.Ended j f kept k a flow s) (hflow : flow ≠ .normal) :
    p.Ended j f kept k' b flow s := by
  obtain ⟨_, _, hleads, h⟩ := h
  cases hleads with
  | normal => exact (hflow rfl).elim
  | breaking ht hm => exact ⟨_, _, .breaking ht hm, h⟩
  | continuing ht hm => exact ⟨_, _, .continuing ht hm, h⟩

theorem goOn (h : p.Ended j f kept k a flow s) (hgo : ∀ core, p.Gets k core → p.Gets k' core) :
    p.Ended j f kept k' a flow s := by
  obtain ⟨_, _, hleads, core, hg, h⟩ := h
  cases hleads with
  | normal => exact ⟨_, _, .normal, core, hgo core hg, h⟩
  | breaking ht hm => exact ⟨_, _, .breaking ht hm, core, hg, h⟩
  | continuing ht hm => exact ⟨_, _, .continuing ht hm, core, hg, h⟩

theorem released (h : p.Ended j f kept k a flow s) (hc : CodeAt p.lines k (release (a - b)) k')
    (hle : b ≤ a) : p.Ended j f kept k' b flow s := by
  obtain ⟨_, _, hleads, core, hg, h⟩ := h
  cases hleads with
  | normal =>
    exact ⟨_, _, .normal, _, hg.release hc h.sp hle, h.toStands.set, Core.get_set (by decide)⟩
  | breaking ht hm => exact ⟨_, _, .breaking ht hm, core, hg, h⟩
  | continuing ht hm => exact ⟨_, _, .continuing ht hm, core, hg, h⟩

end Ended

/-! Scopes -/

theorem Holds.openScope (h : p.Holds f kept [] s core) :
    p.Holds f.openScope kept [] { s with env := s.env.push } core where
  words := by
    obtain ⟨words, hwords⟩ := h.words
    exact ⟨words, hwords.load, hwords.bound.openScope⟩
  room := h.room
  strings := h.strings
  output := h.output
  sp := h.sp

theorem Left.closeScope {env : Environment} {words : Nat → Word} (h : p.Left g kept level s core)
    (hfg : f.openScope.Extends g added)
    (h₀ : Bound (fun _ => True) (Named words) (fun n => words n = kept n) f env) :
    p.Left f kept level { s with env := s.env.pop } core where
  words := by
    obtain ⟨words, hwords⟩ := h.words
    refine ⟨words, fun n hn => hwords.load n ?_, hwords.bound.closeScope hfg h₀⟩
    rw [hfg.slots, List.length_append]
    exact Nat.lt_add_left _ hn
  room := by
    have hroom := h.room
    rw [hfg.slots, List.length_append] at hroom
    have : f.openScope.slots.length = f.slots.length := rfl
    omega
  strings := h.strings
  output := h.output
  sp := h.sp

theorem follows_inScope {x : Run Flow}
    (hx : Triple (p.At k (p.Holds f.openScope kept [])) x
      (fun flow s => ∃ g added, f.openScope.Extends g added ∧ p.Ended j g kept k' level flow s) p.Halts) :
    Triple (p.At k (p.Holds f kept [])) (inScope x) (p.Ended j f kept k' level) p.Halts := by
  -- Closing the scope needs the frame from before it was opened, which the run of `x` says nothing about.
  apply Triple.assuming
    (p := ∃ words env, Bound (fun _ => True) (Named words) (fun n => words n = kept n) f env)
  · rintro s ⟨core, -, h⟩
    obtain ⟨words, hwords⟩ := h.words
    exact ⟨words, s.env, hwords.bound⟩
  rintro ⟨words, env, hbound⟩
  apply Triple.inScope
  apply hx.conseq
  · rintro _ ⟨s, ⟨core, hg, h⟩, rfl⟩
    exact ⟨core, hg, h.openScope⟩
  · rintro flow s ⟨g, added, hfg, m, b, hleads, core, hg, h⟩
    exact ⟨m, b, hleads, core, hg, h.closeScope hfg hbound⟩
  · intro h s hs
    cases h with
    | error e => exact hs
    | outOfFuel => exact hs

/-! Declarations -/

theorem Pushed.dropped {pending : List UInt8} (h : p.Pushed f kept pending kind len k v s)
    (hc : CodeAt p.lines k (release wordBytes) k') : p.At k' (p.Holds f kept pending) s := by
  obtain ⟨-, core, hg, h⟩ := h
  have hbytes : wordBytes = (f.push kind len).bytes - f.bytes := by
    rw [Frame.bytes_push]
    omega
  have hle : f.bytes ≤ (f.push kind len).bytes := by
    rw [Frame.bytes_push]
    exact Int.le_add_of_nonneg_right (by decide)
  rw [hbytes] at hc
  refine ⟨_, hg.release hc h.sp hle, ?_, Core.get_set (by decide)⟩
  obtain ⟨words, hwords⟩ := h.words
  have hroom : 4 * (f.slots.length + 1) < 2 ^ 32 := h.room
  have hdropped : Stands p.layout p.base f kept pending s core :=
    ⟨⟨words, hwords.pop⟩, by omega, h.strings, h.output⟩
  exact hdropped.set

theorem follows_declareVariable {ty : TypeName} {name : String} {v? : Option Value}
    (hfree : f.isDeclared name = false) (hname : Environment.embedded.lookup name = none)
    (hchecked : checkDeclared ty v? = (kind.kind, .ok v)) :
    Triple (p.Pushed f kept [] kind len k v) (declareVariable span ty name v?)
      (fun _ => p.At k (p.Holds (f.pushNamed kind len name) kept [])) p.Halts := by
  rintro s ⟨hv, core, hg, h⟩
  obtain ⟨words, hwords⟩ := h.words
  obtain ⟨env, hdeclare, hwords⟩ := hwords.declare hv hfree hname
  have hrun : declareVariable span ty name v? s = .ok () { s with env } := by
    unfold declareVariable
    rw [hchecked]
    change EStateM.bind (liftAt span (s.env.declare name kind.kind v)) setEnvironment s = _
    rw [hdeclare]
    rfl
  rw [hrun]
  refine ⟨core, hg, ⟨⟨words, hwords⟩, h.room, h.strings, h.output⟩, ?_⟩
  rw [h.sp, Frame.bytes_push, Frame.bytes_pushNamed]

theorem follows_varDecl {ty : TypeName} {name : String} {e : Expr}
    (hfree : f.isDeclared name = false) (hname : Environment.embedded.lookup name = none)
    (he : Triple (p.At k (p.Holds f kept [])) (evaluate cx e) (p.Pushed f kept [] kind len k') p.Halts)
    (hchecked : ∀ v, HasWord kind v → checkDeclared ty (some v) = (kind.kind, .ok v)) :
    Triple (p.At k (p.Holds f kept [])) (execute cx (.varDecl span ty name (some e)))
      (p.Ended j (f.pushNamed kind len name) kept k' (f.pushNamed kind len name).bytes) p.Halts := by
  unfold execute
  simp only [bind_map_left]
  apply Triple.bind he
  intro v
  apply Triple.assuming fun _ hs => hs.value
  intro hv
  apply Triple.bind (follows_declareVariable hfree hname (hchecked v hv))
  exact fun _ => Triple.pure fun _ hs => hs.ended

theorem follows_zeroed {ty : TypeName} {name : String} {scalar : Scalar}
    (hfree : f.isDeclared name = false) (hname : Environment.embedded.lookup name = none)
    (hty : ty.scalar? = some scalar) (hv : HasWord (.scalar scalar) (.zeroScalar scalar))
    (hc : CodeAt p.lines k (Lowering.loadZero .t0 scalar :: push .t0) k') :
    Triple (p.At k (p.Holds f kept [])) (execute cx (.varDecl span ty name none))
      (p.Ended j (f.pushNamed (.scalar scalar) none name) kept k' (f.pushNamed (.scalar scalar) none name).bytes)
      p.Halts := by
  have hrun (core : Core) : runLines p.layout core [Lowering.loadZero .t0 scalar] =
      some (core.set .t0 (wordOf (.zeroScalar scalar))) := by
    cases hv' : scalar with
    | int | bool => rfl
    | _ =>
      rw [hv'] at hv
      cases hv
  have hchecked : checkDeclared ty none = ((SlotKind.scalar scalar).kind, .ok (.zeroScalar scalar)) :=
    checkDeclared_scalar hty
  unfold execute
  simp only [pure_bind]
  apply Triple.bind (R := fun _ => p.At k' (p.Holds (f.pushNamed (.scalar scalar) none name) kept []))
  · apply (follows_declareVariable hfree hname hchecked).pre
    rintro s ⟨core, hg, h⟩
    exact h.computed hg hc hv (hrun core)
  · exact fun _ => Triple.pure fun _ hs => hs.ended

/-! Printing and branches -/

theorem follows_print {args : List Expr} {n' : Nat} (hprint : PrintCode f n [] args c n')
    (hwords : ∀ e ∈ args, e.onWords = true)
    (hc : CodeAt p.lines k (.comment "print" :: c ++ printCode '\n') k') :
    Triple (p.At k (p.Holds f kept [])) (execute cx (.print span args)) (p.Ended j f kept k' f.bytes)
      p.Halts := by
  obtain ⟨m, hvalues, hnewline⟩ := codeAt_append.mp hc
  unfold execute
  apply Triple.bind (R := fun vs => p.At m (p.Holds f kept (spelled [] vs)))
  · rintro s ⟨core, hg, h⟩
    obtain ⟨m', hg', -, hvalues⟩ := hg.comment hvalues
    exact follows_evaluateAll hprint hwords List.not_mem_nil (.inl ⟨rfl, rfl⟩) hvalues s ⟨core, hg', h⟩
  intro vs
  apply Triple.bind (R := fun _ => p.At k' (p.Holds f kept []))
  · rintro s ⟨core, hg, h⟩
    obtain ⟨core', hg', h'⟩ := h.printedCode (.inr rfl) hg hnewline
    rw [spelled_eq] at h'
    exact ⟨core', hg', h'.ended⟩
  · exact fun _ => Triple.pure fun _ hs => hs.ended

theorem follows_bodyOf {stmt : Stmt} {Q : Flow → State → Prop}
    (h : Triple (p.At k (p.Holds f kept [])) (inScope (executeAll cx stmt.bodyOf)) Q p.Halts) :
    Triple (p.At k (p.Holds f kept [])) (asBody stmt.isBlock (execute cx stmt)) Q p.Halts := by
  rwa [asBody_eq]

theorem follows_conditional {cond : Expr} {whenTrue : Stmt} {whenFalse : Run Flow} {Q : Flow → State → Prop}
    {l : Label} {m₁ m₂ : Nat} (hcond : Triple (p.At k (p.Holds f kept [])) (evaluate cx cond)
      (p.Pushed f kept [] .bool len m₁) p.Halts)
    (hc : CodeAt p.lines m₁ (pop .t0 ++ [.beqz .t0 l]) m₂) (hm : p.lines[m]? = some (.label l))
    (htrue : Triple (p.At m₂ (p.Holds f kept [])) (inScope (executeAll cx whenTrue.bodyOf)) Q p.Halts)
    (hfalse : Triple (p.At (m + 1) (p.Holds f kept [])) whenFalse Q p.Halts) :
    Triple (p.At k (p.Holds f kept [])) (do
      if ← condition cond.span (evaluate cx cond) then asBody whenTrue.isBlock (execute cx whenTrue)
      else whenFalse) Q p.Halts := by
  apply Triple.bind (follows_beqz hcond hc hm)
  intro b
  cases b with
  | true => exact follows_bodyOf htrue
  | false =>
    apply hfalse.pre
    rintro s ⟨core, hg, h⟩
    exact ⟨core, hg.label hm, h⟩

/-! Loops -/

/--
A loop whose test is at a line that its update leads back to. A round ends at a line that leads to the update.
-/
theorem follows_loop {cond : Run Bool} {body : Run Flow} {update : Run Unit} {done next : Label}
    {tests begins ends updates stops : Nat}
    (hcond : Triple (p.At tests (p.Holds f kept [])) cond
      (fun b => p.At (if b then begins else stops) (p.Holds f kept [])) p.Halts)
    (hbody : Triple (p.At begins (p.Holds f kept [])) body
      (p.Ended (j.inLoop done next f.bytes) f kept ends f.bytes) p.Halts)
    (hends : ∀ core, p.Gets ends core → p.Gets updates core)
    (hupdate : Triple (p.At updates (p.Holds f kept [])) update (fun _ => p.At tests (p.Holds f kept []))
      p.Halts)
    (hdone : p.lines[stops]? = some (.label done)) (hnext : p.lines[updates]? = some (.label next))
    (fuel : Nat) :
    Triple (p.At tests (p.Holds f kept [])) (loop cond body update fuel)
      (fun flow s => flow = .normal ∧ p.At stops (p.Holds f kept []) s) p.Halts := by
  apply Triple.loop (B := p.At begins (p.Holds f kept [])) (U := p.At updates (p.Holds f kept []))
  · apply hcond.post
    intro b s hs
    cases b with
    | true => exact hs
    | false => exact ⟨rfl, hs⟩
  -- The signals of the body lead to the labels of the loop, and each of them is at one line only.
  · apply hbody.post
    rintro flow s ⟨m, b, hleads, core, hg, h⟩
    cases hleads with
    | normal => exact ⟨core, hends core hg, h.holds⟩
    | breaking ht hm =>
      cases ht
      rw [label_unique hm hdone] at hg
      exact ⟨rfl, core, hg, h.holds⟩
    | continuing ht hm =>
      cases ht
      rw [label_unique hm hnext] at hg
      exact ⟨core, hg, h.holds⟩
  · exact hupdate
  · exact fun _ _ => trivial

end Pieces

end Arbor.Machine.Process
