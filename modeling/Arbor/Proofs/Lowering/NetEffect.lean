import Arbor.Lowering.Generator
import Arbor.Proofs.Lowering.Effects
import Arbor.Proofs.Lowering.StatementCode

/-!
This module contains the net effect of lowering on the frame and on the targets of jumps, from every state that a
generator can come to.
-/

namespace Arbor

namespace Lowering

open Assembly

/-! Reached states -/

inductive Frame.Changes : Frame → Frame → Prop where
  | push {f : Frame} (kind : SlotKind) (length : Option Nat) : Changes f (f.push kind length)
  | pop {f g : Frame} {slot : Slot} : f.pop = .ok (slot, g) → Changes f g
  | setKind {f : Frame} (n : Nat) (kind : SlotKind) : Changes f (f.setKind n kind)
  | nameTop {f g : Frame} {name : String} : f.nameTop name = .ok g → Changes f g
  | openScope {f : Frame} : Changes f f.openScope
  | closeScope {f : Frame} : Changes f f.closeScope.2

/--
The states that a generator can come to: those that the operations lead to which lowering is made of, in whatever order
they are done. Errors end a lowering anywhere, so that the state between two operations can be the one in which the
next lowering begins.
-/
inductive Reached : State → Prop where
  | start (comments : Bool) : Reached (.start comments)
  | write {s s' : State} : Reached s → s'.frame = s.frame → s'.targets = s.targets → Reached s'
  | frame {s : State} {f : Frame} : Reached s → s.frame.Changes f → Reached { s with frame := f }
  | pushBreak {s : State} (t : JumpTarget) :
    Reached s → Reached { s with targets := s.targets.pushBreak t }
  | pushContinue {s : State} (t : JumpTarget) :
    Reached s → Reached { s with targets := s.targets.pushContinue t }
  | popBreak {s : State} : Reached s → Reached { s with targets := s.targets.popBreak }
  | popContinue {s : State} : Reached s → Reached { s with targets := s.targets.popContinue }

/--
The newer a slot, the deeper the scope it was pushed in, and the current scope is the deepest. Each slot takes up a
word.
-/
structure Frame.Layered (f : Frame) : Prop where
  sorted : f.slots.Pairwise fun newer older => older.depth ≤ newer.depth
  nested : f.Nested

theorem span_eq_filter {slots : List Slot} {p : Slot → Bool}
    (h : slots.Pairwise fun newer older => p older → p newer) :
    slots.takeWhile p = slots.filter p ∧ slots.dropWhile p = slots.filter fun s => !p s := by
  induction slots with
  | nil => exact ⟨rfl, rfl⟩
  | cons s rest ih =>
    obtain ⟨hs, hrest⟩ := List.pairwise_cons.mp h
    cases hp : p s with
    | true => simp [hp, ih hrest]
    | false =>
      have hnone : ∀ t ∈ rest, ¬p t := by
        intro t ht hpt
        rw [hs t ht hpt] at hp
        cases hp
      have htake : rest.filter p = [] := List.filter_eq_nil_iff.mpr hnone
      have hdrop : (rest.filter fun t => !p t) = rest := List.filter_eq_self.mpr (by simpa using hnone)
      simp [hp, htake, hdrop]

namespace Frame.Layered

variable {f g : Frame} {slot : Slot}

theorem empty : Frame.empty.Layered :=
  ⟨List.Pairwise.nil, .empty⟩

theorem push (h : f.Layered) (kind : SlotKind) (length : Option Nat) : (f.push kind length).Layered :=
  ⟨List.pairwise_cons.mpr ⟨h.nested.depth_le, h.sorted⟩, h.nested.push⟩

theorem pop (h : f.Layered) (hpop : f.pop = .ok (slot, g)) : g.Layered := by
  unfold Frame.pop at hpop
  split at hpop
  · cases hpop
  · next hslots =>
    cases hpop
    have hsorted := h.sorted
    rw [hslots, List.pairwise_cons] at hsorted
    refine ⟨hsorted.2, fun s hs => h.nested.depth_le s ?_, fun s hs => h.nested.size s ?_⟩
    · rw [hslots]
      exact List.mem_cons_of_mem _ hs
    · rw [hslots]
      exact List.mem_cons_of_mem _ hs

theorem of_map (h : f.Layered) (hdepth : g.depth = f.depth)
    (hslots : g.slots.map (fun s => (s.depth, s.size)) = f.slots.map fun s => (s.depth, s.size)) :
    g.Layered := by
  have hdepths : g.slots.map Slot.depth = f.slots.map Slot.depth := by
    have := congrArg (List.map Prod.fst) hslots
    simpa [List.map_map, Function.comp_def] using this
  refine ⟨?_, fun s hs => ?_, fun s hs => ?_⟩
  · have hsorted : (f.slots.map Slot.depth).Pairwise fun newer older => older ≤ newer :=
      List.pairwise_map.mpr h.sorted
    rw [← hdepths] at hsorted
    exact List.pairwise_map.mp hsorted
  · have hmem : s.depth ∈ f.slots.map Slot.depth := hdepths ▸ List.mem_map_of_mem hs
    obtain ⟨s', hs', heq⟩ := List.mem_map.mp hmem
    rw [hdepth, ← heq]
    exact h.nested.depth_le s' hs'
  · have hmem := List.mem_map_of_mem (f := fun s : Slot => (s.depth, s.size)) hs
    rw [hslots] at hmem
    obtain ⟨s', hs', heq⟩ := List.mem_map.mp hmem
    rw [← (Prod.mk.inj heq).2]
    exact h.nested.size s' hs'

theorem setKind (h : f.Layered) (n : Nat) (kind : SlotKind) : (f.setKind n kind).Layered :=
  h.of_map rfl (map_setKind _ (fun _ _ => rfl) n kind)

theorem nameTop (h : f.Layered) {name : String} (hname : f.nameTop name = .ok g) : g.Layered := by
  unfold Frame.nameTop at hname
  split at hname
  · cases hname
  · next hslots =>
    cases hname
    exact h.of_map rfl (by rw [hslots]; rfl)

theorem openScope (h : f.Layered) : f.openScope.Layered :=
  ⟨h.sorted, h.nested.openScope⟩

theorem span_scope (h : f.Layered) :
    f.currentScope = (f.slots.filter fun s => s.depth == f.depth) ∧
      f.slots.dropWhile (fun s => s.depth == f.depth) = f.slots.filter fun s => s.depth != f.depth := by
  apply span_eq_filter
  apply h.sorted.imp_of_mem
  intro newer older hnewer _ hle holder
  have := h.nested.depth_le newer hnewer
  simp only [beq_iff_eq] at holder ⊢
  omega

theorem closeScope_eq (h : f.Layered) :
    f.closeScope = (totalSize (f.slots.filter fun s => s.depth == f.depth),
      ⟨f.slots.filter fun s => s.depth != f.depth, f.depth - 1⟩) := by
  unfold Frame.closeScope
  rw [h.span_scope.1, h.span_scope.2]

theorem closeScope (h : f.Layered) : f.closeScope.2.Layered := by
  rw [h.closeScope_eq]
  refine ⟨h.sorted.filter _, fun s hs => ?_, fun s hs => h.nested.size s (List.mem_of_mem_filter hs)⟩
  obtain ⟨hmem, hne⟩ := List.mem_filter.mp hs
  have := h.nested.depth_le s hmem
  simp only [bne_iff_ne, ne_eq] at hne ⊢
  omega

theorem changes (h : f.Layered) (hchanges : f.Changes g) : g.Layered := by
  cases hchanges with
  | push kind length => exact h.push kind length
  | pop hpop => exact h.pop hpop
  | setKind n kind => exact h.setKind n kind
  | nameTop hname => exact h.nameTop hname
  | openScope => exact h.openScope
  | closeScope => exact h.closeScope

end Frame.Layered

theorem Reached.layered {s : State} (h : Reached s) : s.frame.Layered := by
  induction h with
  | start => exact .empty
  | write _ hframe _ ih =>
    rw [hframe]
    exact ih
  | frame _ hchanges ih => exact ih.changes hchanges
  | pushBreak _ _ ih | pushContinue _ _ ih | popBreak _ ih | popContinue _ ih => exact ih

/-! Steadiness -/

def endState {α : Type} : EStateM.Result LoweringError State α → State
  | .ok _ s => s
  | .error _ s => s

/--
A computation leaves the targets of jumps as they were, and goes from reached states to reached states, whether it
succeeds or fails.
-/
def Steady (α : Type) (x : Lower α) : Prop :=
  ∀ s, (endState (x s)).targets = s.targets ∧ (Reached s → Reached (endState (x s)))

section Steady

variable {α β : Type}

theorem Steady.bind {x : Lower α} {f : α → Lower β} (hx : Steady α x) (hf : ∀ a, Steady β (f a)) :
    Steady β (x >>= f) := by
  intro s
  have hx := hx s
  change (endState (EStateM.bind x f s)).targets = s.targets ∧
    (Reached s → Reached (endState (EStateM.bind x f s)))
  unfold EStateM.bind
  cases h : x s with
  | ok a s' =>
    rw [h] at hx
    have hf := hf a s'
    exact ⟨hf.1.trans hx.1, fun hs => hf.2 (hx.2 hs)⟩
  | error e s' =>
    rw [h] at hx
    exact hx

theorem steady_write {x : Lower α}
    (hx : ∀ s, (endState (x s)).frame = s.frame ∧ (endState (x s)).targets = s.targets) : Steady α x :=
  fun s => ⟨(hx s).2, fun hs => hs.write (hx s).1 (hx s).2⟩

theorem steady_frame {x : Lower α}
    (hx : ∀ s, endState (x s) = s ∨ ∃ f, s.frame.Changes f ∧ endState (x s) = { s with frame := f }) :
    Steady α x := by
  intro s
  rcases hx s with heq | ⟨f, hf, heq⟩
  · rw [heq]
    exact ⟨rfl, id⟩
  · rw [heq]
    exact ⟨rfl, fun hs => hs.frame hf⟩

theorem steady_popSlot (span : Span) : Steady Slot (popSlot span) := by
  apply steady_frame
  intro s
  have hrun : popSlot span s = EStateM.bind (liftAt span s.frame.pop) (fun popped => do
      setFrame popped.2
      return popped.1) s := rfl
  rw [hrun]
  unfold EStateM.bind
  cases h : s.frame.pop with
  | ok popped => exact .inr ⟨popped.2, .pop h, rfl⟩
  | error kind => exact .inl rfl

theorem steady_nameTop (span : Span) (name : String) : Steady Unit (nameTop span name) := by
  apply steady_frame
  intro s
  have hrun : nameTop span name s = EStateM.bind (liftAt span (s.frame.nameTop name)) setFrame s := rfl
  rw [hrun]
  unfold EStateM.bind
  cases h : s.frame.nameTop name with
  | ok f => exact .inr ⟨f, .nameTop h, rfl⟩
  | error kind => exact .inl rfl

theorem steady_withBreak {x : Lower Unit} (t : JumpTarget) (hx : Steady Unit x) :
    Steady Unit (withBreak t x) := by
  intro s
  obtain ⟨htargets, hreached⟩ := hx { s with targets := s.targets.pushBreak t }
  unfold withBreak
  cases h : x { s with targets := s.targets.pushBreak t } with
  | ok a s' | error e s' =>
    rw [h] at htargets hreached
    have hpop : s'.targets.popBreak = s.targets := by
      rw [show s'.targets = s.targets.pushBreak t from htargets]
      rfl
    exact ⟨hpop, fun hs => (hreached (hs.pushBreak t)).popBreak⟩

theorem steady_withContinue {x : Lower Unit} (t : JumpTarget) (hx : Steady Unit x) :
    Steady Unit (withContinue t x) := by
  intro s
  obtain ⟨htargets, hreached⟩ := hx { s with targets := s.targets.pushContinue t }
  unfold withContinue
  cases h : x { s with targets := s.targets.pushContinue t } with
  | ok a s' | error e s' =>
    rw [h] at htargets hreached
    have hpop : s'.targets.popContinue = s.targets := by
      rw [show s'.targets = s.targets.pushContinue t from htargets]
      rfl
    exact ⟨hpop, fun hs => (hreached (hs.pushContinue t)).popContinue⟩

theorem closed_steady : Closed Steady where
  pure _ := steady_write fun _ => ⟨rfl, rfl⟩
  throw _ := steady_write fun _ => ⟨rfl, rfl⟩
  bind := Steady.bind
  frame := steady_write fun _ => ⟨rfl, rfl⟩
  targets := steady_write fun _ => ⟨rfl, rfl⟩
  emit _ := steady_write fun _ => ⟨rfl, rfl⟩
  freshLabel := steady_write fun _ => ⟨rfl, rfl⟩
  callRoutine _ := steady_write fun _ => ⟨rfl, rfl⟩
  loadRegion _ := steady_write fun _ => ⟨rfl, rfl⟩
  pushSlot kind length := steady_frame fun _ => .inr ⟨_, .push kind length, rfl⟩
  popSlot := steady_popSlot
  nameTop := steady_nameTop
  setKindAt n kind := steady_frame fun _ => .inr ⟨_, .setKind n kind, rfl⟩
  openScope := steady_frame fun _ => .inr ⟨_, .openScope, rfl⟩
  closeScope := fun _ => ⟨rfl, fun hs => (hs.frame .closeScope).write rfl rfl⟩
  withBreak := steady_withBreak
  withContinue := steady_withContinue

end Steady

end Lowering

def Stmt.declaredName? : Stmt → Option String
  | .varDecl _ _ name _ | .arrayDecl _ _ _ name _ => some name
  | _ => none

namespace Lowering

/--
The net effect of a lowering from a state: a frame that goes with its result if it succeeds, and in any case the targets
of jumps that there were before, and a state that is reached.
-/
structure NetEffect {α : Type} (s : State) (x : Lower α) (effect : α → Frame → Prop) : Prop where
  frame : ∀ a s', x s = .ok a s' → effect a s'.frame
  targets : (endState (x s)).targets = s.targets
  reached : Reached (endState (x s))

theorem StmtCode.frame_stmt {limit : Nat} {j : JumpTargets} {f f' : Frame} {n n' : Nat}
    {d d' : Assembly.DataSection} {stmt : Stmt} {c : List Assembly.Line}
    (h : StmtCode limit j f n d (.stmt stmt) c f' n' d') :
    match stmt.declaredName? with
    | some name => ∃ kind length, f' = f.pushNamed kind length name
    | none => f' = f := by
  cases h with
  | declared | zeroed | inferred | arrayDecl => exact ⟨_, _, rfl⟩
  | block hscope => exact hscope.frame_scope
  | _ => rfl

/--
An expression pushes one value of its kind, and a statement nothing but the variable that it declares.
-/
theorem netEffect_of_reached {s : State} (h : Reached s) :
    (∀ e : Expr, NetEffect s (lowerExpr e) fun kind f => ∃ length, f = s.frame.push kind length) ∧
    (∀ (limit : Nat) (stmt : Stmt), NetEffect s (lowerStmt limit stmt) fun _ f =>
      match stmt.declaredName? with
      | some name => ∃ kind length, f = s.frame.pushNamed kind length name
      | none => f = s.frame) ∧
    ∀ (config : GeneratorConfig) (p : Program), Reached (Generator.lower ⟨config, s⟩ p).2.state := by
  refine ⟨fun e => ⟨fun kind s' hok => ?_, ?_, ?_⟩,
    fun limit stmt => ⟨fun u s' hok => ?_, ?_, ?_⟩, fun config p => ?_⟩
  · obtain ⟨len, c, n, -, rfl⟩ := writes_lowerExpr e s s' kind hok
    exact ⟨len, rfl⟩
  · exact (closed_steady.lowerExpr e s).1
  · exact (closed_steady.lowerExpr e s).2 h
  · obtain ⟨c, f, n, d, hcode, rfl⟩ := performs_lowerStmt stmt s s' u hok h.layered.nested
    exact hcode.frame_stmt
  · exact (closed_steady.lowerStmt stmt s).1
  · exact (closed_steady.lowerStmt stmt s).2 h
  · have hreached : Reached (endState (lowerStmts config.unrollLimit p.statements s)) :=
      (closed_steady.lowerStmts p.statements s).2 h
    unfold Generator.lower
    dsimp only
    cases hlower : lowerStmts config.unrollLimit p.statements s with
    | ok u s' | error e s' =>
      rw [hlower] at hreached
      exact hreached

def refusedProgram : Program where
  statements := [
    .whileLoop .unplaced (.literal .unplaced (.bool true)) (.block .unplaced [
      .varDecl .unplaced .int "n" (some (.literal .unplaced (.int 1))),
      .returnStmt .unplaced none])]

/--
What is lowered after that is still inside the body, where the variable is.
-/
theorem netEffect_refusedProgram :
    let s := ((Generator.start .default).lower refusedProgram).2.state
    let e := Expr.ternary .unplaced (.literal .unplaced (.bool true)) (.var .unplaced "n")
      (.literal .unplaced (.int 2))
    s.frame.depth = 1 ∧ s.frame.slots.length = 1 ∧
      ∃ kind s', lowerExpr e s = .ok kind s' ∧ ∃ length, s'.frame = s.frame.push kind length := by
  intro s e
  have hreached : Reached s := (netEffect_of_reached (.start true)).2.2 .default refusedProgram
  have haccepted : (match lowerExpr e s with
      | .ok .. => true
      | .error .. => false) = true := by
    decide +kernel
  refine ⟨by decide +kernel, by decide +kernel, ?_⟩
  cases h : lowerExpr e s with
  | ok kind s' => exact ⟨kind, s', rfl, ((netEffect_of_reached hreached).1 e).frame kind s' h⟩
  | error err s' =>
    rw [h] at haccepted
    cases haccepted

end Lowering

end Arbor
