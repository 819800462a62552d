import Arbor.Proofs.Machine.Bodies
import Arbor.Proofs.Machine.Trace

/-!
This module contains the code of loops over arrays: the lines that a round goes through, and what the machine holds
between them.
-/

namespace Arbor.Machine

open Agreement Assembly Evaluation
open Lowering (Frame Slot SlotKind JumpTargets Part StmtCode)

/-! Lines -/

/--
The lines of a loop over an array, but for the one that loads an element. Where the body begins and ends is given, where
the line for the next round is, and where the loop ends.
-/
structure EachLines (lines : List Line) (offset : Int) (start next done : Label) (c : List Line) (k e u k' : Nat) :
    Prop where
  entry : CodeAt lines k (.lw .t0 offset .sp :: push .t0 ++ .li .t0 0 :: push .t0) (k + 6)
  starts : lines[k + 6]? = some (.label start)
  loads : CodeAt lines (k + 7) [.lw .t0 0 .sp, .lw .t1 wordBytes .sp, .lw .t2 (-wordBytes) .t1] (k + 10)
  test : lines[k + 10]? = some (.bge .t0 .t2 done)
  address : CodeAt lines (k + 11) [.slli .t0 .t0 2, .add .t0 .t1 .t0] (k + 13)
  push : CodeAt lines (k + 14) (push .t0) (k + 16)
  body : CodeAt lines (k + 16) c e
  pop : CodeAt lines e (release wordBytes) u
  continues : lines[u]? = some (.label next)
  update : CodeAt lines (u + 1) [.lw .t0 0 .sp, .addi .t0 .t0 1, .sw .t0 0 .sp] (u + 4)
  again : lines[u + 4]? = some (.j start)
  ends : lines[u + 5]? = some (.label done)
  exit : CodeAt lines (u + 6) (release (wordBytes + wordBytes)) k'

theorem eachLines_of_codeAt {lines c : List Line} {offset : Int} {start next done : Label} {k k' : Nat}
    (hc : CodeAt lines k (.lw .t0 offset .sp :: push .t0 ++ .li .t0 0 :: push .t0
        ++ [.label start, .lw .t0 0 .sp, .lw .t1 wordBytes .sp, .lw .t2 (-wordBytes) .t1,
          .bge .t0 .t2 done, .slli .t0 .t0 2, .add .t0 .t1 .t0, .lw .t0 0 .t0]
        ++ push .t0 ++ c ++ release wordBytes
        ++ [.label next, .lw .t0 0 .sp, .addi .t0 .t0 1, .sw .t0 0 .sp,
          .j start, .label done]
        ++ release (wordBytes + wordBytes)) k') :
    lines[k + 13]? = some (.lw .t0 0 .t0) ∧ ∃ e u, EachLines lines offset start next done c k e u k' := by
  obtain ⟨m₁, hc, hexit⟩ := codeAt_append.mp hc
  obtain ⟨u, hc, hupdate⟩ := codeAt_append.mp hc
  obtain ⟨e, hc, hpop⟩ := codeAt_append.mp hc
  obtain ⟨m₂, hc, hbody⟩ := codeAt_append.mp hc
  obtain ⟨m₃, hc, hpush⟩ := codeAt_append.mp hc
  obtain ⟨m₄, hentry, htest⟩ := codeAt_append.mp hc
  obtain rfl : m₄ = k + 6 := by
    simp only [push, List.cons_append, List.nil_append, codeAt_instruction, codeAt_nil] at hentry
    exact hentry.2.2.2.2.2.2
  simp only [codeAt_label, codeAt_instruction, codeAt_nil] at htest
  obtain ⟨hstart, hload₀, hload₁, hload₂, hbge, hslli, hadd, helement, rfl⟩ := htest
  obtain rfl : m₂ = k + 16 := by
    simp only [push, codeAt_instruction, codeAt_nil] at hpush
    exact hpush.2.2
  simp only [codeAt_label, codeAt_instruction, codeAt_nil] at hupdate
  obtain ⟨hnext, hload, haddi, hsw, hj, hdone, rfl⟩ := hupdate
  refine ⟨helement, e, u, hentry, hstart, ?_, hbge, ?_, hpush, hbody, hpop, hnext, ?_, hj, hdone, hexit⟩
  · simp only [codeAt_instruction, codeAt_nil]
    exact ⟨hload₀, hload₁, hload₂, trivial⟩
  · simp only [codeAt_instruction, codeAt_nil]
    exact ⟨hslli, hadd, trivial⟩
  · simp only [codeAt_instruction, codeAt_nil]
    exact ⟨hload, haddi, hsw, trivial⟩

theorem EachLines.without {lines c : List Line} {offset : Int} {start next done : Label} {k e u k' : Nat}
    (h : EachLines lines offset start next done c k e u k') :
    EachLines (without lines (k + 13)) offset start next done c k e u k' := by
  have hbody := h.body.le
  have hpop := h.pop.le
  constructor
  case entry => exact h.entry.without (.inr (by omega))
  case starts => exact (without_of_ne (by omega)).trans h.starts
  case loads => exact h.loads.without (.inr (by omega))
  case test => exact (without_of_ne (by omega)).trans h.test
  case address => exact h.address.without (.inr (by omega))
  case push => exact h.push.without (.inl (by omega))
  case body => exact h.body.without (.inl (by omega))
  case pop => exact h.pop.without (.inl (by omega))
  case continues => exact (without_of_ne (by omega)).trans h.continues
  case update => exact h.update.without (.inl (by omega))
  case again => exact (without_of_ne (by omega)).trans h.again
  case ends => exact (without_of_ne (by omega)).trans h.ends
  case exit => exact h.exit.without (.inl (by omega))

/-! Words of the loop -/

def eachKept (kept : Nat → Word) (f : Frame) (r : Region) (i : Nat) : Nat → Word :=
  Function.update (Function.update kept f.slots.length r.address) (f.slots.length + 1) (.ofNat 32 i)

def betweenRounds (f : Frame) (kind : SlotKind) (len : Option Nat) : Frame :=
  (f.push kind len).push .int none

namespace Workspace

variable {p : Workspace} {k k' e u n m : Nat} {core : Core} {f g : Frame} {kept : Nat → Word} {s : State}
  {kind : SlotKind} {len : Option Nat} {name array : String} {v : Value} {w : Word} {offset : Int} {slot : Slot} {elem : Scalar}
  {r : Region} {i : Nat} {start next done : Label} {c : List Line} {span : Span} {cx : Context}

def Owns (p : Workspace) (f : Frame) (array : String) (r : Region) : Prop :=
  ∃ n slot, f.place? array = some (n, slot) ∧ p.regions n = some r

theorem Owns.push (h : p.Owns f array r) : p.Owns (f.push kind len) array r := by
  obtain ⟨n, slot, hplace, hr⟩ := h
  exact ⟨n, slot, by rw [Frame.place?_push, hplace], hr⟩

theorem Owns.fits (h : p.Owns f array r) : r.Fits := by
  obtain ⟨n, slot, -, hr⟩ := h
  exact p.fits hr

namespace Holds

theorem owned (h : p.Holds f kept s core) (ha : ArraySlot f array offset slot elem) (ho : p.Owns f array r) :
    ∃ items, s.env.get array = .ok ⟨.array (.scalar elem), .array (.scalar elem) items⟩ ∧
      HasArray core.loadWord r (.scalar elem) items ∧ core.loadWord (core.get .sp + .ofInt 32 offset) = r.address := by
  obtain ⟨n, slot', hplace, hr⟩ := ho
  obtain ⟨n', r', items, hplace', hr', hget, hitems, haddress⟩ := h.array ha.plain ha.resolved ha.kind ha.cell
  cases hplace.symm.trans hplace'
  cases hr.symm.trans hr'
  exact ⟨items, hget, hitems, haddress⟩

theorem restacked {w' : Word} (h : p.Holds (f.push kind len) (Function.update kept f.slots.length w) s core) :
    p.Holds (f.push kind len) (Function.update kept f.slots.length w') s (core.storeWord (core.get .sp) w') := by
  have hplaced := @placed _ _ _ _ _ kind len w' h.dropped h.le
  rwa [Core.set_set, ← h.sp_push, Core.set_get (by decide)] at hplaced

/-! Entering and leaving -/

theorem entered (h : p.Holds f kept s core) (ha : ArraySlot f array offset slot elem) (ho : p.Owns f array r)
    (hroom : f.slots.length + 2 ≤ p.limit) (hg : Reaches p.layout p.lines p.start ⟨core, k⟩)
    (hc : CodeAt p.lines k (.lw .t0 offset .sp :: Assembly.push .t0 ++ .li .t0 0 :: Assembly.push .t0) k') :
    p.tracker.At k' (p.Holds (betweenRounds f kind len) (eachKept kept f r 0)) s := by
  obtain ⟨items, -, -, haddress⟩ := h.owned ha ho
  obtain ⟨m, hbase, hidx⟩ := codeAt_append.mp hc
  obtain ⟨hload, hbase⟩ := codeAt_instruction.mp hbase
  obtain ⟨hli, hidx⟩ := codeAt_instruction.mp hidx
  have hloaded : Reaches p.layout p.lines p.start ⟨core.set .t0 r.address, k + 1⟩ := by
    apply hg.step (step_instruction hload _)
    simp [effect, haddress]
  obtain ⟨core₁, hg₁, h₁, -⟩ := (h.set (by decide) (by decide)).pushed kind len (by decide) hloaded (by omega) hbase
  rw [Core.get_set (by decide)] at h₁
  have hzero : Reaches p.layout p.lines p.start ⟨core₁.set .t0 0, m + 1⟩ :=
    hg₁.step (step_instruction hli rfl)
  obtain ⟨core₂, hg₂, h₂, -⟩ := (h₁.set (by decide) (by decide)).pushed .int none (by decide) hzero
    (by exact hroom) hidx
  rw [Core.get_set (by decide)] at h₂
  exact ⟨core₂, hg₂, h₂⟩

theorem exited (h : p.Holds (betweenRounds f kind len) (eachKept kept f r i) s core)
    (hg : Reaches p.layout p.lines p.start ⟨core, k⟩) (hc : CodeAt p.lines k (release (wordBytes + wordBytes)) k') :
    p.tracker.At k' (p.Holds f kept) s := by
  have hbytes : wordBytes + wordBytes = (betweenRounds f kind len).bytes - f.bytes := by
    unfold betweenRounds
    rw [Frame.bytes_push, Frame.bytes_push]
    omega
  have hle : f.bytes ≤ (betweenRounds f kind len).bytes := by
    have hpos : (0 : Int) ≤ wordBytes := by decide
    omega
  rw [hbytes] at hc
  have hdropped := h.dropped.dropped
  rw [Core.set_set] at hdropped
  exact ⟨_, hg.release hc h.sp hle, hdropped⟩

/-! Tests and updates -/

theorem tested (h : p.Holds (betweenRounds f kind len) (eachKept kept f r i) s core)
    (ha : ArraySlot f array offset slot elem) (ho : p.Owns f array r) (hi : i ≤ r.length)
    (hl : EachLines p.lines offset start next done c k e u k')
    (hg : Reaches p.layout p.lines p.start ⟨core, k + 6⟩) :
    if i < r.length then p.tracker.At (k + 13) (fun s core =>
        p.Holds (betweenRounds f kind len) (eachKept kept f r i) s core ∧ core.get .t0 = r.element i) s
    else p.tracker.At (u + 6) (p.Holds (betweenRounds f kind len) (eachKept kept f r i)) s := by
  obtain ⟨items, -, hitems, -⟩ := h.owned ha.push.push ho.push.push
  have hbase : core.loadWord (core.get .sp + .ofInt 32 wordBytes) = r.address := h.second
  have hidx : core.loadWord (core.get .sp) = .ofNat 32 i := h.top
  have hheader : core.loadWord r.header = .ofNat 32 r.length := hitems.header
  let core₁ := ((core.set .t0 (.ofNat 32 i)).set .t1 r.address).set .t2 (.ofNat 32 r.length)
  have h₁ : p.Holds (betweenRounds f kind len) (eachKept kept f r i) s core₁ :=
    ((h.set (by decide) (by decide)).set (by decide) (by decide)).set (by decide) (by decide)
  have hloaded : Reaches p.layout p.lines p.start ⟨core₁, k + 10⟩ := by
    apply Reaches.straight hl.loads _ (hg.label hl.starts)
    have hbase : (core.set .t0 (.ofNat 32 i)).loadWord (core.get .sp + .ofInt 32 wordBytes) = r.address := hbase
    have hheader : ((core.set .t0 (.ofNat 32 i)).set .t1 r.address).loadWord r.header = .ofNat 32 r.length := hheader
    simp [runLine, effect, Core.get_set, Core.get_set_of_ne, hidx, hbase, Region.header_eq, hheader, core₁]
  have htest := hloaded.branch hl.test hl.ends (p.linked.unique _)
  have htaken : branchTaken .bge (core₁.get .t0) (core₁.get .t2) = !decide (i < r.length) := by
    rw [← ho.fits.slt_length hi]
    rfl
  rw [htaken] at htest
  split
  · next hlt =>
    rw [if_neg (by simp [hlt])] at htest
    refine ⟨(core₁.set .t0 (BitVec.ofNat 32 i <<< 2)).set .t0 (r.element i), Reaches.straight hl.address ?_ htest, ?_,
      Core.get_set (by decide)⟩
    · have haddress : r.address + BitVec.ofNat 32 i <<< 2 = r.element i := r.address_add_shift i
      simp [runLine, effect, immediateOp, registerOp, Core.get_set, Core.get_set_of_ne, core₁, haddress]
    · exact (h₁.set (by decide) (by decide)).set (by decide) (by decide)
  · next hlt =>
    rw [if_pos (by simp [hlt])] at htest
    exact ⟨core₁, htest.label hl.ends, h₁⟩

theorem advanced (h : p.Holds (betweenRounds f kind len) (eachKept kept f r i) s core)
    (hl : EachLines p.lines offset start next done c k e u k') (hg : Reaches p.layout p.lines p.start ⟨core, u⟩) :
    p.tracker.At (k + 6) (p.Holds (betweenRounds f kind len) (eachKept kept f r (i + 1))) s := by
  have hidx : core.loadWord (core.get .sp) = .ofNat 32 i := h.top
  have hnext : BitVec.ofNat 32 i + BitVec.ofNat 32 1 = .ofNat 32 (i + 1) := (BitVec.ofNat_add i 1).symm
  let core₁ := (core.set .t0 (.ofNat 32 i)).set .t0 (.ofNat 32 (i + 1))
  have h₁ : p.Holds (betweenRounds f kind len) (eachKept kept f r i) s core₁ :=
    (h.set (by decide) (by decide)).set (by decide) (by decide)
  have hupdated : Reaches p.layout p.lines p.start ⟨core₁.storeWord (core₁.get .sp) (.ofNat 32 (i + 1)), u + 4⟩ := by
    apply Reaches.straight hl.update _ (hg.label hl.continues)
    simp [runLine, effect, immediateOp, Core.get_set, Core.get_set_of_ne, hidx, hnext, core₁]
  exact ⟨_, hupdated.jump hl.again hl.starts (p.linked.unique _), h₁.restacked⟩

/-! Rounds -/

theorem openEach (h : p.Holds (betweenRounds f kind len) kept s core) :
    p.Holds ((f.openScope.pushNamed kind len "#base").pushNamed .int none "#idx").openScope kept
      { s with env := s.env.push } core := by
  have hbound : Bound Plain (p.Variable core) (fun _ => True) f s.env := (Bound.of_push h.of_push).1
  have hopened := h.reframed (f := ((f.openScope.pushNamed kind len "#base").pushNamed .int none "#idx").openScope)
    (Nat.le_refl _) (hbound.openEach not_plain_base not_plain_idx) fun n _ hvar => by
      have hvar : f.IsVariable n := Frame.isVariable_push.mp (Frame.isVariable_push.mp hvar)
      have hopened : f.openScope.IsVariable n := hvar
      have hslots : ((f.openScope.pushNamed kind len "#base").pushNamed .int none "#idx").IsVariable n :=
        hopened.pushNamed.pushNamed
      exact hslots
  have hsp : core.get .sp =
      stackTop p.base ((f.openScope.pushNamed kind len "#base").pushNamed .int none "#idx").openScope.bytes := by
    rw [h.sp, betweenRounds, Frame.bytes_push, Frame.bytes_push, Frame.bytes_openScope, Frame.bytes_pushNamed,
      Frame.bytes_pushNamed, Frame.bytes_openScope]
  rwa [← hsp, Core.set_get (by decide)] at hopened

end Holds

theorem Left.closeEach
    (h : p.Left (inEach f kind len (.scalar elem) name) kept (betweenRounds f kind len).bytes s core) :
    p.Holds (betweenRounds f kind len) kept { s with env := s.env.pop } core := by
  have hbound := Bound.closeEach h.holds.bound not_plain_idx
  have hclosed := h.holds.reframed (f := betweenRounds f kind len) (Nat.le_succ _) ((hbound.push trivial).push trivial)
    fun n hn hvar => by
      have hlt : n < f.slots.length + 2 := hn
      have hvar : f.IsVariable n := by
        rcases Frame.isVariable_pushNamed.mp hvar with hvar | ⟨heq, -⟩
        · rcases Frame.isVariable_pushNamed.mp hvar with hvar | ⟨-, hplain⟩
          · rcases Frame.isVariable_pushNamed.mp hvar with hvar | ⟨-, hplain⟩
            · exact hvar
            · exact absurd hplain not_plain_base
          · exact absurd hplain not_plain_idx
        · have heq : n = f.slots.length + 2 := heq
          omega
      exact Frame.isVariable_push.mpr (Frame.isVariable_push.mpr hvar)
  rwa [Core.set_set, ← h.sp, Core.set_get (by decide)] at hclosed

end Workspace

def eachRound (cx : Context) (span : Span) (name : String) (elem : Scalar) (body : Stmt) (v : Value) : Run Flow :=
  inScope do
    declare span name (.scalar elem) v
    asBody body.isBlock (execute cx body)

namespace Workspace

variable {p : Workspace} {k k' e u : Nat} {f : Frame} {kept : Nat → Word} {kind : SlotKind} {len : Option Nat}
  {name : String} {v : Value} {offset : Int} {elem : Scalar} {start next done : Label} {c : List Line} {span : Span}
  {cx : Context} {body : Stmt} {limit n n' height : Nat} {j : JumpTargets} {d d' : DataSection} {heap : Heap}

/--
The machine gets to the line for the next round, or to the end of the loop.
-/
def RoundEnded (p : Workspace) (f : Frame) (kept : Nat → Word) (u : Nat) (flow : Flow) (s : State) : Prop :=
  match flow with
  | .normal | .continuing _ => p.tracker.At u (p.Holds f kept) s
  | .breaking _ => p.tracker.At (u + 6) (p.Holds f kept) s
  | .returning .. => False

theorem follows_round (span : Span) (hname : Declarable Plain name) (hv : HasCell (.scalar elem) v)
    (hbody : p.Executes cx (inEach f kind len (.scalar elem) name) body.bodyOf height heap)
    (hcode : StmtCode limit (j.inLoop done next (betweenRounds f kind len).bytes)
      (inEach f kind len (.scalar elem) name) n d (.scope body.bodyOf) c (inEach f kind len (.scalar elem) name) n' d')
    (hroom : f.slots.length + (height + 3) ≤ p.limit) (hl : EachLines p.lines offset start next done c k e u k') :
    Triple (p.tracker.At (k + 14) fun s core =>
        p.Holds (betweenRounds f kind len) kept s core ∧ core.get .t0 = wordOf v)
      (eachRound cx span name elem body v)
      ((p.withHeap heap).RoundEnded (betweenRounds f kind len) kept u) p.Halts := by
  have hlabels {m n : Nat} {l : Label} (hm : p.lines[m]? = some (.label l)) (hn : p.lines[n]? = some (.label l)) :
      m = n :=
    Lowering.eq_of_labelCount_le_one (p.linked.unique l) hm hn
  have hbytes : (inEach f kind len (.scalar elem) name).bytes = (betweenRounds f kind len).bytes + wordBytes := by
    unfold inEach betweenRounds
    rw [Frame.bytes_pushNamed, Frame.bytes_openScope, Frame.bytes_pushNamed, Frame.bytes_pushNamed,
      Frame.bytes_openScope,
      Frame.bytes_push, Frame.bytes_push]
  have hle : (betweenRounds f kind len).bytes ≤ (inEach f kind len (.scalar elem) name).bytes := by
    rw [hbytes]
    exact Int.le_add_of_nonneg_right (by decide)
  have hbelow : Process.Below (j.inLoop done next (betweenRounds f kind len).bytes)
      (inEach f kind len (.scalar elem) name) :=
    Process.below_inLoop.mono hle
  have hround : Triple (fun s => ∃ t, p.tracker.At (k + 14) (fun s core =>
      p.Holds (betweenRounds f kind len) kept s core ∧ core.get .t0 = wordOf v) t ∧ s = { t with env := t.env.push })
      (do
        declare span name (.scalar elem) v
        asBody body.isBlock (execute cx body))
      (fun flow s => (p.withHeap heap).RoundEnded (betweenRounds f kind len) kept u flow { s with env := s.env.pop })
      p.Halts := by
    apply Triple.bind (R := fun _ => p.tracker.At (k + 16) (p.Holds (inEach f kind len (.scalar elem) name) kept))
    · apply (follows_declare Agrees.isDeclared_openEach hname).pre
      rintro _ ⟨s, ⟨core, hg, h, ht₀⟩, rfl⟩
      obtain ⟨core', hg', h', -⟩ :=
        (Holds.openEach h).pushed (.scalar elem) none (by decide) hg
          (show f.slots.length + 2 < p.limit by omega) hl.push
      rw [ht₀] at h'
      exact ⟨hv, core', hg', h'⟩
    intro _
    have hlength : (inEach f kind len (.scalar elem) name).slots.length = f.slots.length + 3 := rfl
    apply (follows_bodyOf (hbody.run hcode hbelow (places_inLoop hl.ends hl.continues) (by omega) hl.body)).post
    intro flow s hended
    have hpop : CodeAt p.lines e
        (release ((inEach f kind len (.scalar elem) name).bytes - (betweenRounds f kind len).bytes)) u := by
      have hword : wordBytes = (inEach f kind len (.scalar elem) name).bytes - (betweenRounds f kind len).bytes := by
        omega
      rw [← hword]
      exact hl.pop
    obtain ⟨m, b, hleads, core, hg, h⟩ := Ended.released (p := p.withHeap heap) hended hpop hle
    cases hleads with
    | normal => exact ⟨core, hg, Left.closeEach (p := p.withHeap heap) h⟩
    | breaking ht hm =>
      cases ht
      rw [hlabels hm hl.ends] at hg
      exact ⟨core, hg.label hl.ends, Left.closeEach (p := p.withHeap heap) h⟩
    | continuing ht hm =>
      cases ht
      rw [hlabels hm hl.continues] at hg
      exact ⟨core, hg, Left.closeEach (p := p.withHeap heap) h⟩
  unfold eachRound
  apply Triple.inScope
  apply hround.conseq (fun _ h => h) (fun _ _ h => h)
  intro h s hs
  cases h with
  | error e => exact hs
  | outOfFuel => exact hs

end Workspace

end Arbor.Machine
