import Arbor.Proofs.Lowering.NetEffect
import Arbor.Proofs.Machine.CompoundAssignment
import Arbor.Proofs.Machine.Rounds

/-!
This module contains the elements that a loop over an array goes through. The evaluator takes them from the array as
it was when the loop began, and the code loads each of them when its round begins.
-/

namespace Arbor

open Lowering (Frame Slot SlotKind JumpTargets Part StmtCode lowerStmt)

namespace Evaluation

structure Round where
  position : Nat
  value : Value
  state : State

/--
The rounds of a loop that runs at most some number of them from a position on. The value of a round may depend on
the state that it begins in.
-/
def rounds (round : Value → Run Flow) (next : Nat → State → Option Value) : Nat → Nat → State → List Round
  | 0, _, _ => []
  | n + 1, i, s =>
    match next i s with
    | none => []
    | some v => ⟨i, v, s⟩ ::
      match round v s with
      | .ok .normal s' | .ok (.continuing _) s' => rounds round next n (i + 1) s'
      | _ => []

def forRounds (round : Value → Run Flow) (next : Nat → State → Option Value) : Nat → Nat → Run Flow
  | 0, _, s => .ok .normal s
  | n + 1, i, s =>
    match next i s with
    | none => .ok .normal s
    | some v =>
      match round v s with
      | .ok .normal s' | .ok (.continuing _) s' => forRounds round next n (i + 1) s'
      | .ok (.breaking _) s' => .ok .normal s'
      | result => result

def elementThen (items : List Value) (i : Nat) (_ : State) : Option Value :=
  items[i]?

def elementNow (array : String) (i : Nat) (s : State) : Option Value :=
  match s.env.get array with
  | .ok ⟨_, .array _ items⟩ => items[i]?
  | _ => none

section Rounds

variable {round : Value → Run Flow} {next : Nat → State → Option Value} {array : String} {i n : Nat} {v : Value}
  {items : List Value} {s s' : State} {flow : Flow} {halt : Halt}

theorem elementNow_eq {elem kind : Kind} (h : s.env.get array = .ok ⟨kind, .array elem items⟩) :
    elementNow array i s = items[i]? := by
  rw [elementNow, h]

theorem rounds_error (hv : next i s = some v) (h : round v s = .error halt s') :
    rounds round next (n + 1) i s = [⟨i, v, s⟩] ∧ forRounds round next (n + 1) i s = .error halt s' := by
  rw [rounds, forRounds, hv]
  simp only [h, and_self]

theorem rounds_breaking {span : Span} (hv : next i s = some v) (h : round v s = .ok (.breaking span) s') :
    rounds round next (n + 1) i s = [⟨i, v, s⟩] ∧ forRounds round next (n + 1) i s = .ok .normal s' := by
  rw [rounds, forRounds, hv]
  simp only [h, and_self]

theorem rounds_ok (hv : next i s = some v) (h : round v s = .ok flow s')
    (hflow : flow = .normal ∨ ∃ span, flow = .continuing span) :
    rounds round next (n + 1) i s = ⟨i, v, s⟩ :: rounds round next n (i + 1) s' ∧
      forRounds round next (n + 1) i s = forRounds round next n (i + 1) s' := by
  rw [rounds, forRounds, hv]
  rcases hflow with rfl | ⟨span, rfl⟩ <;> simp only [h, and_self]

theorem forValues_eq (h : i + n = items.length) :
    forValues round (items.drop i) s = forRounds round (elementThen items) n i s := by
  induction n generalizing i s with
  | zero =>
    rw [List.drop_of_length_le (by omega)]
    rfl
  | succ n ih =>
    have hlt : i < items.length := by omega
    have hv : elementThen items i s = some items[i] := List.getElem?_eq_getElem hlt
    rw [List.drop_eq_getElem_cons hlt]
    change EStateM.bind (round items[i]) _ s = _
    unfold EStateM.bind
    simp only [forRounds, hv]
    cases round items[i] s with
    | error halt s' => rfl
    | ok flow s' =>
      cases flow with
      | normal => exact ih (by omega)
      | continuing span => exact ih (by omega)
      | breaking span => rfl
      | returning value span => rfl

/--
If every round finds its value in the array when it begins, it does not matter when a loop takes the elements.
-/
theorem rounds_eq_of_found (hn : i + n = items.length)
    (h : ∀ t ∈ rounds round (elementThen items) n i s, next t.position t.state = some t.value) :
    rounds round next n i s = rounds round (elementThen items) n i s ∧
      forRounds round next n i s = forRounds round (elementThen items) n i s := by
  induction n generalizing i s with
  | zero => exact ⟨rfl, rfl⟩
  | succ n ih =>
    have hlt : i < items.length := by omega
    have hv : elementThen items i s = some items[i] := List.getElem?_eq_getElem hlt
    rw [rounds, hv, List.forall_mem_cons] at h
    obtain ⟨hfound, hrest⟩ := h
    simp only [rounds, forRounds, hv, hfound]
    cases hround : round items[i] s with
    | error halt s' => exact ⟨rfl, rfl⟩
    | ok flow s' =>
      rw [hround] at hrest
      cases flow with
      | normal | continuing span =>
        obtain ⟨hrounds, hfor⟩ := ih (by omega) hrest
        exact ⟨congrArg _ hrounds, hfor⟩
      | breaking span => exact ⟨rfl, rfl⟩
      | returning value span => exact ⟨rfl, rfl⟩

/--
Otherwise the values of the rounds are others from the first round on that does not.
-/
theorem found_of_values_eq (hn : i + n = items.length)
    (h : (rounds round next n i s).map Round.value = (rounds round (elementThen items) n i s).map Round.value) :
    ∀ t ∈ rounds round (elementThen items) n i s, next t.position t.state = some t.value := by
  induction n generalizing i s with
  | zero => exact List.forall_mem_nil _
  | succ n ih =>
    have hlt : i < items.length := by omega
    have hv : elementThen items i s = some items[i] := List.getElem?_eq_getElem hlt
    simp only [rounds, hv] at h ⊢
    cases hnext : next i s with
    | none =>
      rw [hnext] at h
      cases h
    | some w =>
      rw [hnext] at h
      simp only [List.map_cons, List.cons.injEq] at h
      obtain ⟨rfl, hrest⟩ := h
      rw [List.forall_mem_cons]
      refine ⟨hnext, ?_⟩
      cases hround : round items[i] s with
      | error halt s' => exact List.forall_mem_nil _
      | ok flow s' =>
        rw [hround] at hrest
        cases flow with
        | normal | continuing span => exact ih (by omega) hrest
        | breaking span => exact List.forall_mem_nil _
        | returning value span => exact List.forall_mem_nil _

theorem value_mem_of_mem_rounds {t : Round} (h : t ∈ rounds round (elementThen items) n i s) : t.value ∈ items := by
  induction n generalizing i s with
  | zero => cases h
  | succ n ih =>
    rw [rounds] at h
    split at h
    · cases h
    · next v hv =>
      rcases List.mem_cons.mp h with rfl | h
      · exact List.mem_of_getElem? hv
      · split at h
        · exact ih h
        · exact ih h
        · cases h

end Rounds

end Evaluation

namespace Machine

open Agreement Assembly Evaluation

theorem HasCell.eq_of_wordOf_eq {kind : SlotKind} {v w : Value} (hv : HasCell kind v) (hw : HasCell kind w)
    (h : wordOf v = wordOf w) : v = w := by
  cases hv with
  | int n =>
    cases hw with
    | int m => rw [Int32.toBitVec_inj.mp h]
  | bool b =>
    cases hw with
    | bool b' => cases b <;> cases b' <;> first | rfl | exact absurd h (by decide)
  | char c =>
    cases hw with
    | char c' =>
      have hint : (wordOf (.char c)).toInt = (wordOf (.char c')).toInt := congrArg _ h
      rw [toInt_wordOf_char, toInt_wordOf_char, Int.ofNat_inj, Char.toNat_inj] at hint
      rw [hint]

def roundWords (rs : List Round) : List Word :=
  rs.map fun t => wordOf t.value

theorem roundWords_inj {kind : SlotKind} {rs rs' : List Round} (hrs : ∀ t ∈ rs, HasCell kind t.value)
    (hrs' : ∀ t ∈ rs', HasCell kind t.value) :
    roundWords rs = roundWords rs' ↔ rs.map Round.value = rs'.map Round.value := by
  constructor
  · intro h
    induction rs generalizing rs' with
    | nil =>
      cases rs' with
      | nil => rfl
      | cons t' rs' => cases h
    | cons t rs ih =>
      cases rs' with
      | nil => cases h
      | cons t' rs' =>
        rw [List.forall_mem_cons] at hrs hrs'
        simp only [roundWords, List.map_cons, List.cons.injEq] at h ⊢
        exact ⟨hrs.1.eq_of_wordOf_eq hrs'.1 h.1, ih hrs.2 hrs'.2 h.2⟩
  · intro h
    have hmap (rs : List Round) : roundWords rs = (rs.map Round.value).map wordOf := by
      rw [roundWords, List.map_map]
      rfl
    rw [hmap, hmap, h]

/-! Runs that do not load an element -/

theorem elementLoad_not_mem (r : Routine) : .instruction (.load .word .t0 0 .t0) ∉ r.lines := by
  have hroutines : ∀ r ∈ Routine.all, .instruction (.load .word .t0 0 .t0) ∉ r.lines := by decide +kernel
  exact hroutines r r.mem_all

namespace Workspace

variable {p : Workspace} {k line i : Nat} {instr : Instruction} {rd : Register} {core : Core} {m : Hart} {f g : Frame}
  {kept kept' : Nat → Word} {s s' : State} {P : State → Core → Prop}

/--
A workspace in which the machine cannot pass a line.
-/
def avoiding (p : Workspace) (hl : p.lines[line]? = some (.instruction instr))
    (hi : ∀ r : Routine, .instruction instr ∉ r.lines) (start : Hart) : Workspace :=
  p.relisted (p.linked.without hl hi) start

theorem Holds.of_relisted {lines : List Line} {hlinked : Linked p.layout lines}
    (h : (p.relisted hlinked m).Holds f kept s core) (hm : p.Resumes m) : p.Holds f kept s core :=
  h.moved rfl rfl rfl (fun a ha => (h.memory a ⟨ha.spared, ha.stack, ha.regions⟩).trans (hm a ha)) h.heap
    fun _ _ _ h => h

section Avoiding

variable {hl : p.lines[line]? = some (.instruction instr)} {hi : ∀ r : Routine, .instruction instr ∉ r.lines}

theorem passes_of_avoiding (rd : Register) (h : (p.avoiding hl hi m).tracker.At k P s) :
    ∃ core, Passes p.layout p.lines line rd m [] ⟨core, k⟩ ∧ P s core := by
  obtain ⟨core, hg, h⟩ := h
  exact ⟨core, .of_without hl hg, h⟩

theorem exits_of_avoiding (h : (p.avoiding hl hi m).Exits) :
    ∃ m', Passes p.layout p.lines line rd m [] m' ∧ step p.layout p.lines m' = .exited 1 := by
  obtain ⟨core, k, hg, hexit⟩ := h
  have hexit : step p.layout (without p.lines line) ⟨core, k⟩ = .exited 1 := hexit
  refine ⟨⟨core, k⟩, .of_without hl hg, ?_⟩
  rw [← step_without hl, hexit]
  rintro rfl
  rw [step_unknownLine (List.getElem?_eq_some_iff.mp hl).1 rfl] at hexit
  cases hexit

end Avoiding

/-! Loops -/

/--
Where a run ends, the machine is at a line and in a state with a property, or it exits with status 1. Nothing is said of
runs that run out of fuel.
-/
def Finished (p : Workspace) (k : Nat) (P : State → Core → Prop) (result : EStateM.Result Halt State Flow) (m : Hart) :
    Prop :=
  match result with
  | .ok flow s => flow = .normal ∧ ∃ core, m = ⟨core, k⟩ ∧ P s core
  | .error (.error _) _ => step p.layout p.lines m = .exited 1
  | .error .outOfFuel _ => True

/--
The frame of the code agrees with the variables of a loop over an array, between two of its rounds. What is known of the
heap may differ from round to round.
-/
def BetweenRounds (p : Workspace) (heap : Nat → Heap) (count : Nat) (f : Frame) (kept : Nat → Word) (slot : Slot)
    (r : Region) (s : State) (core : Core) : Prop :=
  ∃ i ≤ count, ∃ j, (p.withHeap (heap i)).Holds (betweenRounds f slot.kind slot.length) (eachKept kept f r j) s core

section Loop

variable {height e u k' count : Nat} {c : List Line} {cx : Context} {span : Span} {name array : String} {elem : Scalar}
  {body : Stmt} {offset : Int} {slot : Slot} {r : Region} {start next done : Label} {v : Value} {heap : Nat → Heap}

/--
A loop over an array, whose body keeps up with its execution in a number of rounds.
-/
structure EachLoop (p : Workspace) (heap : Nat → Heap) (count : Nat) (cx : Context) (f : Frame) (name array : String)
    (elem : Scalar) (body : Stmt) (offset : Int) (slot : Slot) (start next done : Label) (c : List Line)
    (k e u k' : Nat) : Prop where
  iterated : ArraySlot f array offset slot elem
  declarable : Declarable Plain name
  load : p.lines[k + 13]? = some (.lw .t0 0 .t0)
  lines : EachLines p.lines offset start next done c k e u k'
  code : ∃ limit j n n' d d', StmtCode limit
    (JumpTargets.inLoop j done next (betweenRounds f slot.kind slot.length).bytes)
    (inEach f slot.kind slot.length (.scalar elem) name) n d (.scope body.bodyOf) c
    (inEach f slot.kind slot.length (.scalar elem) name) n' d'
  keepsUp : ∃ height, f.slots.length + (height + 3) ≤ p.limit ∧ ∀ i < count, (p.withHeap (heap i)).KeepsUp cx
    (inEach f slot.kind slot.length (.scalar elem) name) body.bodyOf height (heap (i + 1))

theorem Holds.elementLoaded (h : p.Holds (Machine.betweenRounds f slot.kind slot.length) kept s core)
    (ha : ArraySlot f array offset slot elem) (ho : p.Owns f array r) (hload : p.lines[k]? = some (.lw .t0 0 .t0))
    (hi : i < r.length) (ht₀ : core.get .t0 = r.element i) :
    ∃ u, elementNow array i s = some u ∧ HasCell (.scalar elem) u ∧
      Passes p.layout p.lines k .t0 ⟨core, k⟩ [wordOf u] ⟨core.set .t0 (wordOf u), k + 1⟩ := by
  obtain ⟨items, hget, hitems, -⟩ := h.owned ha.push.push ho.push.push
  have hlt : i < items.length := hitems.length ▸ hi
  have hitem : items[i]? = some items[i] := List.getElem?_eq_getElem hlt
  refine ⟨items[i], (elementNow_eq hget).trans hitem, hitems.cells _ (List.getElem_mem hlt), ?_⟩
  have hstep : step p.layout p.lines ⟨core, k⟩ = .running ⟨core.set .t0 (wordOf items[i]), k + 1⟩ := by
    apply step_instruction hload
    simp [effect, ht₀, hitems.words _ _ hitem]
  have hpasses : Passes p.layout p.lines k .t0 ⟨core, k⟩ ([] ++ passed k .t0 _ _) _ := (Passes.refl _).step hstep
  rwa [passed, if_pos rfl, Core.get_set (by decide)] at hpasses

def RunsRounds (p : Workspace) (heap : Nat → Heap) (count : Nat) (cx : Context) (span : Span) (f : Frame)
    (kept : Nat → Word) (name array : String) (elem : Scalar) (body : Stmt) (slot : Slot) (r : Region) (k u n i : Nat)
    (s : State) (m : Hart) (rs : List Round) : Prop :=
  ∃ m', Passes p.layout p.lines (k + 13) .t0 m (roundWords rs) m' ∧
    p.Finished (u + 6) (p.BetweenRounds heap count f kept slot r)
      (forRounds (eachRound cx span name elem body) (elementNow array) n i s) m' ∧
    ∀ t ∈ rs, HasCell (.scalar elem) t.value

theorem passes_round (hloop : p.EachLoop heap count cx f name array elem body offset slot start next done c k e u k')
    (hi : i < count) (hnow : elementNow array i s = some v) (hv : HasCell (.scalar elem) v)
    (ht₀ : core.get .t0 = wordOf v)
    (h : (p.withHeap (heap i)).Holds (Machine.betweenRounds f slot.kind slot.length) (eachKept kept f r i) s core)
    (hrest : ∀ s core, (p.withHeap (heap (i + 1))).Holds (Machine.betweenRounds f slot.kind slot.length)
        (eachKept kept f r (i + 1)) s core →
      p.RunsRounds heap count cx span f kept name array elem body slot r k u n (i + 1) s ⟨core, k + 6⟩
        (rounds (eachRound cx span name elem body) (elementNow array) n (i + 1) s)) :
    ∃ rest, rounds (eachRound cx span name elem body) (elementNow array) (n + 1) i s = ⟨i, v, s⟩ :: rest ∧
      p.RunsRounds heap count cx span f kept name array elem body slot r k u (n + 1) i s ⟨core, k + 14⟩ rest := by
  obtain ⟨limit, j, _, _, _, _, hcode⟩ := hloop.code
  obtain ⟨height, hroom, hbody⟩ := hloop.keepsUp
  let q := (p.withHeap (heap i)).avoiding hloop.load elementLoad_not_mem ⟨core, k + 14⟩
  let q' := (p.withHeap (heap (i + 1))).avoiding hloop.load elementLoad_not_mem ⟨core, k + 14⟩
  have hresumes : (p.withHeap (heap (i + 1))).Resumes ⟨core, k + 14⟩ :=
    Resumes.withHeap (p := p.withHeap (heap i)) h.memory
  have hround := follows_round (p := q) span hloop.declarable hv (hbody i hi _ h.memory) hcode hroom
    hloop.lines.without s ⟨core, .refl _, h.relisted _, ht₀⟩
  cases hresult : eachRound cx span name elem body v s with
  | error halt s' =>
    rw [hresult] at hround
    obtain ⟨hrounds, hfor⟩ := rounds_error (n := n) hnow hresult
    refine ⟨[], hrounds, ?_⟩
    unfold RunsRounds
    rw [hfor]
    cases halt with
    | error err =>
      obtain ⟨m', hpasses, hexit⟩ := exits_of_avoiding hround
      exact ⟨m', hpasses, hexit, List.forall_mem_nil _⟩
    | outOfFuel => exact ⟨_, .refl _, trivial, List.forall_mem_nil _⟩
  | ok flow s' =>
    rw [hresult] at hround
    -- A round that does not leave the loop leads to its next round.
    have hnext (hflow : flow = .normal ∨ ∃ span, flow = .continuing span)
        (hat : q'.tracker.At u (q'.Holds (Machine.betweenRounds f slot.kind slot.length) (eachKept kept f r i)) s') :
        ∃ rest, rounds (eachRound cx span name elem body) (elementNow array) (n + 1) i s = ⟨i, v, s⟩ :: rest ∧
          p.RunsRounds heap count cx span f kept name array elem body slot r k u (n + 1) i s ⟨core, k + 14⟩ rest := by
      obtain ⟨core₁, hg₁, h₁⟩ := hat
      obtain ⟨core₂, hpasses, h₂⟩ := passes_of_avoiding .t0 (Holds.advanced h₁ hloop.lines.without hg₁)
      obtain ⟨hrounds, hfor⟩ := rounds_ok (n := n) hnow hresult hflow
      refine ⟨_, hrounds, ?_⟩
      obtain ⟨m', hrun, hend, hcells⟩ := hrest _ _ (Holds.of_relisted h₂ hresumes)
      unfold RunsRounds
      rw [hfor]
      exact ⟨m', hpasses.trans hrun, hend, hcells⟩
    cases flow with
    | normal => exact hnext (.inl rfl) hround
    | continuing span => exact hnext (.inr ⟨span, rfl⟩) hround
    | breaking span =>
      obtain ⟨hrounds, hfor⟩ := rounds_breaking (n := n) hnow hresult
      refine ⟨[], hrounds, ?_⟩
      unfold RunsRounds
      rw [hfor]
      have hround : q'.tracker.At (u + 6) (q'.Holds _ _) s' := hround
      obtain ⟨core₁, hpasses, h₁⟩ := passes_of_avoiding .t0 hround
      exact ⟨_, hpasses, ⟨rfl, core₁, rfl, i + 1, hi, i, Holds.of_relisted h₁ hresumes⟩, List.forall_mem_nil _⟩
    | returning => exact False.elim hround

theorem passes_rounds (span : Span)
    (hloop : p.EachLoop heap count cx f name array elem body offset slot start next done c k e u k')
    (ho : p.Owns f array r) (hi : i + n = r.length) (hcount : r.length = count)
    (h : (p.withHeap (heap i)).Holds (Machine.betweenRounds f slot.kind slot.length) (eachKept kept f r i) s core) :
    p.RunsRounds heap count cx span f kept name array elem body slot r k u n i s ⟨core, k + 6⟩
      (rounds (eachRound cx span name elem body) (elementNow array) n i s) := by
  induction n generalizing i s core with
  | zero =>
    rw [Nat.add_zero] at hi
    have htest := Holds.tested (p := (p.withHeap (heap i)).avoiding hloop.load elementLoad_not_mem ⟨core, k + 6⟩)
      (h.relisted _) hloop.iterated ho (Nat.le_of_eq hi) hloop.lines.without (.refl _)
    rw [if_neg (Nat.not_lt.mpr (Nat.le_of_eq hi.symm))] at htest
    obtain ⟨core₁, hpasses, h₁⟩ := passes_of_avoiding (p := p.withHeap (heap i)) .t0 htest
    exact ⟨_, hpasses, ⟨rfl, core₁, rfl, i, by omega, i, Holds.of_relisted h₁ h.memory⟩, List.forall_mem_nil _⟩
  | succ n ih =>
    have hlt : i < r.length := by omega
    have htest := Holds.tested (p := (p.withHeap (heap i)).avoiding hloop.load elementLoad_not_mem ⟨core, k + 6⟩)
      (h.relisted _) hloop.iterated ho (Nat.le_of_lt hlt) hloop.lines.without (.refl _)
    rw [if_pos hlt] at htest
    obtain ⟨core₁, hpasses, h₁, ht₀⟩ := passes_of_avoiding (p := p.withHeap (heap i)) .t0 htest
    have h₁ := Holds.of_relisted h₁ h.memory
    obtain ⟨v, hnow, hcell, hloads⟩ := h₁.elementLoaded hloop.iterated ho hloop.load hlt ht₀
    obtain ⟨rest, hrounds, m', hrun, hend, hcells⟩ := passes_round hloop (hcount ▸ hlt) hnow hcell
      (Core.get_set (by decide)) (h₁.set (by decide) (by decide)) fun s core h => ih (by omega) h
    rw [hrounds]
    exact ⟨m', (hpasses.trans hloads).trans hrun, hend, List.forall_mem_cons.mpr ⟨hcell, hcells⟩⟩

theorem Finished.exited {m : Hart} {result : EStateM.Result Halt State Flow}
    (hloop : p.EachLoop heap count cx f name array elem body offset slot start next done c k e u k')
    (h : p.Finished (u + 6) (p.BetweenRounds heap count f kept slot r) result m) :
    ∃ m', Passes p.layout p.lines (k + 13) .t0 m [] m' ∧
      p.Finished k' (fun s core => ∃ i ≤ count, (p.withHeap (heap i)).Holds f kept s core) result m' := by
  cases result with
  | error halt s =>
    cases halt with
    | error err => exact ⟨m, .refl _, h⟩
    | outOfFuel => exact ⟨m, .refl _, trivial⟩
  | ok flow s =>
    obtain ⟨hflow, core, rfl, i, hi, j, h⟩ := h
    have hexit := Holds.exited (p := (p.withHeap (heap i)).avoiding hloop.load elementLoad_not_mem ⟨core, u + 6⟩)
      (h.relisted _) (.refl _) hloop.lines.without.exit
    obtain ⟨core₁, hpasses, h₁⟩ := passes_of_avoiding (p := p.withHeap (heap i)) .t0 hexit
    exact ⟨_, hpasses, hflow, core₁, rfl, i, hi, Holds.of_relisted h₁ h.memory⟩

/--
The code of a loop goes through the elements of the array as they are when the rounds begin.
-/
theorem Holds.passes_forEach (span : Span) {items : List Value}
    (hloop : p.EachLoop heap items.length cx f name array elem body offset slot start next done c k e u k')
    (hget : s.env.get array = .ok ⟨.array (.scalar elem), .array (.scalar elem) items⟩)
    (h : (p.withHeap (heap 0)).Holds f kept s core) :
    (∀ t ∈ rounds (eachRound cx span name elem body) (elementNow array) items.length 0 s,
      HasCell (.scalar elem) t.value) ∧
      ∃ m, Passes p.layout p.lines (k + 13) .t0 ⟨core, k⟩
          (roundWords (rounds (eachRound cx span name elem body) (elementNow array) items.length 0 s)) m ∧
        p.Finished k' (fun s core => ∃ i ≤ items.length, (p.withHeap (heap i)).Holds f kept s core)
          (forRounds (eachRound cx span name elem body) (elementNow array) items.length 0 s) m := by
  have ha := hloop.iterated
  obtain ⟨n, r, items', hplace, hr, hget', hitems, -⟩ := h.array ha.plain ha.resolved ha.kind ha.cell
  cases hget.symm.trans hget'
  have ho : p.Owns f array r := ⟨n, slot, hplace, hr⟩
  obtain ⟨height, hroom, -⟩ := hloop.keepsUp
  let q := (p.withHeap (heap 0)).avoiding hloop.load elementLoad_not_mem ⟨core, k⟩
  have hentry :
      q.tracker.At (k + 6) (q.Holds (Machine.betweenRounds f slot.kind slot.length) (eachKept kept f r 0)) s :=
    Holds.entered (h.relisted _) ha ho (show f.slots.length + 2 ≤ p.limit by omega) (.refl _) hloop.lines.without.entry
  obtain ⟨core₁, hentered, h₁⟩ := passes_of_avoiding (p := p.withHeap (heap 0)) .t0 hentry
  have hlength : 0 + items.length = r.length := by rw [Nat.zero_add, hitems.length]
  obtain ⟨m, hrounds, hend, hcells⟩ :=
    passes_rounds span hloop ho hlength hitems.length.symm (Holds.of_relisted h₁ h.memory)
  obtain ⟨m', hexit, hfinished⟩ := hend.exited hloop
  refine ⟨hcells, m', ?_, hfinished⟩
  have hpasses := (hentered.trans hrounds).trans hexit
  rwa [List.nil_append, List.append_nil] at hpasses

end Loop

end Workspace

/-! Statements -/

section Statements

variable {cx : Context} {span : Span} {declared : TypeName} {name array : String} {body : Stmt} {elem : Scalar}
  {items : List Value} {s : State}

/--
The evaluator goes through the elements of the array as they are when the loop begins.
-/
theorem execute_forEach (hget : s.env.get array = .ok ⟨.array (.scalar elem), .array (.scalar elem) items⟩)
    (hdeclared : declared = .var ∨ declared.scalar? = some elem) :
    execute cx (.forEach span declared name array body) s =
      forRounds (eachRound cx span name elem body) (elementThen items) items.length 0 s := by
  have hcheck : checkElement (.scalar elem) declared = .ok () := by
    unfold checkElement
    rcases hdeclared with rfl | hdeclared
    · rfl
    · simp [hdeclared]
  rw [← forValues_eq (Nat.zero_add _), List.drop_zero]
  unfold execute
  change EStateM.bind (readArray span array) _ s = _
  unfold EStateM.bind
  rw [readArray_eq hget]
  change EStateM.bind (liftAt span (checkElement (.scalar elem) declared)) _ s = _
  rw [hcheck]
  rfl

/--
A loop over an array in the generated code and in the evaluator. A round of the code is given the element that the
array has when the round begins, and a round of the evaluator the one that it had when the loop began. So the rounds
are given the same values if and only if each round of the evaluator finds its value in the array, and then the
loops end alike. The code of the body is to keep up with its execution in every round, and may change what is known
of the heap.
-/
theorem forEach_of_lowerStmt {limit : Nat} {g g' : Lowering.State} (hg : g.frame.Nested)
    (haccepted : lowerStmt limit (.forEach span declared name array body) g = .ok () g') :
    ∃ c offset slot elem, g'.assembler = g.assembler.write c ∧ (.lw .t0 0 .t0 :: push .t0) <+: c.drop 13 ∧
      g.frame.resolve? array = some (offset, slot) ∧ slot.kind = .array elem ∧
      ∀ {p : Workspace} {k k' : Nat} {kept : Nat → Word} {s : State} {core : Core},
        Plain array → elem.isCell = true → Declarable Plain name → CodeAt p.lines k c k' →
        p.Holds g.frame kept s core →
        ∃ items, s.env.get array = .ok ⟨.array (.scalar elem), .array (.scalar elem) items⟩ ∧
          ∀ {cx : Context} {heap : Nat → Heap} {height : Nat}, heap 0 = p.heap →
            (∀ i < items.length, (p.withHeap (heap i)).KeepsUp cx
              (inEach g.frame slot.kind slot.length (.scalar elem) name) body.bodyOf height (heap (i + 1))) →
            g.frame.slots.length + (height + 3) ≤ p.limit →
            let round := eachRound cx span name elem body
            let given := rounds round (elementThen items) items.length 0 s
            let loaded := rounds round (elementNow array) items.length 0 s
            execute cx (.forEach span declared name array body) s =
              forRounds round (elementThen items) items.length 0 s ∧
            (∃ m, Passes p.layout p.lines (k + 13) .t0 ⟨core, k⟩ (roundWords loaded) m ∧
              p.Finished k' (fun s core => ∃ i ≤ items.length, (p.withHeap (heap i)).Holds g.frame kept s core)
                (forRounds round (elementNow array) items.length 0 s) m) ∧
            (roundWords loaded = roundWords given ↔ ∀ t ∈ given, elementNow array t.position t.state = some t.value) ∧
            (roundWords loaded = roundWords given → forRounds round (elementNow array) items.length 0 s =
              execute cx (.forEach span declared name array body) s) := by
  obtain ⟨c, f, n, d, hcode, rfl⟩ := Lowering.performs_lowerStmt _ _ _ _ haccepted hg
  cases hcode with
  | @forEach _ _ f₁ f₂ _ n₁ _ d₁ _ _ _ _ _ offset slot elem c hslot hkind hdeclared hf₁ hf₂ hbody =>
    subst hf₁
    subst hf₂
    refine ⟨_, offset, slot, elem, Lowering.State.assembler_write, ⟨_, rfl⟩, hslot, hkind, ?_⟩
    intro p k k' kept s core hplain hcell hname hc h
    obtain ⟨hload, e, u, hlines⟩ := eachLines_of_codeAt hc
    obtain ⟨_, r, items, -, -, hget, hitems, -⟩ := h.array hplain hslot hkind hcell
    refine ⟨items, hget, ?_⟩
    intro cx heap height hheap hkeepsUp hroom
    have hloop : p.EachLoop heap items.length cx g.frame name array elem body offset slot _ _ _ c k e u k' :=
      ⟨⟨hplain, hslot, hkind, hcell⟩, hname, hload, hlines, ⟨_, _, _, _, _, _, hbody⟩, height, hroom, hkeepsUp⟩
    have h₀ : (p.withHeap (heap 0)).Holds g.frame kept s core := hheap ▸ h
    obtain ⟨hcells, hpasses⟩ := h₀.passes_forEach span hloop hget
    have hexecute : execute cx (.forEach span declared name array body) s = _ := execute_forEach hget hdeclared
    have hgiven : ∀ t ∈ rounds (eachRound cx span name elem body) (elementThen items) items.length 0 s,
        HasCell (.scalar elem) t.value :=
      fun t ht => hitems.cells _ (value_mem_of_mem_rounds ht)
    refine ⟨hexecute, hpasses, ?_, ?_⟩
    · rw [roundWords_inj hcells hgiven]
      constructor
      · exact found_of_values_eq (Nat.zero_add _)
      · intro hfound
        rw [(rounds_eq_of_found (Nat.zero_add _) hfound).1]
    · intro hwords
      have hfound := found_of_values_eq (Nat.zero_add _) ((roundWords_inj hcells hgiven).mp hwords)
      rw [hexecute, (rounds_eq_of_found (Nat.zero_add _) hfound).2]

end Statements

/-! Loops over a row -/

def rowLoop (body : List Stmt) : Stmt :=
  .forEach .unplaced .int "x" "v" (.block .unplaced body)

theorem get_rowState :
    rowState.env.get "v" = .ok ⟨.array (.scalar .int), .array (.scalar .int) [.int 1, .int 2]⟩ := by
  have hrow : intArray? rowState.env "v" = some [1, 2] := by decide +kernel
  exact get_of_intArray? hrow

def loopCode (body : List Stmt) : List Line :=
  match lowerStmt 0 (rowLoop body) rowGenerator with
  | .ok _ g => g.assembler.lines.toList.drop rowGenerator.assembler.lines.size
  | .error .. => []

def loopLines (body : List Stmt) : List Line :=
  loopCode body ++ Routine.checkBounds.lines

def loopRounds (cx : Context) (body : List Stmt) : List Round :=
  rounds (eachRound cx .unplaced "x" .int (.block .unplaced body)) (elementThen [.int 1, .int 2]) 2 0 rowState

def intsOf? (array : String) (t : Round) : Option (Int32 × Int32) :=
  match t.value, elementNow array t.position t.state with
  | .int n, some (.int m) => some (n, m)
  | _, _ => none

theorem found_of_intsOf? {array : String} {rs : List Round} (h : ∀ o ∈ rs.map (intsOf? array), ∃ n, o = some (n, n)) :
    ∀ t ∈ rs, elementNow array t.position t.state = some t.value := by
  intro t ht
  obtain ⟨n, hn⟩ := h _ (List.mem_map_of_mem ht)
  unfold intsOf? at hn
  split at hn
  · next m l hm hl =>
    cases hn
    rw [hl, hm]
  · cases hn

/--
A body that writes elements that its loop has been through: `v[i] = 7; if (++i == 2) break;`.
-/
def writingBehind : List Stmt := [
  .expr .unplaced (.indexAssign .unplaced "v" (.var .unplaced "i") .set (.literal .unplaced (.int 7))),
  .conditional .unplaced (.binary .unplaced .eq (.step .unplaced "i" .up) (.literal .unplaced (.int 2)))
    (.breakStmt .unplaced) none]

theorem forEach_writingBehind :
    ∃ cx s' core', execute cx (rowLoop writingBehind) rowState = .ok .normal s' ∧
      Passes (.usual (loopLines writingBehind)) (loopLines writingBehind) 13 .t0 ⟨rowCore, 0⟩ [1, 2]
        ⟨core', (loopCode writingBehind).length⟩ := by
  let cx : Context := ⟨0, 0, fun _ _ _ => throw .outOfFuel⟩
  have hlinked : Linked (.usual (loopLines writingBehind)) (loopLines writingBehind) :=
    linked_usual (by decide +kernel) (by decide +kernel) (by decide +kernel)
  have hints : (loopRounds cx writingBehind).map (intsOf? "v") = [some (1, 1), some (2, 2)] := by decide +kernel
  have hgiven : roundWords (loopRounds cx writingBehind) = [1, 2] := by decide +kernel
  have hfound : ∀ t ∈ loopRounds cx writingBehind, elementNow "v" t.position t.state = some t.value := by
    apply found_of_intsOf?
    rw [hints]
    simp
  have hlowered : (finished? (lowerStmt 0 (rowLoop writingBehind) rowGenerator)).isSome = true := by decide +kernel
  have hevaluated : (finished? (execute cx (rowLoop writingBehind) rowState)).isSome = true := by decide +kernel
  have hheld := holds_rowCore hlinked
  obtain ⟨flow, s', hexecute⟩ := ok_of_isSome_finished? hevaluated
  obtain ⟨_, g, haccepted⟩ := ok_of_isSome_finished? hlowered
  obtain ⟨c, offset, slot, elem, hcode, -, hslot, hkind, hloops⟩ := forEach_of_lowerStmt hheld.nested haccepted
  have hresolved : rowGenerator.frame.resolve? "v" = some (0, ⟨.array .int, 4, 0, some "v", some 2⟩) := by
    decide +kernel
  cases hresolved.symm.trans hslot
  cases hkind
  have hlines : loopLines writingBehind = c ++ Routine.checkBounds.lines := by
    simp [loopLines, loopCode, haccepted, hcode, comments_rowGenerator, ← Array.length_toList]
  have hlength : (loopCode writingBehind).length = c.length := by
    simp [loopCode, haccepted, hcode, comments_rowGenerator, ← Array.length_toList]
  have hc : CodeAt (loopLines writingBehind) 0 c c.length := by
    rw [hlines]
    exact codeAt_start _
  let f := (inEach rowGenerator.frame (.array .int) (some 2) .int "x").openScope
  have hi : Declares f "i" .int :=
    ⟨by decide, 16, ⟨.int, 4, 0, some "i", none⟩, by decide +kernel, rfl⟩
  have hv : Declares f "v" (.array .int) :=
    ⟨by decide, 12, ⟨.array .int, 4, 0, some "v", some 2⟩, by decide +kernel, rfl⟩
  have hwrite : OnWords f (.indexAssign .unplaced "v" (.var .unplaced "i") .set (.literal .unplaced (.int 7))) .int 2 :=
    .indexAssign hv (.var hi rfl) (.literal (@Lowering.LiteralCode.int 7 7 rfl) rfl)
  have htest : OnWords f (.binary .unplaced .eq (.step .unplaced "i" .up) (.literal .unplaced (.int 2))) .bool 2 :=
    .binary (by decide) (@Lowering.BinaryCode.words .eq .int rfl) (by decide) (.step hi)
      (.literal (@Lowering.LiteralCode.int 2 2 rfl) rfl)
  have hbreak : BodyOnWords f.openScope (Stmt.breakStmt .unplaced).bodyOf 0 := .breakStmt
  have hbody : BodyOnWords f writingBehind 2 := .expr hwrite (.ifThen htest hbreak .nil)
  let p := rowWorkspace _ hlinked
  obtain ⟨items, hget, hloop⟩ := @hloops p 0 c.length _ rowState rowCore (by decide) rfl ⟨by decide, by decide⟩ hc hheld
  cases get_rowState.symm.trans hget
  obtain ⟨-, ⟨m, hpasses, hfinished⟩, hiff, hsame⟩ := @hloop cx (fun _ => p.heap) 2 rfl
    (fun _ _ => Workspace.keepsUp_of_bodyOnWords hbody) (show _ ≤ 16 by decide +kernel)
  have hwords := hiff.mpr hfound
  rw [(hsame hwords).trans hexecute] at hfinished
  obtain ⟨rfl, core', rfl, -⟩ := hfinished
  refine ⟨cx, s', core', hexecute, ?_⟩
  have hloaded := hwords.trans hgiven
  rw [hlength, ← hloaded]
  exact hpasses

def writingAhead : List Stmt := [
  .expr .unplaced
    (.indexAssign .unplaced "v" (.literal .unplaced (.int 1)) .set (.literal .unplaced (.int 5)))]

/--
A body whose own code does not keep up with its evaluation: `if ((i += (i = 5)) == 10) break;`.
-/
def leavingEarly : List Stmt := [
  .conditional .unplaced (.binary .unplaced .eq (.grouping .unplaced selfAssignment) (.literal .unplaced (.int 10)))
    (.breakStmt .unplaced) none]

/--
From states that agree the rounds of the evaluator are given the values of some words, and the code loads some words.
-/
structure LoopPasses (body : List Stmt) (cx : Context) (given loaded : List Word) (core : Core) : Prop where
  holds : ∃ hlinked kept, (rowWorkspace (loopLines body) hlinked).Holds rowGenerator.frame kept rowState rowCore
  runs : execute cx (rowLoop body) rowState =
    forRounds (eachRound cx .unplaced "x" .int (.block .unplaced body)) (elementThen [.int 1, .int 2]) 2 0 rowState
  given : roundWords (loopRounds cx body) = given
  loaded : Passes (.usual (loopLines body)) (loopLines body) 13 .t0 ⟨rowCore, 0⟩ loaded ⟨core, (loopCode body).length⟩
  sp : core.get .sp = rowCore.get .sp

theorem loopPasses_of_passing {body : List Stmt} {cx : Context} {given loaded : List Word} {n : Nat} {m : Hart}
    (hlinked : Linked (.usual (loopLines body)) (loopLines body)) (hgiven : roundWords (loopRounds cx body) = given)
    (hm : (passing (.usual (loopLines body)) (loopLines body) 13 .t0 n ⟨rowCore, 0⟩).2 = m)
    (hpassing : (passing (.usual (loopLines body)) (loopLines body) 13 .t0 n ⟨rowCore, 0⟩).1 = loaded ∧
      m.pc = (loopCode body).length ∧ m.core.get .sp = rowCore.get .sp) :
    LoopPasses body cx given loaded m.core := by
  obtain ⟨hloaded, hpc, hsp⟩ := hpassing
  refine ⟨⟨hlinked, _, holds_rowCore hlinked⟩, execute_forEach get_rowState (.inr rfl), hgiven, ?_, hsp⟩
  have hpasses : Passes (.usual (loopLines body)) (loopLines body) 13 .t0 ⟨rowCore, 0⟩ _ _ := passes_passing n _
  rw [hloaded, hm] at hpasses
  rwa [← hpc]

theorem forEach_loopPasses :
    ∃ cx core core', LoopPasses writingAhead cx [1, 2] [1, 5] core ∧ LoopPasses leavingEarly cx [1] [1, 2] core' := by
  have hlinked : Linked (.usual (loopLines writingAhead)) (loopLines writingAhead) :=
    linked_usual (by decide +kernel) (by decide +kernel) (by decide +kernel)
  have hlinked' : Linked (.usual (loopLines leavingEarly)) (loopLines leavingEarly) :=
    linked_usual (by decide +kernel) (by decide +kernel) (by decide +kernel)
  exact ⟨⟨0, 0, fun _ _ _ => throw .outOfFuel⟩, _, _,
    loopPasses_of_passing (n := 91) hlinked (by decide +kernel) rfl (by decide +kernel),
    loopPasses_of_passing (n := 99) hlinked' (by decide +kernel) rfl (by decide +kernel)⟩

end Machine

end Arbor
