import Arbor.Proofs.Machine.ArrayJoin
import Arbor.Proofs.Machine.ArrayOutput
import Arbor.Proofs.Machine.ArraySearch
import Arbor.Proofs.Machine.Trace

/-!
This module contains the routines on arrays next to the evaluator, which looks for values in the array of a variable,
joins its elements and prints it.
-/

namespace Arbor.Machine

open Assembly
open Evaluation (State Run readArray readArray_eq positionOf joined printLine)
open Lowering (elementCode)

section Evaluator

variable {s : State} {name : String} {span : Span} {kind k : Kind} {items : List Value} {v : Value}

theorem positionOf_eq (hget : s.env.get name = .ok ⟨kind, .array k items⟩) (hlength : items.length < 2 ^ 31) :
    ∃ n : Int32, positionOf span name v s = .ok (.int n) s ∧
      n.toBitVec = positionWord (items.findIdx? (isMatch v)) := by
  have hmatch : items.findIdx? (fun item => item.looseEq? v == some true) = items.findIdx? (isMatch v) := rfl
  have hvalue : positionOf span name v s = .ok (.int ((items.findIdx? (isMatch v)).elim (-1) fun i =>
      if i < 2 ^ 31 then Int32.ofNat i else -1)) s := by
    change EStateM.bind (readArray span name) _ s = _
    unfold EStateM.bind
    rw [readArray_eq hget]
    dsimp only
    rw [hmatch]
    cases items.findIdx? (isMatch v) <;> rfl
  rw [hvalue]
  cases hfind : items.findIdx? (isMatch v) with
  | none => exact ⟨-1, rfl, rfl⟩
  | some i =>
    have hi : i < 2 ^ 31 := by
      rw [List.findIdx?_eq_some_iff_getElem] at hfind
      obtain ⟨hi, -⟩ := hfind
      omega
    exact ⟨if i < 2 ^ 31 then .ofNat i else -1, rfl, by rw [if_pos hi]; rfl⟩

theorem joined_eq (hget : s.env.get name = .ok ⟨kind, .array k items⟩) :
    joined span name s = .ok (.text (",".intercalate (items.map Value.display))) s := by
  change EStateM.bind (readArray span name) _ s = _
  unfold EStateM.bind
  rw [readArray_eq hget]
  rfl

theorem printLine_singleton (v : Value) :
    printLine [v] s = .ok () { s with lines := s.lines.push v.display } := by
  have hline : printLine [v] s = .ok () { s with lines := s.lines.push (" ".intercalate [v.display]) } := rfl
  rw [hline, String.intercalate_singleton]

end Evaluator

section Routines

variable {L : Layout} {lines : List Line} {core : Core} {r : Region} {elem : Scalar} {items : List Value} {s : State}
  {name : String} {span : Span} {kind k : Kind}

/--
The routines on arrays do what the evaluator does with the array of a variable. They find the first element that is
equal to a value of the kind of elements, or return -1; they return the text of the joined elements; and they output the
text of the array. Chars are found whatever they are, and are joined and printed if they are ASCII and not zero. Ints
are joined right if the heap they take up is in one half of the memory, for their digits are reversed in place by
addresses that are compared as signed numbers; `arrayJoin_acrossHalves` is about one whose digits are in both.
-/
theorem arrayRoutines_agree (hlinked : Linked L lines) (harray : ArrayAt core r elem items)
    (haddress : core.get .a0 = r.address) (hget : s.env.get name = .ok ⟨kind, .array k items⟩) :
    (∀ {m : Nat} {v : Value}, lines[m]? = some (.jal Routine.arrayIndexOf.label) → m + 1 < lines.length →
      core.get .a2 = .ofInt 32 (elementCode elem) → ElementAt core (core.get .a1) elem v →
      (core.get .hp).toNat + 4 ≤ (core.get .sp).toNat →
      ∃ (n : Int32) (core' : Core), positionOf span name v s = .ok (.int n) s ∧
        Reaches L lines ⟨core, m⟩ ⟨core', m + 1⟩ ∧ core'.get .a0 = n.toBitVec ∧
        Found core core' (items.findIdx? (isMatch v))) ∧
    (core.get .a1 = .ofInt 32 (elementCode elem) → FixedTexts L core → (∀ v ∈ items, SpellsRight v) →
      (∀ {m : Nat}, lines[m]? = some (.jal Routine.arrayJoin.label) → m + 1 < lines.length →
        (core.get .hp).toNat % 4 = 0 →
        (core.get .hp).toNat + joinedSize items items.length + 20 ≤ (core.get .sp).toNat →
        (elem = .int →
          (core.get .hp).toNat + joinedSize items items.length ≤ 2 ^ 31 ∨ 2 ^ 31 ≤ (core.get .hp).toNat) →
        ∃ t core', joined span name s = .ok (.text t) s ∧ Reaches L lines ⟨core, m⟩ ⟨core', m + 1⟩ ∧
          Joined core core' t (joinedSize items items.length)) ∧
      ∀ {m : Nat}, lines[m]? = some (.jal Routine.printArray.label) → m + 1 < lines.length →
        printLine [.array k items] s = .ok () { s with lines := s.lines.push (Value.array k items).display } ∧
          ∃ core', Reaches L lines ⟨core, m⟩ ⟨core', m + 1⟩ ∧
            Prints (.ra :: scratch) core core' (bytes (Value.array k items).display)) := by
  refine ⟨fun hcall hlength hcode hv hroom => ?_, fun hcode hfixed hspells => ⟨?_, fun hcall hlength => ?_⟩⟩
  · obtain ⟨core', hg, h⟩ := found_arrayIndexOf hlinked hcall hlength (.refl _) haddress hcode harray hv hroom
    obtain ⟨n, hvalue, hn⟩ := positionOf_eq hget (by rw [harray.length]; exact harray.fits.length_lt)
    exact ⟨n, core', hvalue, hg, h.result.trans hn.symm, h⟩
  · intro m hcall hlength haligned hroom hhalf
    obtain ⟨core', hg, h⟩ := joined_arrayJoin hlinked hcall hlength (.refl _) haddress hcode harray hfixed hspells
      haligned hroom hhalf
    exact ⟨_, core', joined_eq hget, hg, h⟩
  · exact ⟨printLine_singleton _,
      prints_printArray hlinked hcall hlength (.refl _) haddress hcode hfixed harray hspells⟩

end Routines

/-! An array of three ints -/

def numbers : List Value :=
  [.int 7, .int 1, .int (-12)]

def numbersCode : List Line :=
  [.jal Routine.arrayIndexOf.label, .jal Routine.arrayJoin.label, .jal Routine.printArray.label, .j (.named "end")] ++
    [Routine.concatString, .strEquals, .intToString, .floatToString, .boolToString, .charToString, .printArray,
      .arrayIndexOf, .arrayJoin].flatMap Routine.lines

def numbersCore : Core :=
  (((((((usualStart.core.set .hp 0x10020010).set .a0 0x10020004).set .a1 1).set .a2 1).storeWord 0x10020000 3).storeWord
    0x10020004 7).storeWord 0x10020008 1).storeWord 0x1002000c (-12)

def numbersState : State :=
  ((Evaluation.Session.start ⟨true, 0, 2⟩).run 9 ⟨[.arrayDecl .unplaced .int 1 "v" (.values
    [.literal .unplaced (.int 7), .literal .unplaced (.int 1),
      .unary .unplaced .neg (.literal .unplaced (.int 12))])]⟩).session.state

theorem get_numbersState :
    numbersState.env.get "v" = .ok ⟨.array (.scalar .int), .array (.scalar .int) numbers⟩ := by
  have hnumbers : intArray? numbersState.env "v" = some [7, 1, -12] := by decide +kernel
  exact get_of_intArray? hnumbers

theorem arrayAt_numbersCore : ArrayAt numbersCore ⟨0x10020004, 3⟩ .int numbers := by
  refine ⟨rfl, by decide +kernel, fun i v hi => ?_, by decide, by decide +kernel⟩
  match i, hi with
  | 0, hi | 1, hi | 2, hi =>
    cases hi
    exact .int (by decide +kernel)

theorem fixedTexts_numbersCore : FixedTexts (.usual numbersCode) numbersCore := by
  intro string
  refine ⟨?_, ?_, ?_⟩ <;> cases string <;> decide +kernel

theorem arrayRoutines_agree_numbers : Linked (.usual numbersCode) numbersCode ∧
    ArrayAt numbersCore ⟨0x10020004, 3⟩ .int numbers ∧
    numbersState.env.get "v" = .ok ⟨.array (.scalar .int), .array (.scalar .int) numbers⟩ ∧
    (∃ core', Reaches (.usual numbersCode) numbersCode ⟨numbersCore, 0⟩ ⟨core', 1⟩ ∧ core'.get .a0 = 1) ∧
    (∃ core', Reaches (.usual numbersCode) numbersCode ⟨numbersCore, 1⟩ ⟨core', 2⟩ ∧
      Joined numbersCore core' "7,1,-12" (joinedSize numbers 3)) ∧
    ∃ core', Reaches (.usual numbersCode) numbersCode ⟨numbersCore, 2⟩ ⟨core', 3⟩ ∧
      Prints (.ra :: scratch) numbersCore core' (bytes "[7, 1, -12]") := by
  have hlinked : Linked (.usual numbersCode) numbersCode :=
    linked_usual_routines (by decide +kernel) (by decide +kernel) (by decide +kernel)
  have hspells : ∀ v ∈ numbers, SpellsRight v := by
    simp [numbers, SpellsRight]
  have hheap : (numbersCore.get .hp).toNat % 4 = 0 ∧
      (numbersCore.get .hp).toNat + joinedSize numbers 3 + 20 ≤ (numbersCore.get .sp).toNat ∧
      (numbersCore.get .hp).toNat + joinedSize numbers 3 ≤ 2 ^ 31 := by
    decide +kernel
  obtain ⟨haligned, hroom, hhalf⟩ := hheap
  obtain ⟨hsearch, htexts⟩ := @arrayRoutines_agree (.usual numbersCode) numbersCode numbersCore ⟨0x10020004, 3⟩ .int
    numbers numbersState "v" .unplaced _ _ hlinked arrayAt_numbersCore (by decide +kernel) get_numbersState
  obtain ⟨hjoin, hprint⟩ := htexts (by decide +kernel) fixedTexts_numbersCore hspells
  obtain ⟨-, core₁, -, hg₁, -, h₁⟩ := @hsearch 0 (.int 1) rfl (by decide +kernel) (by decide +kernel)
    (.int (by decide +kernel)) (by decide +kernel)
  obtain ⟨t, core₂, ht, hg₂, h₂⟩ := @hjoin 1 rfl (by decide +kernel) haligned hroom fun _ => .inl hhalf
  obtain ⟨-, core₃, hg₃, h₃⟩ := @hprint 2 rfl (by decide +kernel)
  have hposition : positionWord (numbers.findIdx? (isMatch (.int 1))) = 1 := by decide +kernel
  have hjoined : ",".intercalate (numbers.map Value.display) = "7,1,-12" := by decide +kernel
  have hdisplay : (Value.array (.scalar .int) numbers).display = "[7, 1, -12]" := by decide +kernel
  rw [joined_eq get_numbersState, hjoined] at ht
  cases ht
  rw [hdisplay] at h₃
  exact ⟨hlinked, arrayAt_numbersCore, get_numbersState, ⟨core₁, hg₁, h₁.result.trans hposition⟩, ⟨core₂, hg₂, h₂⟩,
    core₃, hg₃, h₃⟩

/-! An int with its digits in both halves of the memory -/

def joinCall : List Line :=
  [.jal Routine.arrayJoin.label, .j (.named "end")] ++
    [Routine.concatString, .intToString, .floatToString, .boolToString, .charToString, .arrayJoin].flatMap Routine.lines

def middleCore : Core :=
  (((((usualStart.core.set .hp 0x7ffffffc).set .sp 0x80001000).set .a0 0x10020004).set .a1 1).storeWord
    0x10020000 1).storeWord 0x10020004 12345

def middleState : State :=
  ((Evaluation.Session.start ⟨true, 0, 1⟩).run 9 ⟨[.arrayDecl .unplaced .int 1 "v" (.values
    [.literal .unplaced (.int 12345)])]⟩).session.state

/--
The digits are pushed from the last one to the first one, and stay as they are pushed: the address of the first byte is
greater, as a signed number, than that of the last one.
-/
theorem arrayJoin_acrossHalves : Linked (.usual joinCall) joinCall ∧
    ArrayAt middleCore ⟨0x10020004, 1⟩ .int [.int 12345] ∧ middleCore.get .a0 = 0x10020004 ∧
    middleCore.get .a1 = .ofInt 32 (elementCode .int) ∧ FixedTexts (.usual joinCall) middleCore ∧
    (middleCore.get .hp).toNat % 4 = 0 ∧
    (middleCore.get .hp).toNat + joinedSize [.int 12345] 1 + 20 ≤ (middleCore.get .sp).toNat ∧
    joined .unplaced "v" middleState = .ok (.text "12345") middleState ∧
    (∃ core', Reaches (.usual joinCall) joinCall ⟨middleCore, 0⟩ ⟨core', 1⟩ ∧
      BytesAt core'.memory (core'.get .a0) (bytes "54321" ++ [0])) ∧
    ¬∃ core', Reaches (.usual joinCall) joinCall ⟨middleCore, 0⟩ ⟨core', 1⟩ ∧
      TextAt core' (core'.get .a0) "12345" := by
  have hlinked : Linked (.usual joinCall) joinCall :=
    linked_usual_routines (by decide +kernel) (by decide +kernel) (by decide +kernel)
  have harray : ArrayAt middleCore ⟨0x10020004, 1⟩ .int [.int 12345] := by
    refine ⟨rfl, by decide +kernel, fun i v hi => ?_, by decide, by decide +kernel⟩
    match i, hi with
    | 0, hi =>
      cases hi
      exact .int (by decide +kernel)
  have hfixed : FixedTexts (.usual joinCall) middleCore := by
    intro string
    refine ⟨?_, ?_, ?_⟩ <;> cases string <;> decide +kernel
  have hget : intArray? middleState.env "v" = some [12345] := by decide +kernel
  have hjoined : ",".intercalate (([12345].map Value.int).map Value.display) = "12345" := by decide +kernel
  obtain ⟨⟨core', pc⟩, hend⟩ : ∃ m, (passing (.usual joinCall) joinCall 0 .a0 148 ⟨middleCore, 0⟩).2 = m := ⟨_, rfl⟩
  have hrun : (fun m : Hart => m.pc = 1 ∧ BytesAt m.core.memory (m.core.get .a0) (bytes "54321" ++ [0]))
      (passing (.usual joinCall) joinCall 0 .a0 148 ⟨middleCore, 0⟩).2 := by
    decide +kernel
  rw [hend] at hrun
  obtain ⟨rfl, hstored⟩ := hrun
  have hpasses : Passes (.usual joinCall) joinCall 0 .a0 ⟨middleCore, 0⟩ _ _ := passes_passing 148 _
  rw [hend] at hpasses
  have hstates : allStates (.usual joinCall) joinCall
      (fun m => decide (m.pc = 1 → m.core.memory (m.core.get .a0) = 0x35)) 150 ⟨middleCore, 0⟩ = true := by
    decide +kernel
  refine ⟨hlinked, harray, by decide +kernel, by decide +kernel, hfixed, by decide +kernel, by decide +kernel, ?_,
    ⟨core', hpasses.reaches, hstored⟩, ?_⟩
  · rw [joined_eq (get_of_intArray? hget), hjoined]
  · rintro ⟨core'', hg, h⟩
    have hlast : core''.memory (core''.get .a0) = 0x35 := of_decide_eq_true (check_of_allStates hstates hg) rfl
    exact absurd (hlast.symm.trans h.stored.1) (by decide)

end Arbor.Machine
