import Arbor.Proofs.Machine.Frames
import Arbor.Proofs.Machine.Programs

/-!
This module contains the calling convention of the routines of the runtime: what every routine leaves as it was when it
returns, whatever it was called with.
-/

namespace Arbor.Machine

open Assembly Lowering

def savedRegisters : Routine → List Register
  | .arrayIndexOf => [.ra]
  | .arrayJoin => [.ra, .s2, .s3, .s4, .s5]
  | _ => []

def framedLines (r : Routine) : List Line :=
  (r.body.drop ((savedRegisters r).length + 1)).take (r.body.length - 2 * ((savedRegisters r).length + 1))

theorem framed_lines : ∀ r ∈ [Routine.arrayIndexOf, .arrayJoin],
    r.lines = .label r.label :: (enterLines (savedRegisters r) ++
      (framedLines r ++ (leaveLines (savedRegisters r) ++ [.ret]))) ∧
    (∀ l ∈ framedLines r, l.callee? = none → onlyChanges (savedRegisters r ++ scratch) l = true) ∧
    isContained (framedLines r) = true ∧ Line.ret ∉ framedLines r ∧
    .ra ∈ savedRegisters r ∧ .sp ∉ savedRegisters r ∧ .zero ∉ savedRegisters r ∧ .hp ∉ savedRegisters r := by
  decide +kernel

/--
A machine that enters a routine of a listing. The routine and those that it calls are in the listing, and the heap
pointer is at the start of a word. Between the address up to which the heap may grow and the stack of the caller there
is room for the frame of the routine, and the stack pointer is the address of a word.
-/
structure Enters (L : Layout) (lines : List Line) (r : Routine) (top : Nat) (m : FloatHart) : Prop where
  fits : L.Fits lines
  unique : ∀ l, labelCount l lines ≤ 1
  routine : ∀ s ∈ r :: r.requirements, ∃ k k', CodeAt lines k s.lines k'
  entry : target? lines r.label = some m.pc
  aligned : m.state.heapTop % 4 = 0
  stack : top + 4 * (savedRegisters r).length ≤ (m.state.get .sp).toNat
  word : (m.state.get .sp).toNat + 4 ≤ 2 ^ 32

section Convention

variable {u : FloatUnit} {L : Layout} {lines : List Line} {r : Routine} {top n : Nat} {m f : FloatHart}

theorem Enters.exists_codeAt (h : Enters L lines r top m) : ∃ k', CodeAt lines m.pc r.lines k' := by
  obtain ⟨k, k', hc⟩ := h.routine r List.mem_cons_self
  have hentry := h.entry
  rw [target?_eq (codeAt_label.mp hc).1 (h.unique _)] at hentry
  cases hentry
  exact ⟨k', hc⟩

theorem Enters.callsLeaves (h : Enters L lines r top m) : CallsLeaves lines (framedLines r) := by
  intro t ht
  have hmem : .jal t ∈ r.lines :=
    List.mem_cons_of_mem _ (List.mem_append_left _ (List.mem_of_mem_drop (List.mem_of_mem_take ht)))
  obtain ⟨s, hs, rfl⟩ := Routine.exists_requirement hmem rfl
  obtain ⟨k, k', hc⟩ := h.routine s (List.mem_cons_of_mem _ hs)
  exact ⟨s, k, k', rfl, Routine.requirements_of_mem_requirements hs, hc⟩

/--
A routine that an accepted program uses is in its listing, with the routines that it calls.
-/
theorem enters_of_generate {config : GeneratorConfig} {program : Program} {file : File}
    (haccepted : generate config program = .ok file) (hfits : L.Fits (listing file)) (hr : r ∈ file.used)
    (hentry : target? (listing file) r.label = some m.pc) (haligned : m.state.heapTop % 4 = 0)
    (hstack : top + 4 * (savedRegisters r).length ≤ (m.state.get .sp).toNat)
    (hword : (m.state.get .sp).toNat + 4 ≤ 2 ^ 32) : Enters L (listing file) r top m where
  fits := hfits
  unique _ := labelCount_listing_le_one haccepted
  routine s hs := by
    rcases List.mem_cons.mp hs with rfl | hs
    · exact codeAt_routine haccepted hr
    · exact codeAt_routine haccepted (requirement_mem_used haccepted hr hs)
  entry := hentry
  aligned := haligned
  stack := hstack
  word := hword

theorem Enters.ensures_honours (h : Enters L lines r top m) :
    Ensures u L lines (HasRoom lines top) n m (Honours L lines (m.state.get .sp).toNat m.state) := by
  obtain ⟨k', hc⟩ := h.exists_codeAt
  have hstack := h.stack
  have hword := h.word
  by_cases hr : r.requirements = []
  · apply (Ensures.honours_leaf (by omega) h.unique hr hc h.aligned).mono
    intro f hf
    exact ⟨hf.returns, hf.grown.mono (List.Subset.refl _) (by omega), hf.aligned⟩
  · have hmem : r ∈ [Routine.arrayIndexOf, .arrayJoin] := by
      cases r <;> first | decide | exact absurd rfl hr
    obtain ⟨hlines, hchanges, hcontained, hret, hrs⟩ := framed_lines r hmem
    rw [hlines] at hc
    exact Ensures.honours_framed hstack hword h.unique h.fits hrs hchanges hcontained hret h.callsLeaves hc h.aligned

/--
A routine that returns goes to the address that it was called from. It has changed no registers but scratch registers
and the heap pointer, and no memory below where the heap pointer was or on the stack of its caller. The heap pointer
has not moved back and is at the start of a word. The checks have changed nothing.
-/
theorem honours_of_returns (h : Enters L lines r top m) (hcall : Returns u L lines (HasRoom lines top) n m f) :
    Honours L lines (m.state.get .sp).toNat m.state f ∧
      (r = .checkDivZero ∨ r = .checkBounds → f.state = m.state) := by
  refine ⟨h.ensures_honours.of_returns n (Nat.lt_succ_self n) f hcall, fun hr => ?_⟩
  obtain ⟨k', hc⟩ := h.exists_codeAt
  exact (Ensures.unchanged h.unique hr hc).of_returns n (Nat.lt_succ_self n) f hcall

end Convention

/-! Calls that return -/

def hasRoom (lines : List Line) (top : Nat) (m : FloatHart) : Bool :=
  match lines[m.pc]? with
  | some (.sb _ offset .hp) => m.state.heapTop + offset < top && m.state.heapTop ≤ top
  | l => l == some (.andi .hp .hp (-4)) || m.state.heapTop ≤ top

def runCall (u : FloatUnit) (L : Layout) (lines : List Line) (top : Nat) : Nat → FloatHart → Option FloatHart
  | 0, _ => none
  | n + 1, m =>
    if hasRoom lines top m then
      match lines[m.pc]?, next? u L lines m with
      | some .ret, some m' => some m'
      | some (.jal _), some m' => (runCall u L lines top n m').bind (runCall u L lines top n)
      | some _, some m' => runCall u L lines top n m'
      | _, _ => none
    else none

section Runs

variable {u : FloatUnit} {L : Layout} {lines : List Line} {top n : Nat} {m f : FloatHart}

theorem HasRoom.of_hasRoom (h : hasRoom lines top m = true) : HasRoom lines top m := by
  unfold hasRoom at h
  split at h
  · next offset hline =>
    rw [Bool.and_eq_true, decide_eq_true_eq, decide_eq_true_eq] at h
    refine ⟨fun r i hi => ?_, fun _ => h.2⟩
    rw [hline] at hi
    cases hi
    exact_mod_cast h.1
  · next hne =>
    refine ⟨fun r i hi => absurd hi (hne r i), fun hline => ?_⟩
    simpa [hline] using h

theorem exists_returns_of_runCall (h : runCall u L lines top n m = some f) :
    ∃ i, Returns u L lines (HasRoom lines top) i m f := by
  induction n generalizing m f with
  | zero => cases h
  | succ n ih =>
    unfold runCall at h
    split at h
    · next hroom =>
      have hroom := HasRoom.of_hasRoom hroom
      split at h
      · next hline hnext =>
        cases h
        exact ⟨1, .ret hroom hline hnext⟩
      · next hline hnext =>
        obtain ⟨m₁, hcall, hrest⟩ := Option.bind_eq_some_iff.mp h
        obtain ⟨i, hi⟩ := ih hcall
        obtain ⟨j, hj⟩ := ih hrest
        exact ⟨i + j + 1, .call hroom hline hnext hi hj⟩
      · next hret hjal hline hnext =>
        obtain ⟨i, hi⟩ := ih h
        exact ⟨i + 1, .step hroom hline hret (fun t => hjal t) hnext hi⟩
      · cases h
    · cases h

end Runs

def joiningLines : List Line :=
  .jal Routine.arrayJoin.label :: syscall 10 ++
    (Routine.arrayJoin :: Routine.arrayJoin.requirements).flatMap Routine.lines

def joining : FloatHart where
  state :=
    { core :=
        { registers := fun
            | .ra => (Layout.usual joiningLines).code 1
            | .sp => 0x7fffeffc
            | .hp => 0x10040000
            | .a0 => 0x10030004
            | .a1 => 1
            | _ => 0
          memory := fun a =>
            if a = 0x10030000 then 2 else if a = 0x10030004 then 4 else if a = 0x10030008 then 0xfe
            else if 0x10030009 ≤ a ∧ a ≤ 0x1003000b then 0xff else usualMemory a
          output := [] }
      floats := fun _ => 0 }
  pc := 3

def FloatUnit.idle : FloatUnit :=
  ⟨fun _ _ _ => 0, fun _ _ => 0, fun _ _ _ => false, fun _ => 0, fun _ => 0, fun _ => []⟩

theorem enters_joining : Enters (Layout.usual joiningLines) joiningLines .arrayJoin 0x10050000 joining where
  fits := Layout.fits_usual (by decide +kernel)
  unique := Lowering.labelCount_le_one_of_nodup (by decide +kernel)
  routine s hs := by
    obtain ⟨before, after, hsplit⟩ := List.append_of_mem hs
    have hlines : joiningLines = (.jal Routine.arrayJoin.label :: syscall 10 ++ before.flatMap Routine.lines) ++
        s.lines ++ after.flatMap Routine.lines := by
      rw [joiningLines, hsplit]
      simp
    rw [hlines]
    exact ⟨_, _, codeAt_of_append ..⟩
  entry := by decide +kernel
  aligned := by decide +kernel
  stack := by decide +kernel
  word := by decide +kernel

theorem honours_joining : ∃ n f,
    Enters (Layout.usual joiningLines) joiningLines .arrayJoin 0x10050000 joining ∧
    Returns .idle (Layout.usual joiningLines) joiningLines (HasRoom joiningLines 0x10050000) n joining f ∧
    Honours (Layout.usual joiningLines) joiningLines 0x7fffeffc joining.state f := by
  have hreturns : (runCall .idle (Layout.usual joiningLines) joiningLines 0x10050000 400 joining).isSome = true := by
    decide +kernel
  obtain ⟨f, hf⟩ := Option.isSome_iff_exists.mp hreturns
  obtain ⟨n, hcall⟩ := exists_returns_of_runCall hf
  exact ⟨n, f, enters_joining, hcall, (honours_of_returns enters_joining hcall).1⟩

example : ((runCall .idle (Layout.usual joiningLines) joiningLines 0x10050000 400 joining).map fun f =>
    stringAt f.state.core.memory (f.state.get .a0) 10) = some (bytes "4,-2") := by
  decide +kernel

end Arbor.Machine
