import Arbor.Proofs.Machine.Expressions

/-!
This module contains the code that prints values: it outputs their texts with spaces between, and the end of a line.
-/

namespace Arbor.Machine

open Assembly Evaluation
open Lowering (Frame SlotKind PrintCode shownCode printCode)

def spelled (separator : List UInt8) : List Value → List UInt8
  | [] => []
  | v :: rest => separator ++ bytes v.display ++ spelled (bytes " ") rest

theorem spelled_space {v : Value} {rest : List Value} :
    spelled (bytes " ") (v :: rest) = bytes " " ++ spelled [] (v :: rest) := by
  simp [spelled]

theorem spelled_eq (vs : List Value) :
    spelled [] vs = bytes (" ".intercalate (vs.map Value.display)) := by
  induction vs with
  | nil => rfl
  | cons v rest ih =>
    cases rest with
    | nil => simp [spelled]
    | cons w rest =>
      rw [spelled, spelled_space, ih]
      simp [String.intercalate_cons_cons]

theorem printed_push (lines : Array String) (line : String) :
    printed (lines.push line) = printed lines ++ (bytes line ++ [newline]) := by
  simp [printed]

namespace Process

section Pieces

variable {p : Process} {k k' n : Nat} {core : Core} {f : Frame} {kept : Nat → Word}
  {pending xs : List UInt8} {s : State} {kind : SlotKind} {len : Option Nat} {v : Value}
  {cx : Context} {c : List Line}

theorem Holds.written (h : p.Holds f kept pending s core) :
    p.Holds f kept (pending ++ xs) s (core.write xs) where
  words := by
    obtain ⟨words, hwords⟩ := h.words
    exact ⟨words, hwords.load, hwords.bound⟩
  room := h.room
  strings := h.strings
  output := by
    rw [← List.append_assoc, ← h.output]
    rfl
  sp := Core.get_write.trans h.sp

theorem Holds.ended {line : String} (h : p.Holds f kept (bytes line ++ [newline]) s core) :
    p.Holds f kept [] { s with lines := s.lines.push line } core where
  words := h.words
  room := h.room
  strings := h.strings
  output := by rw [printed_push, List.append_nil, h.output]
  sp := h.sp

theorem Holds.printedCode {char : Char} (hchar : char = ' ' ∨ char = '\n')
    (h : p.Holds f kept pending s core) (hg : p.Gets k core) (hc : CodeAt p.lines k (printCode char) k') :
    p.At k' (p.Holds f kept (pending ++ bytes char.toString)) s := by
  have hbyte : [UInt8.ofBitVec ((BitVec.ofInt 32 (charCode char)).setWidth 8)] = bytes char.toString := by
    rcases hchar with rfl | rfl <;> decide +kernel
  refine ⟨(((core.set .a0 (.ofInt 32 (charCode char))).set .a7 11#32).write (bytes char.toString)),
    hg.straight hc ?_, ((h.set (by decide)).set (by decide)).written⟩
  simp [printCode, syscall, runLine, effect, service, Core.get_set, Core.get_set_of_ne, hbyte]

theorem Holds.printedString {string : FixedString} (h : p.Holds f kept pending s core) (hg : p.Gets k core)
    (hc : CodeAt p.lines k (syscall 4) k') (ha₀ : core.get .a0 = p.layout.data string.label) :
    p.At k' (p.Holds f kept (pending ++ bytes (content string))) s := by
  have hasked : p.Holds f kept pending s (core.set .a7 4#32) := h.set (by decide)
  refine ⟨(core.set .a7 4#32).write (bytes (content string)), hg.straight hc ?_, hasked.written⟩
  have ha₀ : (core.set .a7 4#32).get .a0 = p.layout.data string.label :=
    (Core.get_set_of_ne (by decide)).trans ha₀
  simp [syscall, runLine, effect, service_string hasked.strings (Core.get_set (by decide)) ha₀]

theorem service_int {n : Int32} (ha₇ : core.get .a7 = 1) (ha₀ : core.get .a0 = n.toBitVec) :
    service core = some (core.write (bytes (Value.int n).display)) := by
  unfold service
  rw [ha₇, ha₀]
  rfl

theorem Pushed.printed {label : Nat} (h : p.Pushed f kept pending kind len k v s)
    (hc : CodeAt p.lines k (shownCode label kind) k') :
    p.At k' (p.Holds f kept (pending ++ bytes v.display)) s := by
  obtain ⟨hv, core, hg, h⟩ := h
  cases hv with
  | int n =>
    obtain ⟨m, hpop, hcall⟩ := codeAt_append.mp hc
    obtain ⟨core', hg', h', ha₀, -⟩ := h.popped hg hpop (by decide) (by decide)
    have hasked : p.Holds f kept pending s (core'.set .a7 1#32) := h'.set (by decide)
    have ha₀ : (core'.set .a7 1#32).get .a0 = n.toBitVec := (Core.get_set_of_ne (by decide)).trans ha₀
    have hrun : runLines p.layout core' (syscall 1) =
        some ((core'.set .a7 1#32).write (bytes (Value.int n).display)) := by
      simp only [syscall, runLines_cons, runLine, effect, Option.bind_some]
      exact congrArg (Option.bind · _) (service_int (Core.get_set (by decide)) ha₀)
    exact ⟨_, hg'.straight hcall hrun, hasked.written⟩
  | bool b =>
    obtain ⟨m, hpop, hc⟩ := codeAt_append.mp hc
    obtain ⟨core', hg', h', ht₀, -⟩ := h.popped hg hpop (by decide) (by decide)
    simp only [codeAt_instruction, codeAt_label] at hc
    obtain ⟨hla, hbnez, hla', hlabel, hcall⟩ := hc
    have hloaded : p.Gets (m + 1) (core'.set .a0 (p.layout.data FixedString.trueText.label)) :=
      Reaches.step hg' (step_instruction hla rfl)
    have hbranch := hloaded.branchZero hbnez hlabel
    rw [Core.get_set_of_ne (by decide), ht₀] at hbranch
    cases b with
    | true =>
      have htext : (Value.bool true).display = content .trueText := by decide +kernel
      rw [if_pos (by decide)] at hbranch
      rw [htext]
      exact (h'.set (by decide)).printedString (hbranch.label hlabel) hcall (Core.get_set (by decide))
    | false =>
      have htext : (Value.bool false).display = content .falseText := by decide +kernel
      rw [if_neg (by decide)] at hbranch
      rw [htext]
      have hother := Reaches.step hbranch (step_instruction hla' rfl)
      rw [Core.set_set] at hother
      exact (h'.set (by decide)).printedString (Gets.label hother hlabel) hcall (Core.get_set (by decide))

/--
The code that prints values keeps up with their evaluation. What it has printed when the evaluation fails is no whole
line.
-/
theorem follows_evaluateAll {n' : Nat} {separator : List Line} {args : List Expr}
    (hprint : PrintCode f n separator args c n') (hwords : ∀ e ∈ args, e.onWords = true)
    (hpending : newline ∉ pending)
    (hseparator : separator = [] ∧ xs = [] ∨ separator = printCode ' ' ∧ xs = bytes " ")
    (hc : CodeAt p.lines k c k') :
    Triple (p.At k (p.Holds f kept pending)) (evaluateAll cx (fun _ x => x) args)
      (fun vs => p.At k' (p.Holds f kept (pending ++ spelled xs vs))) p.Halts := by
  induction hprint generalizing pending xs k k' with
  | nil =>
    cases hc
    rw [evaluateAll]
    apply Triple.pure
    simp [spelled]
  | @cons _ _ _ separator e rest _ _ c₁ c₂ he _ ih =>
    rw [List.forall_mem_cons] at hwords
    rw [List.append_assoc, List.append_assoc] at hc
    obtain ⟨m₁, hseparate, hc⟩ := codeAt_append.mp hc
    obtain ⟨m₂, hexpr, hc⟩ := codeAt_append.mp hc
    obtain ⟨m₃, hshown, hrest⟩ := codeAt_append.mp hc
    have hseparated : newline ∉ xs ∧ ∀ s, p.At k (p.Holds f kept pending) s →
        p.At m₁ (p.Holds f kept (pending ++ xs)) s := by
      rcases hseparator with ⟨rfl, rfl⟩ | ⟨rfl, rfl⟩
      · cases hseparate
        refine ⟨List.not_mem_nil, fun s hs => ?_⟩
        rwa [List.append_nil]
      · refine ⟨by decide +kernel, fun s hs => ?_⟩
        obtain ⟨core, hg, h⟩ := hs
        exact h.printedCode (.inl rfl) hg hseparate
    have hpending₁ : newline ∉ pending ++ xs := by
      rw [List.mem_append, not_or]
      exact ⟨hpending, hseparated.1⟩
    rw [evaluateAll]
    apply Triple.bind
    · exact (follows_evaluate he hwords.1 (by simp) hpending₁ hexpr).pre hseparated.2
    · intro v
      apply Triple.assuming fun _ hs => hs.value
      intro hv
      apply Triple.pre _ fun s hs => Pushed.printed hs hshown
      have hpending₂ : newline ∉ pending ++ xs ++ bytes v.display := by
        rw [List.mem_append, not_or]
        exact ⟨hpending₁, hv.newline_notMem⟩
      apply Triple.bind (ih hwords.2 hpending₂ (.inr ⟨rfl, rfl⟩) hrest)
      intro vs
      apply Triple.pure
      intro s hs
      rwa [spelled, ← List.append_assoc, ← List.append_assoc]

end Pieces

end Process

end Arbor.Machine
