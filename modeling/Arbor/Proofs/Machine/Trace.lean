import Arbor.Proofs.Machine.Passage

/-!
This module contains runs with the words that a line of the listing computes, and what can be said of a line that a run
does not pass. Code that gets somewhere in every listing gets there without the lines that are not its own.
-/

namespace Arbor.Machine

open Assembly
open Lowering (labelCount)

variable {L : Layout} {lines : List Line} {line : Nat} {rd : Register} {m m' m'' : Hart} {ws us : List Word}

/-! Words that a line computes -/

def passed (line : Nat) (rd : Register) (m m' : Hart) : List Word :=
  if m.pc = line then [m'.core.get rd] else []

theorem passed_of_ne (h : m.pc ≠ line) : passed line rd m m' = [] :=
  if_neg h

/--
The machine gets from one state to another, and some words are in a register after the steps from a line.
-/
inductive Passes (L : Layout) (lines : List Line) (line : Nat) (rd : Register) :
    Hart → List Word → Hart → Prop where
  | refl (m : Hart) : Passes L lines line rd m [] m
  | step {m m' m'' : Hart} {ws : List Word} :
    Passes L lines line rd m ws m' → step L lines m' = .running m'' →
    Passes L lines line rd m (ws ++ passed line rd m' m'') m''

namespace Passes

theorem reaches (h : Passes L lines line rd m ws m') : Reaches L lines m m' := by
  induction h with
  | refl => exact .refl _
  | step _ hstep ih => exact ih.step hstep

theorem trans (h : Passes L lines line rd m ws m') (h' : Passes L lines line rd m' us m'') :
    Passes L lines line rd m (ws ++ us) m'' := by
  induction h' with
  | refl => rwa [List.append_nil]
  | step _ hstep ih =>
    rw [← List.append_assoc]
    exact ih.step hstep

end Passes

def passing (L : Layout) (lines : List Line) (line : Nat) (rd : Register) : Nat → Hart → List Word × Hart
  | 0, m => ([], m)
  | n + 1, m =>
    match Machine.step L lines m with
    | .running m' =>
      let rest := passing L lines line rd n m'
      (passed line rd m m' ++ rest.1, rest.2)
    | _ => ([], m)

theorem passes_passing (n : Nat) (m : Hart) :
    Passes L lines line rd m (passing L lines line rd n m).1 (passing L lines line rd n m).2 := by
  induction n generalizing m with
  | zero => exact .refl m
  | succ n ih =>
    rw [passing]
    split
    · next m' hstep =>
      have hone : Passes L lines line rd m ([] ++ passed line rd m m') m' := (Passes.refl m).step hstep
      rw [List.nil_append] at hone
      exact hone.trans (ih m')
    · exact .refl m

/-! Lines out of order -/

def unknownLine : Line :=
  .floatOfBits .fa0 .t0

def without (lines : List Line) (line : Nat) : List Line :=
  lines.set line unknownLine

section Without

variable {i : Instruction} {c : List Line} {k k' : Nat}

theorem without_of_ne {n : Nat} (h : n ≠ line) : (without lines line)[n]? = lines[n]? :=
  List.getElem?_set_ne h.symm

theorem target?_without (hl : lines[line]? = some (.instruction i)) (t : Label) :
    target? (without lines line) t = target? lines t := by
  have hfind (xs : List Line) : target? xs t = (xs.map (· == .label t)).findIdx? id := by
    rw [List.findIdx?_map]
    rfl
  have hsame : (without lines line).map (· == .label t) = lines.map (· == .label t) := by
    apply List.ext_getElem?
    intro n
    rw [List.getElem?_map, List.getElem?_map]
    by_cases hn : n = line
    · rw [hn, without, List.getElem?_set_self (List.getElem?_eq_some_iff.mp hl).1, hl]
      rfl
    · rw [without_of_ne hn]
  rw [hfind, hfind, hsame]

theorem labelCount_without (hl : lines[line]? = some (.instruction i)) (t : Label) :
    labelCount t (without lines line) = labelCount t lines := by
  obtain ⟨hlt, hline⟩ := List.getElem?_eq_some_iff.mp hl
  unfold labelCount without
  rw [List.countP_set hlt, hline]
  rfl

theorem step_without (hl : lines[line]? = some (.instruction i)) (hne : m.pc ≠ line) :
    step L (without lines line) m = step L lines m := by
  have hlineAt (a : Word) : lineAt? L (without lines line) a = lineAt? L lines a := by
    rw [lineAt?, without, List.length_set]
    rfl
  unfold step
  simp only [without_of_ne hne, target?_without hl, hlineAt]

theorem step_unknownLine (hlt : line < lines.length) (hpc : m.pc = line) : step L (without lines line) m = .stuck := by
  have hline : (without lines line)[m.pc]? = some unknownLine := by
    rw [hpc]
    exact List.getElem?_set_self hlt
  unfold step
  rw [hline]
  rfl

/--
A run that gets somewhere without a line does not pass it.
-/
theorem Passes.of_without (hl : lines[line]? = some (.instruction i)) (h : Reaches L (without lines line) m m') :
    Passes L lines line rd m [] m' := by
  induction h with
  | refl => exact .refl _
  | @step m' m'' _ hstep ih =>
    have hne : m'.pc ≠ line := by
      intro hpc
      rw [step_unknownLine (List.getElem?_eq_some_iff.mp hl).1 hpc] at hstep
      cases hstep
    rw [step_without hl hne] at hstep
    have hpasses : Passes L lines line rd _ ([] ++ passed line rd m' m'') m'' := ih.step hstep
    rwa [passed_of_ne hne] at hpasses

theorem CodeAt.congr {lines' : List Line} (hc : CodeAt lines k c k')
    (h : ∀ n l, k ≤ n → n < k' → l ∈ c → lines[n]? = some l → lines'[n]? = some l) : CodeAt lines' k c k' := by
  induction c generalizing k with
  | nil => exact hc
  | cons l rest ih =>
    rcases hc with ⟨hl, hrest⟩ | ⟨hl, hrest⟩
    · refine .inl ⟨h k l (Nat.le_refl _) hrest.le List.mem_cons_self hl, ih hrest fun n l' hn hn' hl' => ?_⟩
      exact h n l' (Nat.le_of_succ_le hn) hn' (List.mem_cons_of_mem _ hl')
    · exact .inr ⟨hl, ih hrest fun n l' hn hn' hl' => h n l' hn hn' (List.mem_cons_of_mem _ hl')⟩

theorem CodeAt.without (hc : CodeAt lines k c k') (h : line < k ∨ k' ≤ line) :
    CodeAt (without lines line) k c k' :=
  hc.congr fun n l hn hn' _ hl => by
    rw [without_of_ne (by omega)]
    exact hl

theorem Linked.without (h : Linked L lines) (hl : lines[line]? = some (.instruction i))
    (hi : ∀ r : Routine, .instruction i ∉ r.lines) : Linked L (without lines line) where
  unique t := by
    rw [labelCount_without hl]
    exact h.unique t
  routine r hr := by
    have hcalled : .jal r.label ∈ lines := by
      rcases List.mem_or_eq_of_mem_set hr with hr | hr
      · exact hr
      · cases hr
    obtain ⟨k, k', hroutine⟩ := h.routine r hcalled
    refine ⟨k, k', hroutine.congr fun n l _ _ hmem hline => ?_⟩
    have hne : n ≠ line := by
      rintro rfl
      cases hl.symm.trans hline
      exact hi r hmem
    rw [without_of_ne hne, hline]
  fits := by
    constructor
    · intro k l hline hmark
      by_cases hne : k = line
      · subst hne
        rw [Machine.without, List.getElem?_set_self (List.getElem?_eq_some_iff.mp hl).1] at hline
        cases hline
        exact absurd rfl (hmark _)
      · rw [without_of_ne hne] at hline
        exact h.fits.marks k l hline hmark
    · intro k n i' hline hlt hle
      rw [Machine.without, List.length_set] at hle
      by_cases hne : k = line
      · subst hne
        exact h.fits.distinct k n i hl hlt hle
      · rw [without_of_ne hne] at hline
        exact h.fits.distinct k n i' hline hlt hle

end Without

end Arbor.Machine
