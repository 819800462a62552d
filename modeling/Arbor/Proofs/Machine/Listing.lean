import Arbor.Proofs.Lowering.Labels
import Arbor.Proofs.Machine.Basic

/-!
This module contains the places of code in a listing: where code begins and where it ends, how it is taken apart, and
what the machine does on lines that go from one to the next, and at jumps, calls and returns.
-/

namespace Arbor.Machine

open Assembly Lowering

/--
The code lies from one line of a listing up to another. Comments of the code may be left out.
-/
def CodeAt (lines : List Line) : Nat → List Line → Nat → Prop
  | k, [], k' => k' = k
  | k, l :: rest, k' =>
    lines[k]? = some l ∧ CodeAt lines (k + 1) rest k' ∨ l.isComment = true ∧ CodeAt lines k rest k'

section CodeAt

variable {lines c c' : List Line} {k k' j : Nat}

@[simp]
theorem codeAt_nil : CodeAt lines k [] k' ↔ k' = k :=
  Iff.rfl

@[simp]
theorem codeAt_instruction {i : Instruction} :
    CodeAt lines k (.instruction i :: c) k' ↔
      lines[k]? = some (.instruction i) ∧ CodeAt lines (k + 1) c k' := by
  simp [CodeAt, Line.isComment]

@[simp]
theorem codeAt_label {l : Label} :
    CodeAt lines k (.label l :: c) k' ↔ lines[k]? = some (.label l) ∧ CodeAt lines (k + 1) c k' := by
  simp [CodeAt, Line.isComment]

theorem codeAt_append :
    CodeAt lines k (c ++ c') k' ↔ ∃ m, CodeAt lines k c m ∧ CodeAt lines m c' k' := by
  induction c generalizing k with
  | nil => simp
  | cons l rest ih =>
    simp only [List.cons_append, CodeAt, ih]
    constructor
    · rintro (⟨hl, m, hrest, hc'⟩ | ⟨hl, m, hrest, hc'⟩)
      · exact ⟨m, .inl ⟨hl, hrest⟩, hc'⟩
      · exact ⟨m, .inr ⟨hl, hrest⟩, hc'⟩
    · rintro ⟨m, ⟨hl, hrest⟩ | ⟨hl, hrest⟩, hc'⟩
      · exact .inl ⟨hl, m, hrest, hc'⟩
      · exact .inr ⟨hl, m, hrest, hc'⟩

theorem codeAt_shown (before after : List Line) (comments : Bool) :
    CodeAt (before ++ Line.shown comments c ++ after) before.length c
      (before.length + (Line.shown comments c).length) := by
  induction c generalizing before with
  | nil => simp [Line.shown]
  | cons l rest ih =>
    by_cases hl : comments = false ∧ l.isComment = true
    · obtain ⟨rfl, hl⟩ := hl
      have hshown : Line.shown false (l :: rest) = Line.shown false rest := by
        simp [Line.shown, hl]
      rw [hshown]
      exact .inr ⟨hl, ih before⟩
    · have hshown : Line.shown comments (l :: rest) = l :: Line.shown comments rest := by
        cases comments with
        | true => simp
        | false =>
          have hl : l.isComment = false := by simpa using hl
          simp [Line.shown, hl]
      have hlength : before.length + (l :: Line.shown comments rest).length =
          (before ++ [l]).length + (Line.shown comments rest).length := by
        simp only [List.length_append, List.length_cons, List.length_nil]
        omega
      rw [hshown, hlength]
      refine .inl ⟨by simp, ?_⟩
      have := ih (before ++ [l])
      simpa using this

theorem CodeAt.le (h : CodeAt lines k c k') : k ≤ k' := by
  induction c generalizing k with
  | nil =>
    cases h
    exact Nat.le_refl _
  | cons l rest ih =>
    rcases h with ⟨-, hrest⟩ | ⟨-, hrest⟩
    · exact Nat.le_of_succ_le (ih hrest)
    · exact ih hrest

theorem CodeAt.exists_mem (h : CodeAt lines k c k') (hk : k ≤ j) (hk' : j < k') :
    ∃ l ∈ c, lines[j]? = some l := by
  induction c generalizing k with
  | nil =>
    cases h
    exact absurd hk' (Nat.not_lt.mpr hk)
  | cons l rest ih =>
    rcases h with ⟨hl, hrest⟩ | ⟨-, hrest⟩
    · rcases Nat.eq_or_lt_of_le hk with rfl | hlt
      · exact ⟨l, List.mem_cons_self, hl⟩
      · obtain ⟨l', hl', hline⟩ := ih hrest hlt
        exact ⟨l', List.mem_cons_of_mem _ hl', hline⟩
    · obtain ⟨l', hl', hline⟩ := ih hrest hk
      exact ⟨l', List.mem_cons_of_mem _ hl', hline⟩

theorem CodeAt.exists_label {t : Label} (h : CodeAt lines k c k') (ht : .label t ∈ c) :
    ∃ j, k ≤ j ∧ j < k' ∧ lines[j]? = some (.label t) := by
  induction c generalizing k with
  | nil => cases ht
  | cons l rest ih =>
    rcases h with ⟨hl, hrest⟩ | ⟨hl, hrest⟩
    · rcases List.mem_cons.mp ht with rfl | ht
      · exact ⟨k, Nat.le_refl _, hrest.le, hl⟩
      · obtain ⟨j, hj, hj'⟩ := ih hrest ht
        exact ⟨j, Nat.le_of_succ_le hj, hj'⟩
    · rcases List.mem_cons.mp ht with rfl | ht
      · cases hl
      · exact ih hrest ht

theorem codeAt_of_append (before after : List Line) :
    CodeAt (before ++ c ++ after) before.length c (before.length + c.length) := by
  have := codeAt_shown before after true (c := c)
  rwa [Line.shown_true] at this

theorem codeAt_start (after : List Line) : CodeAt (c ++ after) 0 c c.length := by
  have hc := codeAt_of_append [] after (c := c)
  rwa [List.nil_append, List.length_nil, Nat.zero_add] at hc

end CodeAt

/-! Jumps -/

theorem target?_eq {lines : List Line} {l : Label} {k : Nat} (hl : lines[k]? = some (.label l))
    (hunique : labelCount l lines ≤ 1) : target? lines l = some k := by
  unfold target?
  cases hfind : lines.findIdx? (· == .label l) with
  | none =>
    rw [List.findIdx?_eq_none_iff] at hfind
    have := hfind _ (List.mem_of_getElem? hl)
    simp at this
  | some m =>
    rw [List.findIdx?_eq_some_iff_getElem] at hfind
    obtain ⟨hm, hlabel, _⟩ := hfind
    have hlabel : lines[m]? = some (.label l) := by
      rw [List.getElem?_eq_getElem hm]
      simpa using hlabel
    rw [eq_of_labelCount_le_one hunique hlabel hl]

/--
The addresses of lines. A label or a comment has the address of the line after it, and no line after an instruction
has the address of the instruction.
-/
structure Layout.Fits (L : Layout) (lines : List Line) : Prop where
  marks : ∀ k l, lines[k]? = some l → (∀ i, l ≠ .instruction i) → L.code k = L.code (k + 1)
  distinct : ∀ k m i, lines[k]? = some (.instruction i) → k < m → m ≤ lines.length →
    L.code m ≠ L.code k

theorem Layout.Fits.lineAt?_eq {L : Layout} {lines : List Line} (h : L.Fits lines) {k : Nat}
    {i : Instruction} (hk : lines[k]? = some (.instruction i)) (hlength : k + 1 < lines.length) :
    lineAt? L lines (L.code (k + 1)) = some (k + 1) := by
  have hbefore (n m : Nat) (hm : m + n = k) : L.code m ≠ L.code (k + 1) := by
    induction n generalizing m with
    | zero =>
      have : m = k := by omega
      subst this
      exact (h.distinct m (m + 1) i hk (by omega) (by omega)).symm
    | succ n ih =>
      have hlt : m < lines.length := by omega
      cases hline : lines[m] with
      | instruction i' =>
        have hm' : lines[m]? = some (.instruction i') := by rw [List.getElem?_eq_getElem hlt, hline]
        exact (h.distinct m (k + 1) i' hm' (by omega) (by omega)).symm
      | label | comment =>
        rw [h.marks m _ (List.getElem?_eq_getElem hlt) (by simp [hline])]
        exact ih (m + 1) (by omega)
  unfold lineAt?
  rw [List.find?_range_eq_some]
  refine ⟨by simp, by simpa using hlength, fun m hm => ?_⟩
  simpa using hbefore (k - m) m (by omega)

/-! Straight lines -/

section Straight

variable {L : Layout} {lines c : List Line} {core core' : Core} {k k' : Nat} {start : Hart}

theorem step_instruction {i : Instruction} (hline : lines[k]? = some (.instruction i))
    (heffect : effect L core i = some core') : step L lines ⟨core, k⟩ = .running ⟨core', k + 1⟩ := by
  have hcall (n : Word) (hn : n = 10 ∨ n = 93) : ¬(i = .ecall ∧ core.get .a7 = n) := by
    rintro ⟨rfl, ha7⟩
    rcases hn with rfl | rfl <;> simp [effect, service, ha7] at heffect
  unfold step
  simp only [hline]
  cases i with
  | branch | branchZero | j | jal | ret => simp [effect] at heffect
  | _ =>
    dsimp only
    rw [if_neg (hcall 10 (.inl rfl)), if_neg (hcall 93 (.inr rfl)), heffect]

theorem step_label {l : Label} (hline : lines[k]? = some (.label l)) :
    step L lines ⟨core, k⟩ = .running ⟨core, k + 1⟩ := by
  simp [step, hline]

theorem step_comment {text : String} (hline : lines[k]? = some (.comment text)) :
    step L lines ⟨core, k⟩ = .running ⟨core, k + 1⟩ := by
  simp [step, hline]

def runLine (L : Layout) (core : Core) : Line → Option Core
  | .instruction i => effect L core i
  | _ => some core

def runLines (L : Layout) (core : Core) (c : List Line) : Option Core :=
  c.foldlM (runLine L) core

@[simp]
theorem runLines_nil : runLines L core [] = some core :=
  rfl

@[simp]
theorem runLines_cons {l : Line} :
    runLines L core (l :: c) = (runLine L core l).bind fun core => runLines L core c := by
  unfold runLines
  rw [List.foldlM_cons]
  rfl

theorem Reaches.straight (hc : CodeAt lines k c k') (hrun : runLines L core c = some core')
    (h : Reaches L lines start ⟨core, k⟩) : Reaches L lines start ⟨core', k'⟩ := by
  induction c generalizing k core with
  | nil =>
    cases hc
    cases hrun
    exact h
  | cons l rest ih =>
    rw [runLines_cons] at hrun
    cases hline : runLine L core l with
    | none => simp [hline] at hrun
    | some next =>
      rw [hline] at hrun
      rcases hc with ⟨hl, hrest⟩ | ⟨hl, hrest⟩
      · apply ih hrest hrun
        apply h.step
        cases l with
        | instruction i => exact step_instruction hl hline
        | label =>
          cases hline
          exact step_label hl
        | comment =>
          cases hline
          exact step_comment hl
      · cases l with
        | comment =>
          cases hline
          exact ih hrest hrun h
        | instruction | label => cases hl

end Straight

/-! Steps to other lines -/

section Steps

variable {L : Layout} {lines c : List Line} {core : Core} {k k' m : Nat} {t : Label} {start : Hart}

namespace Reaches

theorem label (h : Reaches L lines start ⟨core, k⟩) (hl : lines[k]? = some (.label t)) :
    Reaches L lines start ⟨core, k + 1⟩ :=
  h.step (step_label hl)

theorem comment {text : String} (h : Reaches L lines start ⟨core, k⟩)
    (hc : CodeAt lines k (.comment text :: c) k') :
    ∃ m, Reaches L lines start ⟨core, m⟩ ∧ k ≤ m ∧ CodeAt lines m c k' := by
  rcases hc with ⟨hl, hc⟩ | ⟨-, hc⟩
  · exact ⟨k + 1, h.step (step_comment hl), Nat.le_succ k, hc⟩
  · exact ⟨k, h, Nat.le_refl k, hc⟩

theorem jump (h : Reaches L lines start ⟨core, k⟩) (hl : lines[k]? = some (.j t))
    (ht : lines[m]? = some (.label t)) (hunique : labelCount t lines ≤ 1) :
    Reaches L lines start ⟨core, m⟩ := by
  apply h.step
  simp [Machine.step, hl, target?_eq ht hunique, goTo]

theorem branchZero {op : ZeroBranchOp} {rs : Register} (h : Reaches L lines start ⟨core, k⟩)
    (hl : lines[k]? = some (.instruction (.branchZero op rs t))) (ht : lines[m]? = some (.label t))
    (hunique : labelCount t lines ≤ 1) :
    Reaches L lines start ⟨core, if zeroBranchTaken op (core.get rs) then m else k + 1⟩ := by
  apply h.step
  simp only [Machine.step, hl, target?_eq ht hunique, goTo]
  split <;> rfl

theorem branch {op : BranchOp} {rs₁ rs₂ : Register} (h : Reaches L lines start ⟨core, k⟩)
    (hl : lines[k]? = some (.instruction (.branch op rs₁ rs₂ t))) (ht : lines[m]? = some (.label t))
    (hunique : labelCount t lines ≤ 1) :
    Reaches L lines start ⟨core, if branchTaken op (core.get rs₁) (core.get rs₂) then m else k + 1⟩ := by
  apply h.step
  simp only [Machine.step, hl, target?_eq ht hunique, goTo]
  split <;> rfl

theorem call (h : Reaches L lines start ⟨core, k⟩) (hl : lines[k]? = some (.jal t))
    (ht : lines[m]? = some (.label t)) (hunique : labelCount t lines ≤ 1) :
    Reaches L lines start ⟨core.set .ra (L.code (k + 1)), m⟩ := by
  apply h.step
  simp [Machine.step, hl, target?_eq ht hunique, goTo]

theorem ret {i : Instruction} (h : Reaches L lines start ⟨core, k⟩) (hl : lines[k]? = some .ret)
    (hm : lines[m]? = some (.instruction i)) (hlength : m + 1 < lines.length) (hfits : L.Fits lines)
    (hra : core.get .ra = L.code (m + 1)) : Reaches L lines start ⟨core, m + 1⟩ := by
  apply h.step
  simp [Machine.step, hl, hra, hfits.lineAt?_eq hm hlength, goTo]

end Reaches

end Steps

end Arbor.Machine
