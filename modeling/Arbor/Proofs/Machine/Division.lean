import Arbor.Proofs.Machine.Listing
import Arbor.Proofs.Machine.Memory

/-!
This module contains the check of a divisor: the routine returns, or the machine exits inside of it.
-/

namespace Arbor.Machine

open Assembly Lowering

def FailsIn (L : Layout) (lines : List Line) (start : Hart) (i j : Nat) (output : List UInt8) : Prop :=
  ∃ core k, Reaches L lines start ⟨core, k⟩ ∧ i ≤ k ∧ k < j ∧ step L lines ⟨core, k⟩ = .exited 1 ∧
    core.output = output

section Division

variable {L : Layout} {lines : List Line} {start : Hart} {core : Core} {i j k k' : Nat}

theorem FailsIn.mono {output : List UInt8} {i' j' : Nat} (h : FailsIn L lines start i j output) (hi : i' ≤ i)
    (hj : j ≤ j') : FailsIn L lines start i' j' output := by
  obtain ⟨core, k, hreaches, hik, hkj, hexit⟩ := h
  exact ⟨core, k, hreaches, Nat.le_trans hi hik, Nat.lt_of_lt_of_le hkj hj, hexit⟩

theorem Reaches.fail {string : FixedString} (h : Reaches L lines start ⟨core, k⟩)
    (hc : CodeAt lines k (failWith string) k') :
    FailsIn L lines start k k' (core.output ++ stringAt core.memory (L.data string.label) (2 ^ 32)) := by
  have hlines : failWith string =
      [.la .a0 string.label, .li .a7 4, .ecall, .li .a0 1, .li .a7 93] ++ [.ecall] := rfl
  rw [hlines, codeAt_append] at hc
  obtain ⟨m, hc, hecall⟩ := hc
  obtain ⟨hline, rfl⟩ := codeAt_instruction.mp hecall
  have hasked : service ((core.set .a0 (L.data string.label)).set .a7 4#32) =
      some (((core.set .a0 (L.data string.label)).set .a7 4#32).write
        (stringAt core.memory (L.data string.label) (2 ^ 32))) := rfl
  have hrun : Reaches L lines start
      ⟨((((core.set .a0 (L.data string.label)).set .a7 4#32).write
        (stringAt core.memory (L.data string.label) (2 ^ 32))).set .a0 1#32).set .a7 93#32, m⟩ := by
    apply Reaches.straight hc _ h
    simp [runLine, effect, hasked]
  refine ⟨_, m, hrun, hc.le, Nat.lt_succ_self m, ?_, rfl⟩
  simp [Machine.step, hline]
  rfl

theorem Reaches.checkDivZero (hroutine : CodeAt lines i Routine.checkDivZero.lines j)
    (hunique : ∀ l, labelCount l lines ≤ 1) (hfits : L.Fits lines) (h : Reaches L lines start ⟨core, k⟩)
    (hl : lines[k]? = some (.jal Routine.checkDivZero.label)) (hlength : k + 1 < lines.length) :
    if core.get .a0 = 0 then
      FailsIn L lines start i j
        (core.output ++ stringAt core.memory (L.data FixedString.divisionByZero.label) (2 ^ 32))
    else ∃ w, Reaches L lines start ⟨core.set .ra w, k + 1⟩ := by
  have hlines : Routine.checkDivZero.lines =
      .label Routine.checkDivZero.label :: .comment "a0 = divisor" ::
        .beqz .a0 (Routine.checkDivZero.place "fail") :: .ret ::
        .label (Routine.checkDivZero.place "fail") :: (failWith .divisionByZero ++ [.ret]) := rfl
  rw [hlines, codeAt_label] at hroutine
  obtain ⟨hlabel, hroutine⟩ := hroutine
  obtain ⟨m, hcall, hm, hroutine⟩ := ((h.call hl hlabel (hunique _)).label hlabel).comment hroutine
  simp only [codeAt_instruction, codeAt_label, codeAt_append, codeAt_nil] at hroutine
  obtain ⟨hbeqz, hret, hplace, m', hfail, -, rfl⟩ := hroutine
  have hbranch := hcall.branchZero hbeqz hplace (hunique _)
  rw [Core.get_set_of_ne (by decide)] at hbranch
  split
  · next hzero =>
    rw [if_pos (by simpa [zeroBranchTaken] using hzero)] at hbranch
    exact ((hbranch.label hplace).fail hfail).mono (by omega) (Nat.le_succ m')
  · next hzero =>
    rw [if_neg (by simpa [zeroBranchTaken] using hzero)] at hbranch
    exact ⟨_, hbranch.ret hret hl hlength hfits (Core.get_set (by decide))⟩

end Division

end Arbor.Machine
