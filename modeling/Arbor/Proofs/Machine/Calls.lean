import Arbor.Proofs.Lowering.Level
import Arbor.Proofs.Machine.Floats

/-!
This module contains the rules by which calls of routines are followed through their lines. Nothing is claimed of a
call that does not return.
-/

namespace Arbor.Machine

open Assembly Lowering

/--
Every call that goes on from a state and returns in fewer than a number of steps ends in a state with a property.
-/
structure Ensures (u : FloatUnit) (L : Layout) (lines : List Line) (ok : FloatHart → Prop) (n : Nat)
    (m : FloatHart) (Q : FloatHart → Prop) : Prop where
  of_returns : ∀ i < n, ∀ f, Returns u L lines ok i m f → Q f

def runFloatLines (u : FloatUnit) (L : Layout) (s : FloatCore) (c : List Line) : Option FloatCore :=
  c.foldlM (runFloatLine u L) s

section Steps

variable {u : FloatUnit} {L : Layout} {lines : List Line} {s : FloatCore} {m : FloatHart} {l : Line} {k : Nat}

theorem next?_cases (hline : lines[k]? = some l) (hret : l ≠ .ret) (hjal : ∀ t, l ≠ .jal t)
    (hnext : next? u L lines ⟨s, k⟩ = some m) :
    (runFloatLine u L s l = some m.state ∧ m.pc = k + 1) ∨
      (m.state = s ∧ ∃ t, l.target? = some t ∧ (m.pc = k + 1 ∨ target? lines t = some m.pc)) := by
  cases hrun : runFloatLine u L s l with
  | some s' =>
    rw [next?_of_runFloatLine hline hrun] at hnext
    cases hnext
    exact .inl ⟨rfl, rfl⟩
  | none =>
    -- A line without an effect of its own is a jump, or the machine does not go on.
    right
    unfold runFloatLine at hrun
    rw [Option.or_eq_none_iff, Option.map_eq_none_iff] at hrun
    rw [next?_eq_step hline hrun.1] at hnext
    unfold step at hnext
    simp only [hline] at hnext
    cases l with
    | label | comment => cases hrun.2
    | instruction i =>
      have hgoTo {t : Label} {m' : Hart} (h : goTo s.core (target? lines t) = .running m') :
          m'.core = s.core ∧ target? lines t = some m'.pc := by
        cases ht : target? lines t with
        | none => simp [ht, goTo] at h
        | some k' =>
          rw [ht, goTo, Outcome.running.injEq] at h
          subst h
          exact ⟨rfl, rfl⟩
      cases i with
      | branch _ _ _ t | branchZero _ _ t =>
        dsimp only at hnext
        split at hnext
        · next m' hstep =>
          cases hnext
          split at hstep
          · obtain ⟨hcore, ht⟩ := hgoTo hstep
            exact ⟨by rw [hcore], t, rfl, .inr ht⟩
          · cases hstep
            exact ⟨rfl, t, rfl, .inl rfl⟩
        · cases hnext
      | j t =>
        dsimp only at hnext
        split at hnext
        · next m' hstep =>
          cases hnext
          obtain ⟨hcore, ht⟩ := hgoTo hstep
          exact ⟨by rw [hcore], t, rfl, .inr ht⟩
        · cases hnext
      | jal t => exact absurd rfl (hjal t)
      | ret => exact absurd rfl hret
      | _ =>
        simp only [runLine] at hrun
        simp only [hrun.2] at hnext
        split at hnext
        · next m' hstep =>
          split at hstep
          · cases hstep
          · split at hstep <;> cases hstep
        · cases hnext

end Steps

/-! Rules -/

namespace Ensures

variable {u : FloatUnit} {L : Layout} {lines c : List Line} {ok : FloatHart → Prop} {n n' k k' : Nat}
  {m : FloatHart} {s s' : FloatCore} {l : Line} {t : Label} {Q R : FloatHart → Prop}

theorem zero : Ensures u L lines ok 0 m Q :=
  ⟨fun _ hi => absurd hi (Nat.not_lt_zero _)⟩

theorem fewer (h : Ensures u L lines ok n m Q) (hn : n' ≤ n) : Ensures u L lines ok n' m Q :=
  ⟨fun i hi => h.of_returns i (Nat.lt_of_lt_of_le hi hn)⟩

theorem mono (h : Ensures u L lines ok n m Q) (hQ : ∀ f, Q f → R f) : Ensures u L lines ok n m R :=
  ⟨fun i hi f hf => hQ f (h.of_returns i hi f hf)⟩

theorem of_ok (h : ok m → Ensures u L lines ok n m Q) : Ensures u L lines ok n m Q := by
  constructor
  intro i hi f hf
  have hok : ok m := by
    cases hf <;> assumption
  exact (h hok).of_returns i hi f hf

theorem counted (hline : lines[m.pc]? = some l) (hret : l ≠ .ret) (hjal : ∀ t, l ≠ .jal t)
    (h : ∀ m', next? u L lines m = some m' → Ensures u L lines ok n m' Q) :
    Ensures u L lines ok (n + 1) m Q := by
  constructor
  intro i hi f hf
  cases hf with
  | ret _ hline' =>
    rw [hline] at hline'
    cases hline'
    exact absurd rfl hret
  | call _ hline' =>
    rw [hline] at hline'
    cases hline'
    exact absurd rfl (hjal _)
  | step _ _ _ _ hnext hf => exact (h _ hnext).of_returns _ (Nat.lt_of_succ_lt_succ hi) f hf

theorem advance (hline : lines[m.pc]? = some l) (hret : l ≠ .ret) (hjal : ∀ t, l ≠ .jal t)
    (h : ∀ m', next? u L lines m = some m' → Ensures u L lines ok n m' Q) :
    Ensures u L lines ok n m Q :=
  (counted hline hret hjal h).fewer (Nat.le_succ n)

theorem line (hline : lines[k]? = some l) (hrun : runFloatLine u L s l = some s')
    (h : Ensures u L lines ok n ⟨s', k + 1⟩ Q) : Ensures u L lines ok n ⟨s, k⟩ Q := by
  apply advance hline
  · rintro rfl
    cases hrun
  · rintro t rfl
    cases hrun
  · intro m' hnext
    rw [next?_of_runFloatLine hline hrun] at hnext
    cases hnext
    exact h

theorem straight (hc : CodeAt lines k c k') (hrun : runFloatLines u L s c = some s')
    (h : Ensures u L lines ok n ⟨s', k'⟩ Q) : Ensures u L lines ok n ⟨s, k⟩ Q := by
  induction c generalizing k s with
  | nil =>
    cases hc
    cases hrun
    exact h
  | cons l rest ih =>
    unfold runFloatLines at hrun
    rw [List.foldlM_cons] at hrun
    cases hline : runFloatLine u L s l with
    | none => simp [hline] at hrun
    | some next =>
      rw [hline] at hrun
      rcases hc with ⟨hl, hrest⟩ | ⟨hl, hrest⟩
      · exact line hl hline (ih hrest hrun)
      · cases l with
        | comment =>
          cases hline
          exact ih hrest hrun
        | instruction | label => cases hl

theorem loop (hline : lines[k]? = some (.label t)) (h : Ensures u L lines ok n ⟨s, k + 1⟩ Q) :
    Ensures u L lines ok (n + 1) ⟨s, k⟩ Q := by
  apply counted hline (by simp) (by simp)
  intro m' hnext
  rw [next?_of_runFloatLine hline rfl] at hnext
  cases hnext
  exact h

theorem fork (hline : lines[k]? = some l) (ht : l.target? = some t) (hk' : target? lines t = some k')
    (htaken : Ensures u L lines ok n ⟨s, k'⟩ Q) (hnot : Ensures u L lines ok n ⟨s, k + 1⟩ Q) :
    Ensures u L lines ok n ⟨s, k⟩ Q := by
  have hret : l ≠ .ret := by
    rintro rfl
    cases ht
  have hjal (t : Label) : l ≠ .jal t := by
    rintro rfl
    cases ht
  apply advance hline hret hjal
  rintro ⟨s', pc⟩ hnext
  rcases next?_cases hline hret hjal hnext with ⟨hrun, -⟩ | ⟨rfl, t', ht', hpc⟩
  · cases l with
    | instruction i => cases i <;> cases ht <;> cases hrun
    | label | comment => cases ht
  · rw [ht] at ht'
    cases ht'
    rcases hpc with rfl | hpc
    · exact hnot
    · rw [hk'] at hpc
      cases hpc
      exact htaken

theorem branch {op : BranchOp} {r₁ r₂ : Register}
    (hline : lines[k]? = some (.instruction (.branch op r₁ r₂ t))) (hk' : target? lines t = some k')
    (htaken : branchTaken op (s.get r₁) (s.get r₂) = true → Ensures u L lines ok n ⟨s, k'⟩ Q)
    (hnot : branchTaken op (s.get r₁) (s.get r₂) = false → Ensures u L lines ok n ⟨s, k + 1⟩ Q) :
    Ensures u L lines ok n ⟨s, k⟩ Q := by
  apply advance hline (by simp) (by simp)
  intro m' hnext
  have hstep : step L lines ⟨s.core, k⟩ =
      if branchTaken op (s.get r₁) (s.get r₂) then goTo s.core (target? lines t)
      else .running ⟨s.core, k + 1⟩ := by
    unfold step
    simp only [hline]
    rfl
  rw [next?_eq_step hline rfl, hstep] at hnext
  cases hbranch : branchTaken op (s.get r₁) (s.get r₂) with
  | true =>
    rw [if_pos hbranch, hk'] at hnext
    cases hnext
    exact htaken hbranch
  | false =>
    rw [if_neg (by simp [hbranch])] at hnext
    cases hnext
    exact hnot hbranch

theorem jump (hline : lines[k]? = some (.j t)) (hk' : target? lines t = some k')
    (h : Ensures u L lines ok n ⟨s, k'⟩ Q) : Ensures u L lines ok n ⟨s, k⟩ Q := by
  apply advance hline (by simp) (by simp)
  intro m' hnext
  rw [next?_eq_step hline rfl] at hnext
  unfold step at hnext
  simp only [hline, hk', goTo] at hnext
  cases hnext
  exact h

theorem ret (hline : lines[k]? = some .ret)
    (h : ∀ k', lineAt? L lines (s.get .ra) = some k' → Q ⟨s, k'⟩) : Ensures u L lines ok n ⟨s, k⟩ Q := by
  constructor
  intro i hi f hf
  cases hf with
  | ret _ _ hnext =>
    have hstep : step L lines ⟨s.core, k⟩ = goTo s.core (lineAt? L lines (s.get .ra)) := by
      unfold step
      simp only [hline]
      rfl
    rw [next?_eq_step hline rfl, hstep] at hnext
    cases hat : lineAt? L lines (s.get .ra) with
    | none => simp [hat, goTo] at hnext
    | some k' =>
      simp only [hat, goTo, Option.some.injEq] at hnext
      subst hnext
      exact h k' hat
  | step _ hline' hret =>
    rw [hline] at hline'
    cases hline'
    exact absurd rfl hret
  | call _ hline' =>
    rw [hline] at hline'
    cases hline'

theorem call (hline : lines[k]? = some (.jal t)) (hk' : target? lines t = some k')
    (hcall : Ensures u L lines ok n ⟨s.set .ra (L.code (k + 1)), k'⟩ R)
    (h : ∀ m, R m → Ensures u L lines ok n m Q) : Ensures u L lines ok (n + 1) ⟨s, k⟩ Q := by
  constructor
  intro i hi f hf
  cases hf with
  | ret _ hline' =>
    rw [hline] at hline'
    cases hline'
  | step _ hline' _ hjal =>
    rw [hline] at hline'
    cases hline'
    exact absurd rfl (hjal t)
  | call _ hline' hnext hm hf =>
    rw [next?_eq_step hline rfl] at hnext
    unfold step at hnext
    simp only [hline, hk', goTo, Option.some.injEq] at hnext
    subst hnext
    exact (h _ (hcall.of_returns _ (by omega) _ hm)).of_returns _ (by omega) f hf

end Ensures

/-! Regions -/

/--
Code that keeps a property of states: no jump leaves it, its lines keep the property, and so do the routines that it
calls.
-/
structure Keeps (u : FloatUnit) (L : Layout) (lines : List Line) (ok : FloatHart → Prop) (I : FloatCore → Prop)
    (c : List Line) : Prop where
  jumps : ∀ l ∈ c, ∀ t, l.target? = some t → .label t ∈ c
  line : ∀ l ∈ c, ∀ k s s', lines[k]? = some l → ok ⟨s, k⟩ → I s → runFloatLine u L s l = some s' → I s'
  call : ∀ t, .jal t ∈ c → ∀ n k s, lines[k]? = some (.jal t) → k + 1 < lines.length → I s →
    ∃ k', target? lines t = some k' ∧
      Ensures u L lines ok n ⟨s.set .ra (L.code (k + 1)), k'⟩ fun f => f.pc = k + 1 ∧ I f.state

/--
A call that gets into code that keeps a property has the property wherever it leaves the code.
-/
theorem Keeps.region {u : FloatUnit} {L : Layout} {lines c : List Line} {ok : FloatHart → Prop}
    {I : FloatCore → Prop} {Q : FloatHart → Prop} {n k k' j : Nat} {s : FloatCore}
    (h : Keeps u L lines ok I c) (hunique : ∀ l, labelCount l lines ≤ 1) (hc : CodeAt lines k c k')
    (hlength : ∀ t, .jal t ∈ c → k' < lines.length)
    (hret : .ret ∈ c → ∀ s k', I s → lineAt? L lines (s.get .ra) = some k' → Q ⟨s, k'⟩)
    (hexit : ∀ s, I s → Ensures u L lines ok n ⟨s, k'⟩ Q) (hs : I s) (hk : k ≤ j) (hk' : j ≤ k') :
    Ensures u L lines ok n ⟨s, j⟩ Q := by
  -- Every step is counted, so the property need only be kept by one line at a time.
  induction n generalizing s j with
  | zero => exact .zero
  | succ n ih =>
    have ih {s : FloatCore} {j : Nat} := @ih j s fun s hs => (hexit s hs).fewer (Nat.le_succ n)
    rcases Nat.eq_or_lt_of_le hk' with rfl | hlt
    · exact hexit s hs
    · obtain ⟨l, hl, hline⟩ := hc.exists_mem hk hlt
      by_cases hl' : l = .ret
      · subst hl'
        exact .ret hline fun k' => hret hl s k' hs
      · by_cases hjal : ∃ t, l = .jal t
        · obtain ⟨t, rfl⟩ := hjal
          obtain ⟨k₁, hk₁, hcall⟩ := h.call t hl n j s hline (Nat.lt_of_le_of_lt hlt (hlength t hl)) hs
          apply Ensures.call hline hk₁ hcall
          rintro ⟨s', pc⟩ ⟨rfl, hs'⟩
          exact ih hs' (Nat.le_succ_of_le hk) hlt
        · apply Ensures.of_ok
          intro hok
          have hjal (t : Label) : l ≠ .jal t := fun heq => hjal ⟨t, heq⟩
          apply Ensures.counted hline hl' hjal
          rintro ⟨s', pc⟩ hnext
          rcases next?_cases hline hl' hjal hnext with ⟨hrun, rfl⟩ | ⟨rfl, t, ht, rfl | hpc⟩
          · exact ih (h.line l hl j s s' hline hok hs hrun) (Nat.le_succ_of_le hk) hlt
          · exact ih hs (Nat.le_succ_of_le hk) hlt
          · obtain ⟨j', hj, hj', hlabel⟩ := hc.exists_label (h.jumps l hl t ht)
            rw [target?_eq hlabel (hunique t)] at hpc
            cases hpc
            exact ih hs hj (Nat.le_of_lt hj')

end Arbor.Machine
