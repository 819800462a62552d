import Arbor.Proofs.Machine.Stack

/-!
This module contains the machines into which a file is loaded. It also shows the usual addresses of code, strings and
stack, and how to follow a run that ends to see that its stack stays where it is meant to be.
-/

namespace Arbor.Machine

open Assembly

def listing (file : File) : List Line :=
  File.entry ++ file.main ++ File.exit ++ file.runtime

/--
A machine at the start of a file that is loaded: returns go to the line after the call, the fixed strings are in the
memory, and the stack never gets to them.
-/
structure Loaded (L : Layout) (file : File) (m : Hart) : Prop where
  fits : L.Fits (listing file)
  strings : Stores L m.core.memory
  entry : target? (listing file) (.named "main") = some m.pc
  output : m.core.output = []
  apart : ∀ m', Reaches L (listing file) m m' → Apart L (m.core.get .sp) (m'.core.get .sp)

/-! The usual addresses -/

def isInstruction : Line → Bool
  | .instruction _ => true
  | _ => false

/--
The usual addresses: four bytes for every instruction, and 256 bytes for every fixed string.
-/
def Layout.usual (lines : List Line) : Layout where
  data l := .ofNat 32 (0x10010000 + 256 * FixedString.all.findIdx fun s => s.label == l)
  code k := .ofNat 32 (0x400000 + 4 * (lines.take k).countP isInstruction)

def usualMemory (a : Word) : BitVec 8 :=
  match FixedString.all[(a - 0x10010000).toNat / 256]? with
  | some s => ((zeroEnded s)[(a - 0x10010000).toNat % 256]?.getD 0).toBitVec
  | none => 0

def usualStart : Hart where
  core := ⟨fun r => if r = .sp then 0x7fffeffc else 0, usualMemory, []⟩
  pc := 0

section Usual

variable {lines : List Line} {file : File}

theorem Layout.fits_usual (h : lines.length < 2 ^ 30) : (Layout.usual lines).Fits lines := by
  have hnext (k : Nat) (l : Line) (hl : lines[k]? = some l) : (lines.take (k + 1)).countP isInstruction =
      (lines.take k).countP isInstruction + if isInstruction l then 1 else 0 := by
    rw [List.take_add_one, hl, Option.toList_some, List.countP_append, List.countP_singleton]
  constructor
  · intro k l hl hmark
    have hnone : isInstruction l = false := by
      cases l with
      | instruction i => exact absurd rfl (hmark i)
      | label | comment => rfl
    simp only [Layout.usual, hnext k l hl, hnone]
    rfl
  · intro k m i hi hkm hm heq
    have hle : (lines.take (k + 1)).countP isInstruction ≤ (lines.take m).countP isInstruction :=
      ((List.take_prefix_take_left hkm).sublist).countP_le
    have hlength : (lines.take m).countP isInstruction ≤ lines.length :=
      Nat.le_trans List.countP_le_length (List.length_take_le' _ _)
    rw [hnext k _ hi, isInstruction, if_pos rfl] at hle
    have heq := congrArg BitVec.toNat heq
    simp only [Layout.usual, BitVec.toNat_ofNat] at heq
    omega

theorem stores_usual : Stores (Layout.usual lines) usualMemory := by
  have hall : ∀ s ∈ FixedString.all, ∀ i < (zeroEnded s).length,
      usualMemory (.ofNat 32 (0x10010000 + 256 * FixedString.all.findIdx fun s' => s'.label == s.label) +
        .ofNat 32 i) = ((zeroEnded s)[i]?.getD 0).toBitVec := by
    decide +kernel
  intro s i b hb
  have hbyte := hall s s.mem_all i (List.getElem?_eq_some_iff.mp hb).1
  rw [hb] at hbyte
  exact hbyte

theorem apart_usual {sp : Word} (hlow : 0x20000000 ≤ sp) (hhigh : sp ≤ 0x7fffeffc) :
    Apart (Layout.usual lines) 0x7fffeffc sp := by
  have hall : ∀ s ∈ FixedString.all, (FixedString.all.findIdx fun s' => s'.label == s.label) < 6 ∧
      (zeroEnded s).length < 256 := by
    decide +kernel
  intro s i hi
  obtain ⟨hindex, hlength⟩ := hall s s.mem_all
  simp only [Layout.usual]
  generalize (FixedString.all.findIdx fun s' => s'.label == s.label) = n at hindex
  bv_omega

/-! Runs that end -/

def allStates (L : Layout) (lines : List Line) (check : Hart → Bool) : Nat → Hart → Bool
  | 0, _ => false
  | n + 1, m => check m && match step L lines m with
    | .running m' => allStates L lines check n m'
    | _ => true

variable {L : Layout} {m m' : Hart}

theorem Reaches.head (h : Reaches L lines m m') :
    m' = m ∨ ∃ m₁, Machine.step L lines m = .running m₁ ∧ Reaches L lines m₁ m' := by
  induction h with
  | refl => exact .inl rfl
  | step h hstep ih =>
    rcases ih with rfl | ⟨m₁, hfirst, hrest⟩
    · exact .inr ⟨_, hstep, .refl _⟩
    · exact .inr ⟨m₁, hfirst, hrest.step hstep⟩

theorem Reaches.trans {m₁ m₂ : Hart} (h : Reaches L lines m m₁) (h' : Reaches L lines m₁ m₂) :
    Reaches L lines m m₂ := by
  induction h' with
  | refl => exact h
  | step _ hstep ih => exact ih.step hstep

theorem check_of_allStates {check : Hart → Bool} {n : Nat} (h : allStates L lines check n m = true)
    (hm : Reaches L lines m m') : check m' = true := by
  induction n generalizing m with
  | zero => cases h
  | succ n ih =>
    rw [allStates, Bool.and_eq_true] at h
    rcases hm.head with rfl | ⟨m₁, hfirst, hrest⟩
    · exact h.1
    · rw [hfirst] at h
      exact ih h.2 hrest

/--
A file is loaded at the usual addresses if the run from there ends and the stack has room all the time.
-/
theorem loaded_usual {n : Nat} (hlength : (listing file).length < 2 ^ 30)
    (hstack : allStates (Layout.usual (listing file)) (listing file)
      (fun m => decide (0x20000000 ≤ m.core.get .sp ∧ m.core.get .sp ≤ 0x7fffeffc)) n usualStart = true) :
    Loaded (Layout.usual (listing file)) file usualStart where
  fits := Layout.fits_usual hlength
  strings := stores_usual
  entry := rfl
  output := rfl
  apart m' hm := by
    obtain ⟨hlow, hhigh⟩ := of_decide_eq_true (check_of_allStates hstack hm)
    exact apart_usual hlow hhigh

end Usual

end Arbor.Machine
