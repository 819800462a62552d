import Arbor.Proofs.Lowering.Labels

/-!
This module contains the stack discipline of whole programs: the stack pointer is at one level at every position
of the lowered code, however the position is reached, and back at the start when the code ends.
-/

namespace Arbor.Lowering

open Assembly

variable {around more : List (Label × Int)} {limit : Nat} {j : JumpTargets} {f f' : Frame}
  {n n' : Nat} {d d' : DataSection} {c : List Line}

/--
The targets of jumps are labels around the code, at levels that the stack can be released to.
-/
def Covers (around : List (Label × Int)) (j : JumpTargets) (f : Frame) : Prop :=
  ∀ t, t ∈ j.breaks ∨ t ∈ j.continues →
    (t.label, t.level) ∈ around ∧ 0 ≤ t.level ∧ t.level ≤ f.bytes

namespace Covers

theorem empty : Covers around .empty f := by
  intro t ht
  simp [JumpTargets.empty] at ht

theorem mono (h : Covers around j f) (haround : around ⊆ more) (hf : f.bytes ≤ f'.bytes) :
    Covers more j f' := by
  intro t ht
  obtain ⟨hmem, hlow, hhigh⟩ := h t ht
  exact ⟨haround hmem, hlow, Int.le_trans hhigh hf⟩

theorem cons {l : Label} {level : Int} (h : Covers around j f) : Covers ((l, level) :: around) j f :=
  h.mono (fun _ h => .tail _ h) (Int.le_refl _)

theorem pushBreak {t : JumpTarget} (h : Covers around j f) (hmem : (t.label, t.level) ∈ around)
    (hlow : 0 ≤ t.level) (hhigh : t.level ≤ f.bytes) : Covers around (j.pushBreak t) f := by
  intro t' ht'
  simp only [JumpTargets.pushBreak, List.mem_cons] at ht'
  rcases ht' with (rfl | ht') | ht'
  · exact ⟨hmem, hlow, hhigh⟩
  · exact h t' (.inl ht')
  · exact h t' (.inr ht')

theorem inLoop {done next : Label} {level : Int} (h : Covers around j f)
    (hdone : (done, level) ∈ around) (hnext : (next, level) ∈ around) (hlow : 0 ≤ level)
    (hhigh : level ≤ f.bytes) : Covers around (j.inLoop done next level) f := by
  intro t ht
  simp only [JumpTargets.inLoop, JumpTargets.pushContinue, JumpTargets.pushBreak,
    List.mem_cons] at ht
  rcases ht with (rfl | ht) | (rfl | ht)
  · exact ⟨hdone, hlow, hhigh⟩
  · exact h t (.inl ht)
  · exact ⟨hnext, hlow, hhigh⟩
  · exact h t (.inr ht)

theorem inRounds {top next done : Label} {level : Int} (h : Covers around j f) (hf : f.Nested)
    (hlow : f.bytes ≤ level) (hhigh : level ≤ f'.bytes) :
    Covers ((next, level) :: (top, level) :: (done, level) :: around) (j.inLoop done next level) f' :=
  (h.mono (fun _ h => .tail _ (.tail _ (.tail _ h))) (Int.le_trans hlow hhigh)).inLoop (by simp) (by simp)
    (Int.le_trans hf.bytes_nonneg hlow) hhigh

theorem jump {t : JumpTarget} (h : Covers around j f) (ht : t ∈ j.breaks ∨ t ∈ j.continues) :
    Fragment around f.bytes (release (f.bytes - t.level) ++ [.j t.label]) f.bytes := by
  obtain ⟨hmem, hlow, hhigh⟩ := h t ht
  exact (Fragment.releaseTo hlow hhigh).append (.jump hmem hlow (Int.le_trans hlow hhigh))

end Covers

/-! Code with labels of its own -/

namespace Fragment

variable {a b z : Int} {c₁ c₂ c₃ c₄ : List Line} {top next otherwise done : Label}

theorem ifElse (ha : 0 ≤ a)
    (hcond : Fragment ((otherwise, a) :: (done, a) :: around) a c₁ (a + wordBytes))
    (hthen : Fragment ((otherwise, a) :: (done, a) :: around) a c₂ a)
    (helse : Fragment ((otherwise, a) :: (done, a) :: around) a c₃ a) :
    Fragment around a (c₁ ++ Assembly.pop .t0 ++ [.beqz .t0 otherwise] ++ c₂ ++ [.j done, .label otherwise]
      ++ c₃ ++ [.label done]) a := by
  have hfirst := ((hcond.guard (.head _) ha).append hthen).append (.jump (t := done) (by simp) ha ha)
  simpa using (hfirst.place helse).place_end ha

theorem whileLoop (ha : 0 ≤ a)
    (hcond : Fragment ((top, a) :: (done, a) :: around) a c₁ (a + wordBytes))
    (hbody : Fragment ((top, a) :: (done, a) :: around) a c₂ a) :
    Fragment around a ([.label top] ++ c₁ ++ Assembly.pop .t0 ++ [.beqz .t0 done] ++ c₂
      ++ [.j top, .label done]) a := by
  have hround := ((hcond.guard (.tail _ (.head _)) ha).append hbody).append (.jump (t := top) (by simp) ha ha)
  simpa using hround.place_start.place_end ha

theorem forLoop (ha : 0 ≤ a) (hle : a ≤ b)
    (hinit : Fragment ((top, b) :: (done, b) :: around) a c₁ b)
    (htest : Fragment ((next, b) :: (top, b) :: (done, b) :: around) b c₂ b)
    (hbody : Fragment ((next, b) :: (top, b) :: (done, b) :: around) b c₃ b)
    (hupdate : Fragment ((next, b) :: (top, b) :: (done, b) :: around) b c₄ b) :
    Fragment around a (c₁ ++ [.label top] ++ c₂ ++ c₃ ++ [.label next] ++ c₄
      ++ [.j top, .label done] ++ Assembly.release (b - a)) a := by
  have hb := Int.le_trans ha hle
  have hround := (htest.append hbody).place (hupdate.append (.jump (t := top) (by simp) hb hb))
  have hloop := (hinit.place hround).place_end hb
  simpa using hloop.append (.releaseTo ha hle)

theorem forEach {offset : Int} (hlow : 0 ≤ offset) (hhigh : offset + wordBytes ≤ a)
    (hb : b = a + wordBytes + wordBytes) (hz : z = b + wordBytes)
    (hbody : Fragment ((next, b) :: (top, b) :: (done, b) :: around) z c z) :
    Fragment around a (.lw .t0 offset .sp :: Assembly.push .t0 ++ .li .t0 0 :: Assembly.push .t0
      ++ [.label top, .lw .t0 0 .sp, .lw .t1 wordBytes .sp, .lw .t2 (-wordBytes) .t1,
        .bge .t0 .t2 done, .slli .t0 .t0 2, .add .t0 .t1 .t0, .lw .t0 0 .t0]
      ++ Assembly.push .t0 ++ c ++ Assembly.release wordBytes
      ++ [.label next, .lw .t0 0 .sp, .addi .t0 .t0 1, .sw .t0 0 .sp, .j top, .label done]
      ++ Assembly.release (wordBytes + wordBytes)) a := by
  have hw : (0 : Int) ≤ wordBytes := by decide
  have ha : 0 ≤ a := by omega
  have hb' : 0 ≤ b := by omega
  have hstart : Fragment ((top, b) :: (done, b) :: around) a
      (.lw .t0 offset .sp :: Assembly.push .t0 ++ .li .t0 0 :: Assembly.push .t0) b := by
    rw [hb]
    exact (Fragment.cons (.load (by decide) hlow hhigh) (.push ha)).append
      (.cons (.still (by omega) rfl) (.push (by omega)))
  have hread : Fragment ((next, b) :: (top, b) :: (done, b) :: around) b
      [.lw .t0 0 .sp, .lw .t1 wordBytes .sp, .lw .t2 (-wordBytes) .t1, .bge .t0 .t2 done,
        .slli .t0 .t0 2, .add .t0 .t1 .t0, .lw .t0 0 .t0] b :=
    .cons (.load (by decide) (Int.le_refl 0) (by omega)) (.cons
      (.load (by decide) hw (by omega)) (.cons (.still hb' rfl) (.cons
        (.branch (t := done) (by simp) hb' ⟨rfl, by simp [Line.destination?]⟩ rfl) (.still hb' rfl))))
  subst hz
  have hround := ((hread.append (.push (r := .t0) hb')).append hbody).append
    (.release (n := wordBytes) hb' hw)
  have hstep : Fragment ((next, b) :: (top, b) :: (done, b) :: around) b
      [.lw .t0 0 .sp, .addi .t0 .t0 1, .sw .t0 0 .sp, .j top] b :=
    .cons (.load (by decide) (Int.le_refl 0) (by omega)) (.cons (.still hb' rfl) (.cons
      (.store (Int.le_refl 0) (by omega)) (.jump (by simp) hb' hb')))
  have hloop := (hstart.place (hround.place hstep)).place_end hb'
  have hrelease : Fragment around b (Assembly.release (wordBytes + wordBytes)) a := by
    rw [hb, Int.add_assoc]
    exact .release ha (by omega)
  simpa using hloop.append hrelease

/--
What a switch runs before its bodies jumps to one of them, or behind all of them.
-/
theorem selection {kind : SlotKind} {cases : List SwitchCase} {default : Option (List Stmt)} (ha : 0 ≤ a)
    (hsubject : Fragment ((switchBodies n cases default).map (fun entry => (entry.1, a)) ++ (done, a) :: around)
      a c₁ (a + wordBytes))
    (hcases : CasesCode kind ((cases.map SwitchCase.value).zip (labelsFrom n cases.length)) c₂) :
    Fragment ((switchBodies n cases default).map (fun entry => (entry.1, a)) ++ (done, a) :: around) a
      (c₁ ++ c₂ ++ [.j (switchDefault n cases default done)]) a := by
  have hentries : (switchBodies n cases default).map (fun entry => (entry.1, a)) =
      (labelsFrom n (cases.length + default.toList.length)).map fun l => (l, a) := by
    rw [← fst_switchBodies, List.map_map]
    rfl
  rw [hentries] at hsubject ⊢
  refine (hsubject.append (hcases.fragment ha ?_)).append (.jump ?_ ha ha)
  · intro entry hentry
    obtain ⟨i, hlow, hhigh, hi⟩ := mem_labelsFrom.mp (List.of_mem_zip hentry).2
    refine List.mem_append.mpr (.inl (List.mem_map.mpr ⟨_, ?_, rfl⟩))
    exact mem_labelsFrom.mpr ⟨i, hlow, by omega, hi⟩
  · rcases switchDefault_mem n cases default done with heq | hmem
    · rw [heq]
      simp
    · exact List.mem_append.mpr (.inl (List.mem_map.mpr ⟨_, hmem, rfl⟩))

end Fragment

/--
What is to show of the code of a part. The bodies of a switch are entered through their labels, to which the
code before them jumps.
-/
def Part.Fits (around : List (Label × Int)) (f : Frame) (c : List Line) (f' : Frame) : Part → Prop
  | .bodies entries => ∀ (a : Int) (before : List Line),
      Fragment (entries.map (fun entry => (entry.1, f.bytes)) ++ around) a before f.bytes →
      Fragment around a (before ++ c) f'.bytes
  | _ => Fragment around f.bytes c f'.bytes

theorem StmtCode.fragment {p : Part} (h : StmtCode limit j f n d p c f' n' d') :
    ∀ {around : List (Label × Int)}, f.Nested → Covers around j f → p.Fits around f c f' := by
  have hw : (0 : Int) ≤ wordBytes := by decide
  induction h with
  | declared _ _ he | inferred _ he =>
    intro around hf _
    simp only [Part.Fits, Frame.bytes_pushNamed]
    exact he.fragment hf
  | zeroed =>
    intro around hf _
    have ha := hf.bytes_nonneg
    simp only [Part.Fits, Frame.bytes_pushNamed]
    exact (Fragment.loadZero ha (by decide)).append (.push ha)
  | arrayDecl _ _ harray =>
    intro around hf _
    simp only [Part.Fits, Frame.bytes_pushNamed]
    exact harray.fragment hf
  | expr he => exact fun hf _ => (he.fragment hf).append (.release hf.bytes_nonneg hw)
  | print hargs =>
    intro around hf _
    have ha := hf.bytes_nonneg
    exact (Fragment.cons (.still ha rfl) (hargs.fragment hf rfl)).append (.still ha rfl)
  | block _ ih => exact ih
  | ifElse hcond _ _ iht ihe =>
    intro around hf hj
    exact .ifElse hf.bytes_nonneg (hcond.fragment hf) (iht hf hj.cons.cons) (ihe hf hj.cons.cons)
  | ifThen hcond _ iht =>
    intro around hf hj
    have ha := hf.bytes_nonneg
    exact (((hcond.fragment hf).guard (by simp) ha).append (iht hf hj.cons)).place_end ha
  | whileLoop hcond _ ih =>
    intro around hf hj
    have ha := hf.bytes_nonneg
    exact .whileLoop ha (hcond.fragment hf)
      (ih hf (hj.cons.cons.inLoop (by simp) (by simp) ha (Int.le_refl _)))
  | @forLoop j f f₁ _ _ _ _ _ _ _ _ _ _ _ _ _ _ _ _ _ hinit htest _ hupdate ih₁ ih₂ =>
    intro around hf hj
    have hf₁ := hinit.nested hf.openScope
    have hle : f.bytes ≤ f₁.bytes := hinit.bytes_le
    exact .forLoop hf.bytes_nonneg hle (ih₁ hf.openScope hj.cons.cons) (htest.fragment hf₁ (by simp))
      (ih₂ hf₁ (hj.inRounds hf hle (Int.le_refl _))) (hupdate.fragment hf₁)
  | @forEach j f f₁ f₂ _ _ _ _ _ _ _ _ _ _ _ _ _ hslot _ _ hf₁ hf₂ _ ih =>
    intro around hf hj
    obtain ⟨hlow, hhigh⟩ := hf.resolve_bounds hslot
    have hnested : f₂.Nested := by
      rw [hf₂, hf₁]
      exact ((hf.openScope.pushNamed ..).pushNamed ..).openScope.pushNamed ..
    have hbytes₁ : f₁.bytes = f.bytes + wordBytes + wordBytes := by
      rw [hf₁]
      simp
    have hbytes₂ : f₂.bytes = f₁.bytes + wordBytes := by
      rw [hf₂]
      simp
    exact .forEach hlow hhigh hbytes₁ hbytes₂ (ih hnested (hj.inRounds hf (by omega) (by omega)))
  | switch he hcases _ ih =>
    intro around hf hj
    have ha := hf.bytes_nonneg
    have hbodies := ih hf (hj.cons.pushBreak (.head _) ha (Int.le_refl _))
    exact (hbodies _ _ (.selection ha (he.fragment hf) hcases)).place_end ha
  | breakStmt htarget =>
    intro around _ hj
    exact hj.jump (.inl (List.mem_of_mem_head? htarget))
  | continueStmt htarget =>
    intro around _ hj
    exact hj.jump (.inr (List.mem_of_mem_head? htarget))
  | nil => exact fun hf _ => .nil hf.bytes_nonneg
  | cons hs _ ih₁ ih₂ =>
    intro around hf hj
    exact (show Fragment around _ _ _ from ih₁ hf hj).append
      (ih₂ (hs.nested hf) (hj.mono (fun _ h => h) hs.bytes_le))
  | @scope j f f₁ _ _ _ _ _ _ hseq ih =>
    intro around hf hj
    have hle : f.bytes ≤ f₁.bytes := hseq.bytes_le
    exact (show Fragment around _ _ _ from ih hf.openScope hj).append (.releaseTo hf.bytes_nonneg hle)
  | noBody =>
    intro around _ _ a before hbefore
    simpa using hbefore
  | @body j f _ _ _ _ _ _ label _ rest c₁ c₂ _ _ ih₁ ih₂ =>
    intro around hf hj a before hbefore
    have hj' : Covers ((label, f.bytes) :: (rest.map (fun entry => (entry.1, f.bytes)) ++ around)) j f :=
      hj.mono (fun _ h => .tail _ (List.mem_append.mpr (.inr h))) (Int.le_refl _)
    have hplaced := hbefore.place (show Fragment _ f.bytes c₁ f.bytes from ih₁ hf hj')
    have := ih₂ hf hj a _ hplaced
    simpa using this

/--
Code without labels around it, in which no label is at two places, has levels.
-/
theorem Fragment.stackLevels (h : Fragment [] 0 c 0) (hc : ∀ l, labelCount l c ≤ 1) :
    ∃ level, StackLevels c level := by
  obtain ⟨xs, rfl, hpath, hjumps⟩ := h
  have hat {i : Nat} {l : Line} (hi : (xs.map Prod.snd)[i]? = some l) :
      xs[i]? = some (levelAt xs 0 i, l) := by
    rw [List.getElem?_map, Option.map_eq_some_iff] at hi
    obtain ⟨⟨a, l'⟩, hxs, rfl⟩ := hi
    rw [levelAt_of_getElem? hxs, hxs]
  have hfits {i : Nat} {l : Line} (hi : (xs.map Prod.snd)[i]? = some l) :
      FitsLevel (levelAt xs 0 i) l :=
    hpath.fits_of_mem (List.mem_of_getElem? (hat hi))
  have hstop : levelAt xs 0 (xs.map Prod.snd).length = 0 := by
    simp [levelAt]
  refine ⟨levelAt xs 0, hpath.levelAt_zero, hstop, ?_, ?_, ?_, ?_, ?_⟩
  · intro i hi
    rcases Nat.lt_or_eq_of_le hi with hlt | rfl
    · exact (hfits (List.getElem?_eq_getElem hlt)).nonneg
    · exact Int.le_of_eq hstop.symm
  · exact fun i l hi hl => hpath.levelAt_next (hat hi) hl
  · intro i l t hi ht
    rcases hjumps _ (List.mem_of_getElem? (hat hi)) t ht with hmem | hmem
    · obtain ⟨k, hk⟩ := List.mem_iff_getElem?.mp hmem
      have hlabel : (xs.map Prod.snd)[k]? = some (.label t) := by simp [hk]
      refine ⟨⟨k, hlabel⟩, fun k' hk' => ?_⟩
      rw [← eq_of_labelCount_le_one (hc t) hlabel hk']
      exact levelAt_of_getElem? hk
    · cases hmem
  · exact fun i l offset hi hoffset => (hfits hi).access offset hoffset
  · intro l hl hpointer
    obtain ⟨i, hi⟩ := List.mem_iff_getElem?.mp hl
    exact (hfits hi).pointer hpointer

/--
Every program that is accepted becomes code with levels.
-/
theorem stackLevels_of_generate {config : GeneratorConfig} {p : Program} {file : File}
    (h : generate config p = .ok file) : ∃ level, StackLevels file.main level := by
  obtain ⟨c, f, n, d, hcode, hmain, _⟩ := stmtCode_of_generate h
  have hbody : Fragment [] 0 c f.bytes := hcode.fragment Frame.Nested.empty .empty
  have hrelease : Fragment [] f.bytes (release f.bytes) 0 := by
    have : Fragment [] f.bytes (release (f.bytes - 0)) 0 :=
      .releaseTo (Int.le_refl 0) hbody.nonneg_end
    rwa [Int.sub_zero] at this
  apply Fragment.stackLevels
  · rw [hmain]
    exact hbody.shown.append hrelease
  · exact fun l => labelCount_main_le_one h

def leavingProgram : Program where
  statements := [
    .varDecl .unplaced .int "i" (some (.literal .unplaced (.int 0))),
    .whileLoop .unplaced (.binary .unplaced .lt (.var .unplaced "i") (.literal .unplaced (.int 3)))
      (.block .unplaced [
        .varDecl .unplaced .int "k" (some (.step .unplaced "i" .up)),
        .conditional .unplaced (.binary .unplaced .eq (.var .unplaced "k") (.literal .unplaced (.int 2)))
          (.breakStmt .unplaced) none])]

theorem stackLevels_leavingProgram :
    ∃ file level, generate .default leavingProgram = .ok file ∧ StackLevels file.main level := by
  have haccepted : (generate .default leavingProgram).isOk = true := by decide +kernel
  cases h : generate .default leavingProgram with
  | error e =>
    rw [h] at haccepted
    cases haccepted
  | ok file =>
    obtain ⟨level, hlevel⟩ := stackLevels_of_generate h
    exact ⟨file, level, rfl, hlevel⟩

end Arbor.Lowering
