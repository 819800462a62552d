import Arbor.Proofs.Assembly.Routines
import Arbor.Proofs.Lowering.References
import Arbor.Proofs.Lowering.StackDiscipline

/-!
This module contains the closedness of assembly files: every name that a file refers to is a name that it defines,
once, and it has the routines that it calls and no others.
-/

namespace Arbor

namespace Assembly

/--
A file that an assembler can resolve in one way, whose runtime are the routines that its program calls and those that
these require, in the order they were first requested in. Comments may be shown.
-/
structure File.Closed (comments : Bool) (f : File) : Prop where
  symbols : (f.symbols.map Label.text).Nodup
  target_main : ∀ l ∈ f.main, ∀ t, l.target? = some t → .label t ∈ f.main
  target_runtime : ∀ l ∈ f.runtime, ∀ t, l.target? = some t → .label t ∈ f.runtime
  callee : ∀ l ∈ f.main ++ f.runtime, ∀ t, l.callee? = some t →
    ∃ r ∈ f.used, t = r.label ∧ .label t ∈ f.runtime
  address : ∀ l ∈ f.main ++ f.runtime, ∀ t, l.address? = some t →
    (∃ s : FixedString, t = s.label) ∨ t ∈ f.data.labels
  used : f.used = (withRequirements (Lowering.called f.main)).eraseDups
  nodup : f.used.Nodup
  runtime : f.runtime = f.used.flatMap fun r => .label r.label :: Line.shown comments r.body ++ [.ret]

end Assembly

namespace Lowering

open Assembly

variable {config : GeneratorConfig} {p : Program} {file : File} {comments : Bool} {c : List Line} {l : Line}
  {t : Label}

/-! Comments -/

theorem called_shown : called (Line.shown comments c) = called c := by
  cases comments with
  | true => rw [Line.shown_true]
  | false =>
    simp only [called, Line.shown, Bool.false_eq_true, if_false, List.filterMap_filter]
    congr 1
    funext line
    cases line <;> rfl

theorem mem_of_mem_shown (h : l ∈ Line.shown comments c) : l ∈ c := by
  unfold Line.shown at h
  split at h
  · exact h
  · exact List.mem_of_mem_filter h

theorem label_mem_shown (h : .label t ∈ c) : .label t ∈ Line.shown comments c := by
  rwa [← mem_placed, placed_shown, mem_placed]

/-! The lines of the program -/

theorem labelCount_eq_count : labelCount t c = (placed c).count t := by
  unfold labelCount placed
  rw [List.count_filterMap]

theorem labelCount_le_one_of_nodup (h : (placed c).Nodup) (t : Label) : labelCount t c ≤ 1 := by
  rw [labelCount_eq_count]
  exact List.nodup_iff_count_le_one.mp h t

theorem nodup_placed_main (h : generate config p = .ok file) : (placed file.main).Nodup := by
  rw [List.nodup_iff_count_le_one]
  intro l
  rw [← labelCount_eq_count]
  exact labelCount_main_le_one h

theorem exists_number_of_mem_main (h : generate config p = .ok file) (ht : t ∈ placed file.main) :
    ∃ k, t = .numbered k := by
  obtain ⟨c, f, n, d, hcode, hmain, _⟩ := stmtCode_of_generate h
  obtain ⟨own, hown, hcount⟩ := hcode.numbered
  by_contra hother
  have hzero : labelCount t file.main = 0 := by
    rw [hmain, labelCount_append, labelCount_release, labelCount_shown, hcount,
      hown.count_other (not_exists.mp hother)]
    rfl
  rw [labelCount_eq_zero, ← mem_placed] at hzero
  exact hzero ht

theorem target_main (h : generate config p = .ok file) (hl : l ∈ file.main) (ht : l.target? = some t) :
    .label t ∈ file.main := by
  obtain ⟨c, f, n, d, hcode, hmain, _⟩ := stmtCode_of_generate h
  have hbody : Fragment [] 0 c f.bytes := hcode.fragment Frame.Nested.empty .empty
  have hrelease : Fragment [] f.bytes (release f.bytes) 0 := by
    have : Fragment [] f.bytes (release (f.bytes - 0)) 0 := .releaseTo (Int.le_refl 0) hbody.nonneg_end
    rwa [Int.sub_zero] at this
  have hfragment : Fragment [] 0 file.main 0 := by
    rw [hmain]
    exact hbody.shown.append hrelease
  obtain ⟨xs, hxs, -, hjumps⟩ := hfragment
  rw [← hxs] at hl ⊢
  obtain ⟨e, he, rfl⟩ := List.mem_map.mp hl
  rcases hjumps e he t ht with hmem | hmem
  · exact List.mem_map.mpr ⟨_, hmem, rfl⟩
  · cases hmem

theorem refers_main (h : generate config p = .ok file) : Refers file.data file.main := by
  obtain ⟨c, f, n, d, hcode, hmain, hdata, _⟩ := stmtCode_of_generate h
  rw [hmain, hdata, refers_append]
  exact ⟨fun l hl => hcode.refers.2 l (mem_of_mem_shown hl), refers_release⟩

/-! The runtime -/

theorem used_eq (h : generate config p = .ok file) :
    file.used = (withRequirements (called file.main)).eraseDups := by
  obtain ⟨c, f, n, d, _, hmain, _, hused, _⟩ := stmtCode_of_generate h
  rw [hused, hmain, called_append, called_shown, called_release, List.append_nil,
    RoutineSet.foldl_request_empty]

theorem shown_lines (r : Routine) :
    Line.shown comments r.lines = .label r.label :: Line.shown comments r.body ++ [.ret] := by
  cases comments with
  | true => simp [Routine.lines]
  | false => simp [Routine.lines, Line.shown, Line.isComment]

theorem runtime_eq (h : generate config p = .ok file) :
    file.runtime = file.used.flatMap fun r => Line.shown config.comments r.lines := by
  obtain ⟨c, f, n, d, _, _, _, hused, hruntime⟩ := stmtCode_of_generate h
  rw [hruntime, hused, RoutineSet.materialize_eq]

theorem exists_routine_of_mem_runtime (h : generate config p = .ok file) (hl : l ∈ file.runtime) :
    ∃ r ∈ file.used, l ∈ r.lines := by
  rw [runtime_eq h] at hl
  obtain ⟨r, hr, hl⟩ := List.mem_flatMap.mp hl
  exact ⟨r, hr, mem_of_mem_shown hl⟩

theorem label_mem_runtime (h : generate config p = .ok file) {r : Routine} (hr : r ∈ file.used)
    (ht : .label t ∈ r.lines) : .label t ∈ file.runtime := by
  rw [runtime_eq h]
  exact List.mem_flatMap.mpr ⟨r, hr, label_mem_shown ht⟩

theorem requirement_mem_used (h : generate config p = .ok file) {r s : Routine} (hr : r ∈ file.used)
    (hs : s ∈ r.requirements) : s ∈ file.used := by
  rw [used_eq h, List.mem_eraseDups] at hr ⊢
  exact RoutineSet.requirements_subset hr hs

theorem exists_called_of_mem_main (h : generate config p = .ok file) (hl : l ∈ file.main)
    (ht : l.callee? = some t) : ∃ r ∈ file.used, t = r.label := by
  have hrefers := refers_main h l hl
  unfold Line.callee? at ht
  split at ht
  · cases ht
    obtain ⟨r, rfl⟩ := hrefers
    refine ⟨r, ?_, rfl⟩
    rw [used_eq h, List.mem_eraseDups]
    refine List.mem_flatMap.mpr ⟨r, ?_, List.mem_cons_self⟩
    exact List.mem_filterMap.mpr ⟨_, hl, routine?_jal r⟩
  · cases ht

theorem exists_used_of_callee (h : generate config p = .ok file) (hl : l ∈ file.main ++ file.runtime)
    (ht : l.callee? = some t) : ∃ r ∈ file.used, t = r.label := by
  rcases List.mem_append.mp hl with hl | hl
  · exact exists_called_of_mem_main h hl ht
  · obtain ⟨r, hr, hl⟩ := exists_routine_of_mem_runtime h hl
    obtain ⟨s, hs, rfl⟩ := Routine.exists_requirement hl ht
    exact ⟨s, requirement_mem_used h hr hs, rfl⟩

theorem target_runtime (h : generate config p = .ok file) (hl : l ∈ file.runtime) (ht : l.target? = some t) :
    .label t ∈ file.runtime := by
  obtain ⟨r, hr, hl⟩ := exists_routine_of_mem_runtime h hl
  exact label_mem_runtime h hr (Routine.target_mem hl ht)

/-! Names -/

theorem isOwn_of_mem_numbers (h : generate config p = .ok file)
    (ht : t ∈ file.data.labels ++ placed file.main) : t.IsOwn = true ∧ ∀ name, t ≠ .named name := by
  rcases List.mem_append.mp ht with ht | ht
  · obtain ⟨k, -, rfl⟩ := List.mem_map.mp ht
    exact ⟨rfl, fun name heq => by cases heq⟩
  · obtain ⟨k, rfl⟩ := exists_number_of_mem_main h ht
    exact ⟨rfl, fun name heq => by cases heq⟩

theorem nodup_numbers (h : generate config p = .ok file) :
    (file.data.labels ++ placed file.main).Nodup := by
  rw [List.nodup_append]
  refine ⟨?_, nodup_placed_main h, ?_⟩
  · exact List.nodup_range.map fun _ _ heq => Label.array.inj heq
  · intro l hl l' hl' heq
    obtain ⟨k, -, rfl⟩ := List.mem_map.mp hl
    obtain ⟨k', rfl⟩ := exists_number_of_mem_main h hl'
    cases heq

theorem symbols_perm (h : generate config p = .ok file) :
    file.symbols.Perm ((Routine.outsideNames ++ file.used.flatMap fun r => placed r.lines) ++
      (file.data.labels ++ placed file.main)) := by
  have hentry : placed File.entry = [.named "main"] := rfl
  have hexit : placed File.exit = [] := rfl
  rw [List.perm_iff_count]
  intro l
  simp only [File.symbols, Routine.outsideNames, placed_append, hentry, hexit, runtime_eq h, placed_flatMap,
    placed_shown, List.count_append, List.count_cons, List.count_nil]
  omega

theorem mem_names_of_mem_used {l : Label}
    (hl : l ∈ Routine.outsideNames ++ file.used.flatMap fun r => placed r.lines) :
    l ∈ Routine.outsideNames ++ Routine.all.flatMap fun r => placed r.lines := by
  rw [List.mem_append, List.mem_flatMap] at hl ⊢
  exact hl.imp id fun ⟨r, _, hr⟩ => ⟨r, r.mem_all, hr⟩

theorem nodup_symbols (h : generate config p = .ok file) : file.symbols.Nodup := by
  have hused : file.used.Nodup := used_eq h ▸ nodup_eraseDups _
  rw [(symbols_perm h).nodup_iff, List.nodup_append]
  refine ⟨Routine.nodup_placed hused, nodup_numbers h, fun l hl l' hl' heq => ?_⟩
  obtain ⟨name, rfl⟩ := Routine.exists_name_of_mem (mem_names_of_mem_used hl)
  exact (isOwn_of_mem_numbers h hl').2 name heq.symm

theorem nodup_texts (h : generate config p = .ok file) : (file.symbols.map Label.text).Nodup := by
  have hown : ∀ l ∈ file.symbols, l.IsOwn = true := by
    intro l hl
    rcases List.mem_append.mp ((symbols_perm h).mem_iff.mp hl) with hl | hl
    · exact Routine.isOwn_of_mem_names (mem_names_of_mem_used hl)
    · exact (isOwn_of_mem_numbers h hl).1
  exact (nodup_symbols h).map_on fun l hl l' hl' heq => Label.injOn_text (hown l hl) (hown l' hl') heq

/--
The file of every program that is accepted is closed.
-/
theorem closed_of_generate (h : generate config p = .ok file) : file.Closed config.comments where
  symbols := nodup_texts h
  target_main l hl t ht := target_main h hl ht
  target_runtime l hl t ht := target_runtime h hl ht
  callee l hl t ht := by
    obtain ⟨r, hr, rfl⟩ := exists_used_of_callee h hl ht
    exact ⟨r, hr, rfl, label_mem_runtime h hr List.mem_cons_self⟩
  address l hl t ht := by
    rcases List.mem_append.mp hl with hl | hl
    · have hrefers := refers_main h l hl
      unfold Line.address? at ht
      split at ht
      · cases ht
        exact hrefers
      · cases ht
    · obtain ⟨r, -, hl⟩ := exists_routine_of_mem_runtime h hl
      exact .inl (Routine.exists_fixedString hl ht)
  used := used_eq h
  nodup := used_eq h ▸ nodup_eraseDups _
  runtime := by
    rw [runtime_eq h]
    simp only [shown_lines]

def joiningProgram : Program where
  statements := [
    .arrayDecl .unplaced .int 1 "xs" (.values [.literal .unplaced (.int 1), .literal .unplaced (.int 2)]),
    .print .unplaced [
      .call .unplaced (.var .unplaced "toString") [.literal .unplaced (.int 3)],
      .join .unplaced "xs"]]

theorem closed_joiningProgram :
    ∃ file, generate .default joiningProgram = .ok file ∧ file.used.head? = some .intToString ∧
      file.used.length = 6 ∧ file.Closed GeneratorConfig.default.comments := by
  have haccepted : (generate .default joiningProgram).isOk = true := by decide +kernel
  have hused : (generate .default joiningProgram).toOption.map File.used =
      some [.intToString, .arrayJoin, .concatString, .floatToString, .boolToString, .charToString] := by
    decide +kernel
  cases h : generate .default joiningProgram with
  | error e =>
    rw [h] at haccepted
    cases haccepted
  | ok file =>
    rw [h] at hused
    have hused := Option.some.inj hused
    exact ⟨file, rfl, by rw [hused]; rfl, by rw [hused]; rfl, closed_of_generate h⟩

end Lowering

end Arbor
