import Arbor.Assembly.Routine
import Mathlib.Data.List.Induction

/-!
This module contains the order in which routines are used: the one they were first requested in, where what a routine
requires counts as requested right after it.
-/

namespace Arbor.Assembly

variable {requested rs : List Routine} {r : Routine}

def withRequirements (rs : List Routine) : List Routine :=
  rs.flatMap fun r => r :: r.requirements

theorem nodup_eraseDups (rs : List Routine) : rs.eraseDups.Nodup := by
  induction rs using List.reverseRecOn with
  | nil => exact List.nodup_nil
  | append_singleton rs r ih =>
    rw [List.eraseDups_append]
    by_cases hr : r ∈ rs
    · simpa [hr, List.removeAll] using ih
    · rw [List.nodup_append]
      simp only [List.removeAll, List.filter_cons, List.elem_eq_mem, hr, decide_false, Bool.not_false,
        if_true, List.filter_nil, List.eraseDups_cons, List.eraseDups_nil, List.mem_eraseDups]
      refine ⟨ih, by simp, fun s hs t ht heq => ?_⟩
      rw [List.mem_singleton.mp ht] at heq
      exact hr (heq ▸ hs)

theorem Routine.lines_foldl_write {a : Assembler} :
    (rs.foldl Routine.write a).lines.toList =
      a.lines.toList ++ rs.flatMap fun r => Line.shown a.comments r.lines := by
  induction rs generalizing a with
  | nil => simp
  | cons r rest ih => simp [ih, Routine.write]

namespace RoutineSet

theorem materialize_eq {s : RoutineSet} {comments : Bool} :
    s.materialize comments = s.used.flatMap fun r => Line.shown comments r.lines := by
  simp [materialize, Routine.lines_foldl_write, Assembler.start]

theorem insert_eraseDups : insert ⟨requested.eraseDups⟩ r = ⟨(requested ++ [r]).eraseDups⟩ := by
  unfold insert contains
  rw [List.eraseDups_append]
  by_cases hr : r ∈ requested
  · simp [hr, List.removeAll]
  · simp [hr, List.removeAll, List.eraseDups_cons]

theorem foldl_insert_eraseDups :
    rs.foldl insert ⟨requested.eraseDups⟩ = ⟨(requested ++ rs).eraseDups⟩ := by
  induction rs generalizing requested with
  | nil => simp
  | cons r rs ih => rw [List.foldl_cons, insert_eraseDups, ih, List.append_assoc, List.singleton_append]

theorem requirements_subset (h : r ∈ withRequirements rs) : r.requirements ⊆ withRequirements rs := by
  unfold withRequirements at h ⊢
  obtain ⟨s, hs, hr⟩ := List.mem_flatMap.mp h
  rcases List.mem_cons.mp hr with rfl | hr
  · intro t ht
    exact List.mem_flatMap.mpr ⟨r, hs, List.mem_cons_of_mem _ ht⟩
  · rw [Routine.requirements_of_mem_requirements hr]
    exact List.nil_subset _

theorem request_eraseDups :
    request ⟨(withRequirements rs).eraseDups⟩ r = ⟨(withRequirements (rs ++ [r])).eraseDups⟩ := by
  have hrequested : withRequirements (rs ++ [r]) = withRequirements rs ++ r :: r.requirements := by
    simp [withRequirements]
  rw [hrequested]
  unfold request
  split
  · next hr =>
    have hr : r ∈ withRequirements rs := by simpa [contains] using hr
    have hnone : (r :: r.requirements).removeAll (withRequirements rs) = [] := by
      rw [List.removeAll, List.filter_eq_nil_iff]
      intro s hs
      have hmem : s ∈ withRequirements rs := by
        rcases List.mem_cons.mp hs with rfl | hs
        · exact hr
        · exact requirements_subset hr hs
      simp [hmem]
    rw [List.eraseDups_append, hnone, List.eraseDups_nil, List.append_nil]
  · rw [insert_eraseDups, foldl_insert_eraseDups, List.append_assoc, List.singleton_append]

theorem foldl_request_empty :
    rs.foldl request empty = ⟨(withRequirements rs).eraseDups⟩ := by
  induction rs using List.reverseRecOn with
  | nil => rfl
  | append_singleton rs r ih => rw [List.foldl_append, ih, List.foldl_cons, List.foldl_nil, request_eraseDups]

end RoutineSet

end Arbor.Assembly
