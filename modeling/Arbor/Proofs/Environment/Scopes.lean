import Arbor.Environment

/-!
This module contains what the operations on an environment leave in the scopes of its arena.
-/

namespace Arbor.Environment

variable {env : Environment} {id : Nat}

theorem scope_enter (parent : Nat) :
    (env.enter parent).scope id = if id = env.scopes.size then ⟨[], some parent⟩ else env.scope id := by
  unfold enter scope
  simp only [Array.getD_eq_getD_getElem?, Array.getElem?_push]
  split <;> rfl

theorem scope_modify {i : Nat} {f : Scope → Scope} :
    ({ env with scopes := env.scopes.modify i f } : Environment).scope id =
      if i = id ∧ id < env.scopes.size then f (env.scope id) else env.scope id := by
  unfold scope
  simp only [Array.getD_eq_getD_getElem?, Array.getElem?_modify]
  by_cases hid : id < env.scopes.size
  · by_cases hi : i = id <;> simp [hi, hid]
  · simp [hid]

theorem scope_leave {target : Nat} (hid : id < (env.leave target).scopes.size) :
    (env.leave target).scope id = env.scope id := by
  unfold leave at hid ⊢
  split at hid
  · next h =>
    rw [if_pos h]
    simp only [Array.size_pop] at hid
    have hlt : id < env.scopes.size := by omega
    simp [scope, Array.getD_eq_getD_getElem?, hid, hlt]
  · next h =>
    rw [if_neg h]
    rfl

@[simp]
theorem current_leave {target : Nat} : (env.leave target).current = target := by
  unfold leave
  split <;> rfl

@[simp]
theorem pinned_leave {target : Nat} : (env.leave target).pinned = env.pinned := by
  unfold leave
  split <;> rfl

theorem size_leave (target : Nat) : (env.leave target).scopes.size =
    if env.pinned ≤ env.current ∧ env.current + 1 = env.scopes.size then env.scopes.size - 1 else env.scopes.size := by
  unfold leave
  split
  · exact Array.size_pop
  · rfl

theorem size_leave_le {target : Nat} : (env.leave target).scopes.size ≤ env.scopes.size := by
  rw [size_leave]
  split <;> omega

theorem le_size_leave {target : Nat} (h : env.current < env.scopes.size) :
    env.current ≤ (env.leave target).scopes.size := by
  rw [size_leave]
  split <;> omega

theorem le_of_mem_chain {id' : Nat} (h : id' ∈ env.chain id) : id' ≤ id := by
  induction id using Nat.strongRecOn with
  | ind id ih =>
    rw [chain, List.mem_cons] at h
    rcases h with rfl | h
    · exact Nat.le_refl _
    · split at h
      · cases h
      · next parent _ =>
        split at h
        · next hlt => exact Nat.le_trans (ih parent hlt h) (Nat.le_of_lt hlt)
        · cases h

theorem le_of_resolve {name : String} (h : env.resolve name = .ok id) : id ≤ env.current := by
  unfold resolve at h
  split at h
  · next found hfound =>
    cases h
    exact le_of_mem_chain (List.mem_of_find?_eq_some hfound)
  · cases h

end Arbor.Environment
