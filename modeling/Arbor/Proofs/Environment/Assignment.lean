import Arbor.Proofs.Environment.Scopes
import Arbor.Proofs.Evaluation.Store

/-!
This module contains what an assignment does to an environment: it changes the value of one name, and every other name
is bound as before.
-/

namespace Arbor

namespace Scope

theorem find?_setValue (s : Scope) (name name' : String) (v : Value) :
    (s.setValue name v).find? name' =
      if name' = name then (s.find? name').map fun b => { b with value := v } else s.find? name' := by
  unfold find? setValue
  dsimp only
  induction s.bindings with
  | nil => simp
  | cons entry rest ih =>
    obtain ⟨key, b⟩ := entry
    have hfst : (if key == name then (key, { b with value := v }) else (key, b)).1 = key := by
      split <;> rfl
    rw [List.map_cons, List.lookup_cons, List.lookup_cons, hfst]
    cases hkey : name' == key with
    | false => exact ih
    | true =>
      rw [← eq_of_beq hkey]
      by_cases hname : name' = name <;> simp [hname]

end Scope

namespace Environment

variable {env : Environment} {id : Nat} {name : String} {b : Binding}

theorem chain_congr {env' : Environment} (h : ∀ id, (env'.scope id).parent = (env.scope id).parent) (id : Nat) :
    env'.chain id = env.chain id := by
  induction id using Nat.strongRecOn with
  | ind id ih =>
    rw [chain, chain, h]
    congr 1
    split
    · rfl
    · next parent _ =>
      split
      · next hlt => exact ih parent hlt
      · rfl

theorem scope_set {env' : Environment} {v : Value} (hid : env.resolve name = .ok id)
    (hset : env.set name v = .ok env') (id' : Nat) :
    env'.current = env.current ∧ (env'.scope id').parent = (env.scope id').parent ∧
      ∀ name', (env'.scope id').find? name' =
        if id' = id ∧ name' = name then ((env.scope id').find? name').map fun b => { b with value := v }
        else (env.scope id').find? name' := by
  unfold set at hset
  rw [hid] at hset
  cases hset
  rw [scope_modify]
  by_cases heq : id = id' ∧ id' < env.scopes.size
  · rw [if_pos heq]
    refine ⟨rfl, rfl, fun name' => ?_⟩
    simp only [Scope.find?_setValue, heq.1, true_and]
  · rw [if_neg heq]
    refine ⟨rfl, rfl, fun name' => ?_⟩
    split
    · next hname =>
      -- There is no such scope, so it binds nothing.
      have hnone : (env.scope id').find? name' = none := by
        have hsize : ¬id' < env.scopes.size := fun hlt => heq ⟨hname.1.symm, hlt⟩
        simp [scope, Array.getD_eq_getD_getElem?, hsize, Scope.find?]
      rw [hnone]
      rfl
    · rfl

theorem exists_set (hget : env.get name = .ok b) (v : Value) :
    ∃ env', env.set name v = .ok env' ∧ env'.get name = .ok { b with value := v } ∧
      ∀ name', name' ≠ name → env'.get name' = env.get name' := by
  obtain ⟨id, hid, hfind⟩ := resolve_of_get hget
  obtain ⟨env', hset⟩ : ∃ env', env.set name v = .ok env' := ⟨_, by rw [set, hid]; rfl⟩
  have hscope := scope_set hid hset
  have hchain : env'.chain env'.current = env.chain env.current := by
    rw [(hscope 0).1, chain_congr fun id' => (hscope id').2.1]
  refine ⟨env', hset, ?_, fun name' hname => ?_⟩
  · unfold resolve at hid
    unfold get
    rw [hchain]
    revert hid
    induction env.chain env.current with
    | nil => nofun
    | cons id' rest ih =>
      rw [List.find?_cons, List.findSome?_cons, (hscope id').2.2, Scope.declares]
      cases hfound : (env.scope id').find? name with
      | none => simpa using ih
      | some c =>
        intro hid
        cases hid
        rw [hfind] at hfound
        cases hfound
        simp
  · unfold get
    rw [hchain]
    simp only [fun id' => (hscope id').2.2 name', hname, and_false, if_false]

end Environment

end Arbor
