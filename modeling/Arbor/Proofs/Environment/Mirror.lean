import Arbor.Proofs.Environment.Scopes
import Mathlib.Data.Set.Monotone
import Mathlib.Order.Interval.Set.Defs

/-!
This module contains environments that bind the same names in arenas of their own: each scope of one stands for a scope
of the other one, which keeps the scopes that it has left.
-/

namespace Arbor.Environment

/--
Go from the current scope to the given one, and keep the current one.
-/
def forsake (env : Environment) (target : Nat) : Environment :=
  { env with current := target }

def popKeeping (env : Environment) : Environment :=
  match (env.scope env.current).parent with
  | none => env
  | some parent => env.forsake parent

/--
Each scope of an environment stands for the scope of another environment that `owner` gives: it has the same bindings,
and its parent stands for the parent of that one.
-/
structure Mirrors (owner : Nat → Nat) (env kept : Environment) : Prop where
  global : owner 0 = 0
  bound : ∀ id < env.scopes.size, owner id < kept.scopes.size
  mono : StrictMonoOn owner (Set.Iio env.scopes.size)
  bindings : ∀ id < env.scopes.size, (kept.scope (owner id)).bindings = (env.scope id).bindings
  parent : ∀ id < env.scopes.size, (kept.scope (owner id)).parent = (env.scope id).parent.map owner
  below : ∀ id < env.scopes.size, ∀ parent, (env.scope id).parent = some parent → parent < id
  current_lt : env.current < env.scopes.size
  current : kept.current = owner env.current

structure Rebinds (env env' : Environment) : Prop where
  size : env'.scopes.size = env.scopes.size
  current : env'.current = env.current
  pinned : env'.pinned = env.pinned
  parent : ∀ id, (env'.scope id).parent = (env.scope id).parent

theorem Rebinds.modify (env : Environment) (id : Nat)
    (f : List (String × Binding) → List (String × Binding)) :
    Rebinds env { env with scopes := env.scopes.modify id fun s => { s with bindings := f s.bindings } } := by
  refine ⟨by simp, rfl, rfl, fun id' => ?_⟩
  rw [scope_modify]
  split <;> rfl

namespace Mirrors

variable {owner : Nat → Nat} {env kept : Environment} {id : Nat} {name : String}

theorem empty : Mirrors (fun id => id) .empty .empty where
  global := rfl
  bound _ h := h
  mono _ _ _ _ h := h
  bindings _ _ := rfl
  parent _ _ := by simp
  below id hid parent h := by
    have hid : id = 0 := Nat.lt_one_iff.mp hid
    subst hid
    cases h
  current_lt := Nat.zero_lt_one
  current := rfl

/-! Reading -/

theorem chain (h : Mirrors owner env kept) (hid : id < env.scopes.size) :
    kept.chain (owner id) = (env.chain id).map owner := by
  induction id using Nat.strongRecOn with
  | ind id ih =>
    rw [Environment.chain, Environment.chain, h.parent id hid]
    cases hparent : (env.scope id).parent with
    | none => rfl
    | some parent =>
      have hlt := h.below id hid parent hparent
      simp only [Option.map_some, if_pos hlt, if_pos (h.mono (Nat.lt_trans hlt hid) hid hlt), List.map_cons]
      rw [ih parent hlt (Nat.lt_trans hlt hid)]

theorem chain_current (h : Mirrors owner env kept) :
    kept.chain kept.current = (env.chain env.current).map owner := by
  rw [h.current, h.chain h.current_lt]

theorem lt_of_mem_chain (h : Mirrors owner env kept) (hid : id ∈ env.chain env.current) :
    id < env.scopes.size :=
  Nat.lt_of_le_of_lt (le_of_mem_chain hid) h.current_lt

theorem depth (h : Mirrors owner env kept) : kept.depth = env.depth := by
  rw [Environment.depth, Environment.depth, h.chain_current, List.length_map]

theorem find? (h : Mirrors owner env kept) (hid : id < env.scopes.size) (name : String) :
    (kept.scope (owner id)).find? name = (env.scope id).find? name := by
  rw [Scope.find?, Scope.find?, h.bindings id hid]

theorem get (h : Mirrors owner env kept) (name : String) : kept.get name = env.get name := by
  have hfind : ∀ ids : List Nat, (∀ id ∈ ids, id < env.scopes.size) →
      (ids.map owner).findSome? (fun id => (kept.scope id).find? name) =
        ids.findSome? fun id => (env.scope id).find? name := by
    intro ids hids
    rw [List.findSome?_map]
    induction ids with
    | nil => rfl
    | cons id ids ih =>
      rw [List.forall_mem_cons] at hids
      rw [List.findSome?_cons, List.findSome?_cons, ih hids.2, Function.comp_apply, h.find? hids.1]
  unfold Environment.get
  rw [h.chain_current, hfind _ fun _ => h.lt_of_mem_chain]

theorem resolve (h : Mirrors owner env kept) (name : String) :
    kept.resolve name = (env.resolve name).map owner := by
  have hfind : ∀ ids : List Nat, (∀ id ∈ ids, id < env.scopes.size) →
      (ids.map owner).find? (fun id => (kept.scope id).declares name) =
        (ids.find? fun id => (env.scope id).declares name).map owner := by
    intro ids hids
    induction ids with
    | nil => rfl
    | cons id ids ih =>
      rw [List.forall_mem_cons] at hids
      rw [List.map_cons, List.find?_cons, List.find?_cons, ih hids.2, Scope.declares,
        h.find? hids.1, ← Scope.declares]
      cases (env.scope id).declares name <;> rfl
  unfold Environment.resolve
  rw [h.chain_current, hfind _ fun _ => h.lt_of_mem_chain]
  cases (env.chain env.current).find? fun id => (env.scope id).declares name <;> rfl

theorem resolve_lt (h : Mirrors owner env kept) (hid : env.resolve name = .ok id) :
    id < env.scopes.size :=
  Nat.lt_of_le_of_lt (Environment.le_of_resolve hid) h.current_lt

theorem globals (h : Mirrors owner env kept) : kept.globals = env.globals := by
  have hbindings := h.bindings 0 (Nat.zero_lt_of_lt h.current_lt)
  rw [h.global] at hbindings
  rw [Environment.globals, Environment.globals, hbindings]

/-! Writing -/

theorem modify (h : Mirrors owner env kept) (hid : id < env.scopes.size)
    (f : List (String × Binding) → List (String × Binding)) :
    Mirrors owner
      { env with scopes := env.scopes.modify id fun s => { s with bindings := f s.bindings } }
      { kept with scopes := kept.scopes.modify (owner id) fun s => { s with bindings := f s.bindings } } := by
  have howner {id' : Nat} (hid' : id' < env.scopes.size) : owner id = owner id' ↔ id = id' :=
    h.mono.injOn.eq_iff hid hid'
  constructor
  case global => exact h.global
  case bound => simpa using h.bound
  case mono => simpa using h.mono
  case bindings =>
    intro id' hid'
    have hid' : id' < env.scopes.size := by simpa using hid'
    rw [scope_modify, scope_modify]
    simp only [howner hid', hid', h.bound id' hid', and_true]
    split <;> simp [h.bindings id' hid']
  case parent =>
    intro id' hid'
    have hid' : id' < env.scopes.size := by simpa using hid'
    rw [scope_modify, scope_modify]
    simp only [howner hid', hid', h.bound id' hid', and_true]
    split <;> simp [h.parent id' hid']
  case below =>
    intro id' hid' parent hparent
    apply h.below id' (by simpa using hid') parent
    rw [scope_modify] at hparent
    split at hparent <;> exact hparent
  case current_lt => simpa using h.current_lt
  case current => exact h.current

theorem declare (h : Mirrors owner env kept) (name : String) (kind : Kind) (v : Value) :
    (∃ e, env.declare name kind v = .error e ∧ kept.declare name kind v = .error e) ∨
      ∃ env' kept', env.declare name kind v = .ok env' ∧ kept.declare name kind v = .ok kept' ∧
        env.Rebinds env' ∧ Mirrors owner env' kept' := by
  have hdeclares : (kept.scope kept.current).declares name = (env.scope env.current).declares name := by
    rw [Scope.declares, Scope.declares, h.current, h.find? h.current_lt]
  unfold Environment.declare
  rw [hdeclares]
  split
  · exact .inl ⟨_, rfl, rfl⟩
  · refine .inr ⟨_, _, rfl, rfl, .modify env env.current _, ?_⟩
    have hmodify := h.modify h.current_lt fun bindings => (name, ⟨kind, v⟩) :: bindings
    rwa [← h.current] at hmodify

theorem set (h : Mirrors owner env kept) (name : String) (v : Value) :
    (∃ e, env.set name v = .error e ∧ kept.set name v = .error e) ∨
      ∃ env' kept', env.set name v = .ok env' ∧ kept.set name v = .ok kept' ∧
        env.Rebinds env' ∧ Mirrors owner env' kept' := by
  unfold Environment.set
  rw [h.resolve]
  cases hid : env.resolve name with
  | error e => exact .inl ⟨e, rfl, rfl⟩
  | ok id =>
    refine .inr ⟨_, _, rfl, rfl, .modify env id _, ?_⟩
    exact h.modify (h.resolve_lt hid) fun bindings => (Scope.setValue ⟨bindings, none⟩ name v).bindings

theorem capture (h : Mirrors owner env kept) : Mirrors owner env.capture.2 kept.capture.2 :=
  ⟨h.global, h.bound, h.mono, h.bindings, h.parent, h.below, h.current_lt, h.current⟩

/-! Entering and leaving -/

theorem enter (h : Mirrors owner env kept) {parent : Nat} (hparent : parent < env.scopes.size) :
    Mirrors (Function.update owner env.scopes.size kept.scopes.size) (env.enter parent)
      (kept.enter (owner parent)) := by
  have hold {id : Nat} (hid : id < env.scopes.size) :
      Function.update owner env.scopes.size kept.scopes.size id = owner id :=
    Function.update_of_ne (Nat.ne_of_lt hid) _ _
  have hnew : Function.update owner env.scopes.size kept.scopes.size env.scopes.size = kept.scopes.size :=
    Function.update_self _ _ _
  have hcases {id : Nat} (hid : id < (env.enter parent).scopes.size) :
      id < env.scopes.size ∨ id = env.scopes.size := by
    simp only [Environment.enter, Array.size_push] at hid
    omega
  have hne {id : Nat} (hid : id < env.scopes.size) : owner id ≠ kept.scopes.size :=
    Nat.ne_of_lt (h.bound id hid)
  constructor
  case global =>
    rw [hold (Nat.zero_lt_of_lt h.current_lt)]
    exact h.global
  case bound =>
    intro id hid
    simp only [Environment.enter, Array.size_push]
    rcases hcases hid with hid | rfl
    · rw [hold hid]
      exact Nat.lt_succ_of_lt (h.bound id hid)
    · rw [hnew]
      exact Nat.lt_succ_self _
  case mono =>
    intro id _ id' hid' hlt
    rcases hcases hid' with hid' | rfl
    · rw [hold hid', hold (Nat.lt_trans hlt hid')]
      exact h.mono (Nat.lt_trans hlt hid') hid' hlt
    · rw [hold hlt, hnew]
      exact h.bound id hlt
  case bindings =>
    intro id hid
    rcases hcases hid with hid | rfl
    · rw [hold hid, scope_enter, if_neg (hne hid), scope_enter, if_neg (Nat.ne_of_lt hid)]
      exact h.bindings id hid
    · rw [hnew, scope_enter, if_pos rfl, scope_enter, if_pos rfl]
  case parent =>
    intro id hid
    rcases hcases hid with hid | rfl
    · rw [hold hid, scope_enter, if_neg (hne hid), scope_enter, if_neg (Nat.ne_of_lt hid), h.parent id hid]
      cases hp : (env.scope id).parent with
      | none => rfl
      | some p =>
        have hlt := h.below id hid p hp
        rw [Option.map_some, Option.map_some, hold (Nat.lt_trans hlt hid)]
    · rw [hnew, scope_enter, if_pos rfl, scope_enter, if_pos rfl, Option.map_some, hold hparent]
  case below =>
    intro id hid p hp
    rcases hcases hid with hid | rfl
    · rw [scope_enter, if_neg (Nat.ne_of_lt hid)] at hp
      exact h.below id hid p hp
    · rw [scope_enter, if_pos rfl] at hp
      cases hp
      exact hparent
  case current_lt => simp [Environment.enter]
  case current => exact hnew.symm

theorem leave (h : Mirrors owner env kept) {target : Nat}
    (htarget : target < (env.leave target).scopes.size) :
    Mirrors owner (env.leave target) (kept.forsake (owner target)) := by
  have hlt {id : Nat} (hid : id < (env.leave target).scopes.size) : id < env.scopes.size :=
    Nat.lt_of_lt_of_le hid size_leave_le
  constructor
  case global => exact h.global
  case bound => exact fun id hid => h.bound id (hlt hid)
  case mono => exact h.mono.mono fun id hid => hlt hid
  case bindings =>
    intro id hid
    rw [scope_leave hid]
    exact h.bindings id (hlt hid)
  case parent =>
    intro id hid
    rw [scope_leave hid]
    exact h.parent id (hlt hid)
  case below =>
    intro id hid parent hparent
    rw [scope_leave hid] at hparent
    exact h.below id (hlt hid) parent hparent
  case current_lt =>
    rw [current_leave]
    exact htarget
  case current =>
    rw [current_leave]
    rfl

end Mirrors

end Arbor.Environment
