import Mathlib.Data.List.Forall2
import Mathlib.Data.Set.Monotone
import Mathlib.Order.Interval.Set.Defs
import Arbor.Proofs.Evaluation.Balance
import Arbor.Proofs.Value.Renaming

/-!
This module contains environments that bind the same names in arenas with other numbers: each scope of one stands for a
scope of the other one, which may have empty scopes in between, and scopes that were left.
-/

namespace Arbor

open Value (Renamed)

structure Binding.Renamed (owner : Nat → Nat) (bound : Nat) (b b' : Binding) : Prop where
  kind : b'.kind = b.kind
  value : b.value.Renamed owner bound b'.value

def RenamedBindings (owner : Nat → Nat) (bound : Nat) : List (String × Binding) → List (String × Binding) → Prop :=
  List.Forall₂ fun entry entry' => entry'.1 = entry.1 ∧ entry.2.Renamed owner bound entry'.2

section Bindings

variable {owner owner' : Nat → Nat} {bound bound' : Nat} {bs bs' : List (String × Binding)} {b b' : Binding}
  {name : String} {kind : Kind} {v v' : Value}

theorem Binding.Renamed.mono (h : b.Renamed owner bound b') (howner : ∀ id < bound, owner' id = owner id)
    (hbound : bound ≤ bound') : b.Renamed owner' bound' b' :=
  ⟨h.kind, h.value.mono howner hbound⟩

namespace RenamedBindings

theorem mono (h : RenamedBindings owner bound bs bs') (howner : ∀ id < bound, owner' id = owner id)
    (hbound : bound ≤ bound') : RenamedBindings owner' bound' bs bs' :=
  List.Forall₂.imp (fun _ _ he => ⟨he.1, he.2.mono howner hbound⟩) h

theorem lookup (h : RenamedBindings owner bound bs bs') (name : String) :
    (bs.lookup name = none ∧ bs'.lookup name = none) ∨
      ∃ b b', bs.lookup name = some b ∧ bs'.lookup name = some b' ∧ b.Renamed owner bound b' := by
  induction h with
  | nil => exact .inl ⟨rfl, rfl⟩
  | @cons entry entry' _ _ he _ ih =>
    obtain ⟨_, b⟩ := entry
    obtain ⟨key, b'⟩ := entry'
    obtain ⟨rfl, hb⟩ := he
    rw [List.lookup_cons, List.lookup_cons]
    dsimp only
    cases name == key with
    | true => exact .inr ⟨b, b', rfl, rfl, hb⟩
    | false => exact ih

theorem cons (h : RenamedBindings owner bound bs bs') (hv : v.Renamed owner bound v') :
    RenamedBindings owner bound ((name, ⟨kind, v⟩) :: bs) ((name, ⟨kind, v'⟩) :: bs') :=
  List.Forall₂.cons ⟨rfl, rfl, hv⟩ h

theorem setValue (h : RenamedBindings owner bound bs bs') (hv : v.Renamed owner bound v') :
    RenamedBindings owner bound (Scope.setValue ⟨bs, none⟩ name v).bindings
      (Scope.setValue ⟨bs', none⟩ name v').bindings := by
  apply List.forall₂_map_left_iff.mpr
  apply List.forall₂_map_right_iff.mpr
  apply List.Forall₂.imp _ h
  rintro ⟨_, b⟩ ⟨key, b'⟩ ⟨rfl, hb⟩
  dsimp only
  split
  · exact ⟨rfl, hb.kind, hv⟩
  · exact ⟨rfl, hb⟩

end RenamedBindings

end Bindings

namespace Environment

/--
Going outward from a scope leads to another one, through scopes that bind nothing and that no scope below a bound stands
for.
-/
inductive Leads (owner : Nat → Nat) (bound : Nat) (env : Environment) : Nat → Nat → Prop where
  | here (id : Nat) : Leads owner bound env id id
  | outward {id parent target : Nat} :
    id < env.scopes.size → (∀ id' < bound, owner id' ≠ id) → (env.scope id).bindings = [] →
    (env.scope id).parent = some parent → parent < id → Leads owner bound env parent target →
    Leads owner bound env id target

/--
Each scope of an environment stands for the scope of another environment that `owner` gives: the same names are bound in
it, and going outward from it leads to the scope that its parent stands for. Functions have captured pinned scopes only,
and the scopes behind the current one are pinned.
-/
structure Renames (owner : Nat → Nat) (env env' : Environment) : Prop where
  mono : StrictMonoOn owner (Set.Iio env.scopes.size)
  bound : ∀ id < env.scopes.size, owner id < env'.scopes.size
  bindings : ∀ id < env.scopes.size,
    RenamedBindings owner env.pinned (env.scope id).bindings (env'.scope (owner id)).bindings
  outermost : ∀ id < env.scopes.size, (env.scope id).parent = none → (env'.scope (owner id)).parent = none
  parent : ∀ id < env.scopes.size, ∀ parent, (env.scope id).parent = some parent →
    parent < id ∧ ∃ parent', (env'.scope (owner id)).parent = some parent' ∧ parent' < owner id ∧
      Leads owner env.scopes.size env' parent' (owner parent)
  pinned : ∀ id < env.pinned, owner id < env'.pinned
  pinned_le : env.pinned ≤ env.scopes.size
  behind : env.scopes.size ≤ max (env.current + 1) env.pinned
  current_lt : env.current < env.scopes.size
  current_lt' : env'.current < env'.scopes.size
  current : Leads owner env.scopes.size env' env'.current (owner env.current)

section Leads

variable {owner owner' : Nat → Nat} {bound bound' : Nat} {env env' : Environment} {id target : Nat}

theorem Leads.congr (h : Leads owner bound env id target)
    (hsame : ∀ i ≤ id, i < env.scopes.size → (∀ id' < bound, owner id' ≠ i) →
      i < env'.scopes.size ∧ (∀ id' < bound', owner' id' ≠ i) ∧ env'.scope i = env.scope i) :
    Leads owner' bound' env' id target := by
  induction h with
  | here id => exact .here id
  | outward hid hown hbindings hparent hlt _ ih =>
    obtain ⟨hid', hown', hscope⟩ := hsame _ (Nat.le_refl _) hid hown
    refine .outward hid' hown' (hscope ▸ hbindings) (hscope ▸ hparent) hlt (ih fun i hi => ?_)
    exact hsame i (Nat.le_trans hi (Nat.le_of_lt hlt))

theorem Leads.find? (h : Leads owner bound env id target) (name : String) :
    (env.chain id).find? (fun i => (env.scope i).declares name) =
      (env.chain target).find? fun i => (env.scope i).declares name := by
  induction h with
  | here => rfl
  | @outward id _ _ _ _ hbindings hparent hlt _ ih =>
    have hdeclares : (env.scope id).declares name = false := by
      rw [Scope.declares, Scope.find?, hbindings]
      rfl
    rw [chain, hparent]
    simp only [if_pos hlt]
    rw [List.find?_cons, hdeclares]
    exact ih

end Leads

theorem get_eq_error {env : Environment} {name : String} {e : EvalErrorKind} (h : env.resolve name = .error e) :
    env.get name = .error e := by
  cases hget : env.get name with
  | ok b =>
    obtain ⟨id, hid, -⟩ := resolve_of_get hget
    cases h.symm.trans hid
  | error e' =>
    unfold resolve at h
    unfold get at hget
    split at h
    · cases h
    · cases h
      split at hget
      · cases hget
      · exact hget.symm

namespace Renames

variable {owner owner' : Nat → Nat} {env env' : Environment} {id : Nat} {name : String}

/-! Reading -/

theorem declares_eq (h : Renames owner env env') (hid : id < env.scopes.size) (name : String) :
    (env'.scope (owner id)).declares name = (env.scope id).declares name := by
  unfold Scope.declares Scope.find?
  rcases (h.bindings id hid).lookup name with ⟨hnone, hnone'⟩ | ⟨b, b', hb, hb', -⟩
  · rw [hnone, hnone']
  · rw [hb, hb']
    rfl

theorem find?_chain (h : Renames owner env env') (hid : id < env.scopes.size) (name : String) :
    ((env'.chain (owner id)).find? fun i => (env'.scope i).declares name) =
      ((env.chain id).find? fun i => (env.scope i).declares name).map owner := by
  induction id using Nat.strongRecOn with
  | ind id ih =>
    rw [chain, chain, List.find?_cons, List.find?_cons, h.declares_eq hid]
    cases (env.scope id).declares name with
    | true => rfl
    | false =>
      dsimp only
      cases hparent : (env.scope id).parent with
      | none =>
        rw [h.outermost id hid hparent]
        rfl
      | some parent =>
        obtain ⟨hlt, parent', hparent', hlt', hleads⟩ := h.parent id hid parent hparent
        rw [hparent']
        simp only [if_pos hlt, if_pos hlt']
        rw [hleads.find?, ih parent hlt (Nat.lt_trans hlt hid)]

theorem resolve (h : Renames owner env env') (name : String) :
    env'.resolve name = (env.resolve name).map owner := by
  unfold Environment.resolve
  rw [h.current.find?, h.find?_chain h.current_lt]
  cases (env.chain env.current).find? fun i => (env.scope i).declares name <;> rfl

theorem lt_of_resolve (h : Renames owner env env') (hid : env.resolve name = .ok id) : id < env.scopes.size :=
  Nat.lt_of_le_of_lt (le_of_resolve hid) h.current_lt

theorem get (h : Renames owner env env') (name : String) :
    (∃ e, env.get name = .error e ∧ env'.get name = .error e) ∨
      ∃ b b', env.get name = .ok b ∧ env'.get name = .ok b' ∧ b.Renamed owner env.pinned b' := by
  have hresolve := h.resolve name
  cases hid : env.resolve name with
  | error e =>
    rw [hid] at hresolve
    exact .inl ⟨e, get_eq_error hid, get_eq_error hresolve⟩
  | ok id =>
    rw [hid] at hresolve
    obtain ⟨b, hget, hb⟩ := get_of_resolve hid
    obtain ⟨b', hget', hb'⟩ := get_of_resolve hresolve
    refine .inr ⟨b, b', hget, hget', ?_⟩
    rcases (h.bindings id (h.lt_of_resolve hid)).lookup name with ⟨hnone, -⟩ | ⟨c, c', hc, hc', hrenamed⟩
    · cases hb.symm.trans hnone
    · cases hb.symm.trans hc
      cases hb'.symm.trans hc'
      exact hrenamed

/-! Numberings -/

theorem congr (h : Renames owner env env') (howner : ∀ id < env.scopes.size, owner' id = owner id) :
    Renames owner' env env' := by
  have hleads {i target : Nat} (hi : Leads owner env.scopes.size env' i target) :
      Leads owner' env.scopes.size env' i target :=
    hi.congr fun i _ hi hown => ⟨hi, fun id hid => howner id hid ▸ hown id hid, rfl⟩
  constructor
  case mono =>
    intro id hid id' hid' hlt
    rw [howner id hid, howner id' hid']
    exact h.mono hid hid' hlt
  case bound =>
    intro id hid
    rw [howner id hid]
    exact h.bound id hid
  case bindings =>
    intro id hid
    rw [howner id hid]
    exact (h.bindings id hid).mono (fun id hid => howner id (Nat.lt_of_lt_of_le hid h.pinned_le)) (Nat.le_refl _)
  case outermost =>
    intro id hid
    rw [howner id hid]
    exact h.outermost id hid
  case parent =>
    intro id hid parent hparent
    obtain ⟨hlt, parent', hparent', hlt', hway⟩ := h.parent id hid parent hparent
    rw [howner id hid, howner parent (Nat.lt_trans hlt hid)]
    exact ⟨hlt, parent', hparent', hlt', hleads hway⟩
  case pinned =>
    intro id hid
    rw [howner id (Nat.lt_of_lt_of_le hid h.pinned_le)]
    exact h.pinned id hid
  case pinned_le => exact h.pinned_le
  case behind => exact h.behind
  case current_lt => exact h.current_lt
  case current_lt' => exact h.current_lt'
  case current =>
    rw [howner _ h.current_lt]
    exact hleads h.current

/--
The scopes of one environment stand for each other only if each of them stands for itself.
-/
theorem owner_eq (h : Renames owner env env) : ∀ id < env.scopes.size, owner id = id := by
  have hle (rest id : Nat) (hid : id + rest + 1 = env.scopes.size) : owner id ≤ id := by
    induction rest generalizing id with
    | zero =>
      have hbound := h.bound id (by omega)
      omega
    | succ rest ih =>
      have hnext := ih (id + 1) (by omega)
      have hlt : owner id < owner (id + 1) :=
        h.mono (Set.mem_Iio.mpr (by omega)) (Set.mem_Iio.mpr (by omega)) (Nat.lt_succ_self id)
      omega
  have hge (id : Nat) (hid : id < env.scopes.size) : id ≤ owner id := by
    induction id with
    | zero => exact Nat.zero_le _
    | succ id ih =>
      have hprevious := ih (by omega)
      have hlt : owner id < owner (id + 1) :=
        h.mono (Set.mem_Iio.mpr (by omega)) hid (Nat.lt_succ_self id)
      omega
  exact fun id hid => Nat.le_antisymm (hle (env.scopes.size - 1 - id) id (by omega)) (hge id hid)

/-! Writing -/

theorem parent_modify {f : List (String × Binding) → List (String × Binding)} (env : Environment) (i id : Nat) :
    (({ env with scopes := env.scopes.modify i fun s => { s with bindings := f s.bindings } } : Environment).scope
      id).parent = (env.scope id).parent := by
  rw [scope_modify]
  split <;> rfl

theorem modify (h : Renames owner env env') (hid : id < env.scopes.size)
    {f f' : List (String × Binding) → List (String × Binding)}
    (hf : ∀ bs bs', RenamedBindings owner env.pinned bs bs' → RenamedBindings owner env.pinned (f bs) (f' bs')) :
    Renames owner
      { env with scopes := env.scopes.modify id fun s => { s with bindings := f s.bindings } }
      { env' with scopes := env'.scopes.modify (owner id) fun s => { s with bindings := f' s.bindings } } := by
  have howner {id' : Nat} (hid' : id' < env.scopes.size) : owner id = owner id' ↔ id = id' :=
    h.mono.injOn.eq_iff hid hid'
  have hleads {i target : Nat} (hi : Leads owner env.scopes.size env' i target) :
      Leads owner (env.scopes.modify id fun s => { s with bindings := f s.bindings }).size
        { env' with scopes := env'.scopes.modify (owner id) fun s => { s with bindings := f' s.bindings } }
        i target := by
    apply hi.congr
    intro i _ hi hown
    rw [Array.size_modify, Array.size_modify, scope_modify, if_neg fun heq => hown id hid heq.1]
    exact ⟨hi, hown, rfl⟩
  constructor
  case mono => simpa using h.mono
  case bound => simpa using h.bound
  case bindings =>
    intro id' hid'
    have hid' : id' < env.scopes.size := by simpa using hid'
    rw [scope_modify, scope_modify]
    simp only [howner hid', hid', h.bound id' hid', and_true]
    split
    · exact hf _ _ (h.bindings id' hid')
    · exact h.bindings id' hid'
  case outermost =>
    intro id' hid' hnone
    rw [parent_modify] at hnone ⊢
    exact h.outermost id' (by simpa using hid') hnone
  case parent =>
    intro id' hid' parent hparent
    rw [parent_modify] at hparent ⊢
    obtain ⟨hlt, parent', hparent', hlt', hway⟩ := h.parent id' (by simpa using hid') parent hparent
    exact ⟨hlt, parent', hparent', hlt', hleads hway⟩
  case pinned => exact h.pinned
  case pinned_le => simpa using h.pinned_le
  case behind => simpa using h.behind
  case current_lt => simpa using h.current_lt
  case current_lt' => simpa using h.current_lt'
  case current => exact hleads h.current

theorem capture (h : Renames owner env env') (hcurrent : env'.current = owner env.current) :
    Renames owner env.capture.2 env'.capture.2 := by
  have hleads {i target : Nat} (hi : Leads owner env.scopes.size env' i target) :
      Leads owner env.scopes.size env'.capture.2 i target :=
    hi.congr fun i _ hi hown => ⟨hi, hown, rfl⟩
  have hlt := h.current_lt
  have hle := h.pinned_le
  constructor
  case mono => exact h.mono
  case bound => exact h.bound
  case bindings => exact fun id hid => (h.bindings id hid).mono (fun _ _ => rfl) (Nat.le_max_left _ _)
  case outermost => exact h.outermost
  case parent =>
    intro id hid parent hparent
    obtain ⟨hlt, parent', hparent', hlt', hway⟩ := h.parent id hid parent hparent
    exact ⟨hlt, parent', hparent', hlt', hleads hway⟩
  case pinned =>
    intro id hid
    have hid : id < max env.pinned (env.current + 1) := hid
    have hgoal : owner id < max env'.pinned (env'.current + 1) := by
      by_cases hpinned : id < env.pinned
      · exact Nat.lt_of_lt_of_le (h.pinned id hpinned) (Nat.le_max_left _ _)
      · have hle : owner id ≤ owner env.current :=
          (h.mono.le_iff_le (by simp only [Set.mem_Iio]; omega) hlt).mpr (by omega)
        omega
    exact hgoal
  case pinned_le =>
    have hgoal : max env.pinned (env.current + 1) ≤ env.scopes.size := by omega
    exact hgoal
  case behind =>
    have hgoal : env.scopes.size ≤ max (env.current + 1) (max env.pinned (env.current + 1)) := by
      have hbehind := h.behind
      omega
    exact hgoal
  case current_lt => exact hlt
  case current_lt' => exact h.current_lt'
  case current => exact hleads h.current

/-! Entering and leaving -/

theorem enter (h : Renames owner env env') {parent parent' : Nat} (hparent : parent < env.scopes.size)
    (hparent' : parent' < env'.scopes.size) (hleads : Leads owner env.scopes.size env' parent' (owner parent)) :
    Renames (Function.update owner env.scopes.size env'.scopes.size) (env.enter parent) (env'.enter parent') := by
  have hsize : (env.enter parent).scopes.size = env.scopes.size + 1 := Array.size_push _
  have hsize' : (env'.enter parent').scopes.size = env'.scopes.size + 1 := Array.size_push _
  have hold {id : Nat} (hid : id < env.scopes.size) :
      Function.update owner env.scopes.size env'.scopes.size id = owner id :=
    Function.update_of_ne (Nat.ne_of_lt hid) _ _
  have hnew : Function.update owner env.scopes.size env'.scopes.size env.scopes.size = env'.scopes.size :=
    Function.update_self _ _ _
  have hcases {id : Nat} (hid : id < (env.enter parent).scopes.size) :
      id < env.scopes.size ∨ id = env.scopes.size := by
    omega
  have hway {i target : Nat} (hi : Leads owner env.scopes.size env' i target) :
      Leads (Function.update owner env.scopes.size env'.scopes.size) (env.enter parent).scopes.size
        (env'.enter parent') i target := by
    apply hi.congr
    intro i _ hi hown
    rw [hsize', scope_enter, if_neg (Nat.ne_of_lt hi)]
    refine ⟨by omega, fun id hid => ?_, rfl⟩
    rcases hcases hid with hid | rfl
    · rw [hold hid]
      exact hown id hid
    · rw [hnew]
      exact (Nat.ne_of_lt hi).symm
  have hscope {id : Nat} (hid : id < env.scopes.size) : (env.enter parent).scope id = env.scope id ∧
      (env'.enter parent').scope (owner id) = env'.scope (owner id) := by
    rw [scope_enter, if_neg (Nat.ne_of_lt hid), scope_enter, if_neg (Nat.ne_of_lt (h.bound id hid))]
    exact ⟨rfl, rfl⟩
  have hentered : (env.enter parent).scope env.scopes.size = ⟨[], some parent⟩ ∧
      (env'.enter parent').scope env'.scopes.size = ⟨[], some parent'⟩ := by
    rw [scope_enter, if_pos rfl, scope_enter, if_pos rfl]
    exact ⟨rfl, rfl⟩
  constructor
  case mono =>
    intro id _ id' hid' hlt
    rcases hcases hid' with hid' | rfl
    · rw [hold hid', hold (Nat.lt_trans hlt hid')]
      exact h.mono (Nat.lt_trans hlt hid') hid' hlt
    · rw [hold hlt, hnew]
      exact h.bound id hlt
  case bound =>
    intro id hid
    rw [hsize']
    rcases hcases hid with hid | rfl
    · rw [hold hid]
      exact Nat.lt_succ_of_lt (h.bound id hid)
    · rw [hnew]
      exact Nat.lt_succ_self _
  case bindings =>
    intro id hid
    rcases hcases hid with hid | rfl
    · rw [hold hid, (hscope hid).1, (hscope hid).2]
      exact (h.bindings id hid).mono (fun id' hid' => hold (Nat.lt_of_lt_of_le hid' h.pinned_le)) (Nat.le_refl _)
    · rw [hnew, hentered.1, hentered.2]
      exact .nil
  case outermost =>
    intro id hid hnone
    rcases hcases hid with hid | rfl
    · rw [(hscope hid).1] at hnone
      rw [hold hid, (hscope hid).2]
      exact h.outermost id hid hnone
    · rw [hentered.1] at hnone
      cases hnone
  case parent =>
    intro id hid outer houter
    rcases hcases hid with hid | rfl
    · rw [(hscope hid).1] at houter
      obtain ⟨hlt, outer', houter', hlt', hleads⟩ := h.parent id hid outer houter
      rw [hold hid, hold (Nat.lt_trans hlt hid), (hscope hid).2]
      exact ⟨hlt, outer', houter', hlt', hway hleads⟩
    · rw [hentered.1] at houter
      cases houter
      rw [hnew, hold hparent, hentered.2]
      exact ⟨hparent, parent', rfl, hparent', hway hleads⟩
  case pinned =>
    intro id hid
    rw [hold (Nat.lt_of_lt_of_le hid h.pinned_le)]
    exact h.pinned id hid
  case pinned_le =>
    rw [hsize]
    exact Nat.le_succ_of_le h.pinned_le
  case behind =>
    rw [hsize]
    exact Nat.le_max_left _ _
  case current_lt =>
    rw [hsize]
    exact Nat.lt_succ_self _
  case current_lt' =>
    rw [hsize']
    exact Nat.lt_succ_self _
  case current =>
    have hcurrent : Function.update owner env.scopes.size env'.scopes.size (env.enter parent).current =
        (env'.enter parent').current := hnew
    rw [hcurrent]
    exact .here _

theorem leads_leave {target' n i id : Nat} (hi : i < (env'.leave target').scopes.size) (hn : n ≤ env.scopes.size)
    (hleads : Leads owner env.scopes.size env' i id) : Leads owner n (env'.leave target') i id := by
  apply hleads.congr
  intro j hj _ hown
  have hj : j < (env'.leave target').scopes.size := Nat.lt_of_le_of_lt hj hi
  exact ⟨hj, fun id' hid' => hown id' (Nat.lt_of_lt_of_le hid' hn), scope_leave hj⟩

theorem leave (h : Renames owner env env') (hcurrent : env'.current = owner env.current) {target target' : Nat}
    (htarget : target < env.current) (htarget' : target' < env'.current)
    (hbehind : env.current ≤ max (target + 1) env.pinned)
    (hleads : Leads owner env.scopes.size env' target' (owner target)) :
    Renames owner (env.leave target) (env'.leave target') := by
  have hcurrent_lt := h.current_lt
  have hpinned_le := h.pinned_le
  have hpinned := h.behind
  have hlt {id : Nat} (hid : id < (env.leave target).scopes.size) : id < env.scopes.size :=
    Nat.lt_of_lt_of_le hid size_leave_le
  have hbound {id : Nat} (hid : id < (env.leave target).scopes.size) :
      owner id < (env'.leave target').scopes.size := by
    have hid' := h.bound id (hlt hid)
    rw [size_leave] at hid ⊢
    by_cases hlast : env'.pinned ≤ env'.current ∧ env'.current + 1 = env'.scopes.size
    · rw [if_pos hlast]
      have hne : owner id ≠ owner env.current := by
        intro heq
        have heq : id = env.current := h.mono.injOn (hlt (by rwa [size_leave])) hcurrent_lt heq
        have hpinned := h.pinned env.current
        split at hid <;> omega
      omega
    · rwa [if_neg hlast]
  constructor
  case mono => exact h.mono.mono fun id hid => hlt hid
  case bound => exact fun id hid => hbound hid
  case bindings =>
    intro id hid
    rw [scope_leave hid, scope_leave (hbound hid), pinned_leave]
    exact h.bindings id (hlt hid)
  case outermost =>
    intro id hid hnone
    rw [scope_leave hid] at hnone
    rw [scope_leave (hbound hid)]
    exact h.outermost id (hlt hid) hnone
  case parent =>
    intro id hid parent hparent
    rw [scope_leave hid] at hparent
    rw [scope_leave (hbound hid)]
    obtain ⟨hlt', parent', hparent', hlt'', hway⟩ := h.parent id (hlt hid) parent hparent
    exact ⟨hlt', parent', hparent', hlt'', leads_leave (Nat.lt_trans hlt'' (hbound hid)) size_leave_le hway⟩
  case pinned =>
    rw [pinned_leave, pinned_leave]
    exact h.pinned
  case pinned_le =>
    rw [pinned_leave, size_leave]
    split <;> omega
  case behind =>
    rw [current_leave, pinned_leave, size_leave]
    split <;> omega
  case current_lt =>
    rw [current_leave]
    exact Nat.lt_of_lt_of_le htarget (le_size_leave hcurrent_lt)
  case current_lt' =>
    rw [current_leave]
    exact Nat.lt_of_lt_of_le htarget' (le_size_leave h.current_lt')
  case current =>
    rw [current_leave, current_leave]
    exact leads_leave (Nat.lt_of_lt_of_le htarget' (le_size_leave h.current_lt')) size_leave_le hleads

theorem push_right (h : Renames owner env env') : Renames owner env env'.push := by
  have hsize' : env'.push.scopes.size = env'.scopes.size + 1 := Array.size_push _
  have hscope {id : Nat} (hid : id < env'.scopes.size) : env'.push.scope id = env'.scope id := by
    rw [push, scope_enter, if_neg (Nat.ne_of_lt hid)]
  have hentered : env'.push.scope env'.scopes.size = ⟨[], some env'.current⟩ := by
    rw [push, scope_enter, if_pos rfl]
  have hway {i target : Nat} (hi : Leads owner env.scopes.size env' i target) :
      Leads owner env.scopes.size env'.push i target := by
    apply hi.congr
    intro i _ hi hown
    exact ⟨hsize' ▸ Nat.lt_succ_of_lt hi, hown, hscope hi⟩
  constructor
  case mono => exact h.mono
  case bound => exact fun id hid => hsize' ▸ Nat.lt_succ_of_lt (h.bound id hid)
  case bindings =>
    intro id hid
    rw [hscope (h.bound id hid)]
    exact h.bindings id hid
  case outermost =>
    intro id hid hnone
    rw [hscope (h.bound id hid)]
    exact h.outermost id hid hnone
  case parent =>
    intro id hid parent hparent
    obtain ⟨hlt, parent', hparent', hlt', hleads⟩ := h.parent id hid parent hparent
    rw [hscope (h.bound id hid)]
    exact ⟨hlt, parent', hparent', hlt', hway hleads⟩
  case pinned => exact h.pinned
  case pinned_le => exact h.pinned_le
  case behind => exact h.behind
  case current_lt => exact h.current_lt
  case current_lt' =>
    rw [hsize']
    exact Nat.lt_succ_self _
  case current =>
    refine .outward (hsize' ▸ Nat.lt_succ_self _) (fun id hid => Nat.ne_of_lt (h.bound id hid)) ?_ ?_ h.current_lt'
      (hway h.current)
    · exact congrArg Scope.bindings hentered
    · exact congrArg Scope.parent hentered

/--
The other environment leaves a scope that stands for none.
-/
theorem leave_right (h : Renames owner env env') (hown : ∀ id < env.scopes.size, owner id ≠ env'.current)
    {target' : Nat} (htarget' : target' < env'.current)
    (hleads : Leads owner env.scopes.size env' target' (owner env.current)) :
    Renames owner env (env'.leave target') := by
  have hbound {id : Nat} (hid : id < env.scopes.size) : owner id < (env'.leave target').scopes.size := by
    have hid' := h.bound id hid
    have hne := hown id hid
    rw [size_leave]
    split <;> omega
  constructor
  case mono => exact h.mono
  case bound => exact fun id hid => hbound hid
  case bindings =>
    intro id hid
    rw [scope_leave (hbound hid)]
    exact h.bindings id hid
  case outermost =>
    intro id hid hnone
    rw [scope_leave (hbound hid)]
    exact h.outermost id hid hnone
  case parent =>
    intro id hid parent hparent
    obtain ⟨hlt, parent', hparent', hlt', hway⟩ := h.parent id hid parent hparent
    rw [scope_leave (hbound hid)]
    exact ⟨hlt, parent', hparent', hlt', leads_leave (Nat.lt_trans hlt' (hbound hid)) (Nat.le_refl _) hway⟩
  case pinned =>
    rw [pinned_leave]
    exact h.pinned
  case pinned_le => exact h.pinned_le
  case behind => exact h.behind
  case current_lt => exact h.current_lt
  case current_lt' =>
    rw [current_leave]
    exact Nat.lt_of_lt_of_le htarget' (le_size_leave h.current_lt')
  case current =>
    rw [current_leave]
    exact leads_leave (Nat.lt_of_lt_of_le htarget' (le_size_leave h.current_lt')) (Nat.le_refl _) hleads

end Renames

/-! Going on -/

/--
Two environments that stand for each other go on to two others that do. The scopes that were there stand for the same
scopes as before, and what stood for none is as it was.
-/
structure Continues (owner owner' : Nat → Nat) (env env' env₁ env₁' : Environment) : Prop where
  renames : Renames owner' env₁ env₁'
  agrees : ∀ id < env.scopes.size, owner' id = owner id
  idle : ∀ i < env'.scopes.size, (∀ id < env.scopes.size, owner id ≠ i) →
    (∀ id < env₁.scopes.size, owner' id ≠ i) ∧ env₁'.scope i = env'.scope i
  pinned : env.pinned ≤ env₁.pinned
  frame : env.Framed true env₁
  frame' : env'.Framed true env₁'

namespace Continues

variable {owner owner' owner'' : Nat → Nat} {env env' env₁ env₁' env₂ env₂' : Environment}

theorem refl (h : Renames owner env env') : Continues owner owner env env' env env' :=
  ⟨h, fun _ _ => rfl, fun _ _ hown => ⟨hown, rfl⟩, Nat.le_refl _, .refl _ _, .refl _ _⟩

theorem trans (h : Continues owner owner' env env' env₁ env₁') (h' : Continues owner' owner'' env₁ env₁' env₂ env₂') :
    Continues owner owner'' env env' env₂ env₂' where
  renames := h'.renames
  agrees id hid := (h'.agrees id (Nat.lt_of_lt_of_le hid h.frame.size)).trans (h.agrees id hid)
  idle i hi hown := by
    obtain ⟨hown₁, hscope₁⟩ := h.idle i hi hown
    obtain ⟨hown₂, hscope₂⟩ := h'.idle i (Nat.lt_of_lt_of_le hi h.frame'.size) hown₁
    exact ⟨hown₂, hscope₂.trans hscope₁⟩
  pinned := Nat.le_trans h.pinned h'.pinned
  frame := h.frame.trans h'.frame
  frame' := h.frame'.trans h'.frame'

theorem current_eq (h : Continues owner owner' env env' env₁ env₁') (hlt : env.current < env.scopes.size)
    (hcurrent : env'.current = owner env.current) : env₁'.current = owner' env₁.current := by
  rw [h.frame.current, h.frame'.current, hcurrent, h.agrees _ hlt]

theorem modify (h : Renames owner env env') {id : Nat} (hid : id < env.scopes.size)
    {f f' : List (String × Binding) → List (String × Binding)}
    (hf : ∀ bs bs', RenamedBindings owner env.pinned bs bs' → RenamedBindings owner env.pinned (f bs) (f' bs'))
    (hframe : env.Framed true { env with scopes := env.scopes.modify id fun s => { s with bindings := f s.bindings } })
    (hframe' : env'.Framed true
      { env' with scopes := env'.scopes.modify (owner id) fun s => { s with bindings := f' s.bindings } }) :
    Continues owner owner env env'
      { env with scopes := env.scopes.modify id fun s => { s with bindings := f s.bindings } }
      { env' with scopes := env'.scopes.modify (owner id) fun s => { s with bindings := f' s.bindings } } where
  renames := h.modify hid hf
  agrees _ _ := rfl
  idle i _ hown := by
    rw [Array.size_modify, scope_modify, if_neg fun heq => hown id hid heq.1]
    exact ⟨hown, rfl⟩
  pinned := Nat.le_refl _
  frame := hframe
  frame' := hframe'

theorem declare (h : Renames owner env env') (hcurrent : env'.current = owner env.current) {kind : Kind} {v v' : Value}
    (hv : v.Renamed owner env.pinned v') (name : String) :
    (∃ e, env.declare name kind v = .error e ∧ env'.declare name kind v' = .error e) ∨
      ∃ env₁ env₁', env.declare name kind v = .ok env₁ ∧ env'.declare name kind v' = .ok env₁' ∧
        Continues owner owner env env' env₁ env₁' := by
  have hdeclares := h.declares_eq h.current_lt name
  rw [← hcurrent] at hdeclares
  by_cases hname : (env.scope env.current).declares name = true
  · refine .inl ⟨.alreadyDeclared name, ?_, ?_⟩
    · rw [Environment.declare, if_pos hname]
    · rw [Environment.declare, if_pos (hdeclares.trans hname)]
  · have hok : env.declare name kind v = .ok { env with scopes := env.scopes.modify env.current fun s =>
        { s with bindings := (name, ⟨kind, v⟩) :: s.bindings } } := by
      rw [Environment.declare, if_neg hname]
    have hok' : env'.declare name kind v' = .ok { env' with scopes := env'.scopes.modify env'.current fun s =>
        { s with bindings := (name, ⟨kind, v'⟩) :: s.bindings } } := by
      rw [Environment.declare, if_neg (hdeclares ▸ hname)]
    refine .inr ⟨_, _, hok, hok', ?_⟩
    have hcons (bs bs') (hbs : RenamedBindings owner env.pinned bs bs') :
        RenamedBindings owner env.pinned ((name, ⟨kind, v⟩) :: bs) ((name, ⟨kind, v'⟩) :: bs') := hbs.cons hv
    have hmodify := modify h h.current_lt hcons (Framed.declare hok) (by
      rw [← hcurrent]
      exact Framed.declare hok')
    rwa [← hcurrent] at hmodify

theorem set (h : Renames owner env env') {v v' : Value} (hv : v.Renamed owner env.pinned v') (name : String) :
    (∃ e, env.set name v = .error e ∧ env'.set name v' = .error e) ∨
      ∃ env₁ env₁', env.set name v = .ok env₁ ∧ env'.set name v' = .ok env₁' ∧
        Continues owner owner env env' env₁ env₁' := by
  have hresolve := h.resolve name
  cases hid : env.resolve name with
  | error e =>
    rw [hid] at hresolve
    refine .inl ⟨e, ?_, ?_⟩
    · rw [Environment.set, hid]
      rfl
    · rw [Environment.set, hresolve]
      rfl
  | ok id =>
    rw [hid] at hresolve
    have hok : env.set name v = .ok { env with scopes := env.scopes.modify id (·.setValue name v) } := by
      rw [Environment.set, hid]
      rfl
    have hok' : env'.set name v' = .ok { env' with scopes := env'.scopes.modify (owner id) (·.setValue name v') } := by
      rw [Environment.set, hresolve]
      rfl
    refine .inr ⟨_, _, hok, hok', ?_⟩
    have hset (bs bs') (hbs : RenamedBindings owner env.pinned bs bs') :
        RenamedBindings owner env.pinned (Scope.setValue ⟨bs, none⟩ name v).bindings
          (Scope.setValue ⟨bs', none⟩ name v').bindings := hbs.setValue hv
    exact modify h (h.lt_of_resolve hid) hset (Framed.set hok).declaring (Framed.set hok').declaring

theorem capture (h : Renames owner env env') (hcurrent : env'.current = owner env.current) :
    Continues owner owner env env' env.capture.2 env'.capture.2 where
  renames := h.capture hcurrent
  agrees _ _ := rfl
  idle _ _ hown := ⟨hown, rfl⟩
  pinned := Nat.le_max_left _ _
  frame := Framed.capture.declaring
  frame' := Framed.capture.declaring

theorem left (hrenames : Renames owner env env') {parent parent' : Nat}
    (h : Continues (Function.update owner env.scopes.size env'.scopes.size) owner' (env.enter parent)
      (env'.enter parent') env₁ env₁') :
    Continues owner owner' env env' (env₁.leave env.current) (env₁'.leave env'.current) := by
  have hsize : (env.enter parent).scopes.size = env.scopes.size + 1 := Array.size_push _
  have hsize' : (env'.enter parent').scopes.size = env'.scopes.size + 1 := Array.size_push _
  have hcurrent : env₁.current = env.scopes.size := h.frame.current
  have hcurrent' : env₁'.current = env'.scopes.size := h.frame'.current
  have hpinned : env.pinned ≤ env₁.pinned := h.pinned
  have hnew : owner' env.scopes.size = env'.scopes.size :=
    (h.agrees _ (by omega)).trans (Function.update_self _ _ _)
  have hold {id : Nat} (hid : id < env.scopes.size) : owner' id = owner id :=
    (h.agrees id (by omega)).trans (Function.update_of_ne (Nat.ne_of_lt hid) _ _)
  have hidle {i : Nat} (hi : i < env'.scopes.size) (hown : ∀ id < env.scopes.size, owner id ≠ i) :
      (∀ id < env₁.scopes.size, owner' id ≠ i) ∧ env₁'.scope i = env'.scope i := by
    have hown' : ∀ id < (env.enter parent).scopes.size,
        Function.update owner env.scopes.size env'.scopes.size id ≠ i := by
      intro id hid
      by_cases heq : id = env.scopes.size
      · rw [heq, Function.update_self]
        exact (Nat.ne_of_lt hi).symm
      · rw [Function.update_of_ne heq]
        exact hown id (by omega)
    obtain ⟨hown₁, hscope⟩ := h.idle i (by omega) hown'
    rw [scope_enter, if_neg (Nat.ne_of_lt hi)] at hscope
    exact ⟨hown₁, hscope⟩
  constructor
  case renames =>
    apply h.renames.leave
    · rw [hcurrent, hcurrent', hnew]
    · rw [hcurrent]
      exact hrenames.current_lt
    · rw [hcurrent']
      exact hrenames.current_lt'
    · have hbehind := hrenames.behind
      omega
    · rw [hold hrenames.current_lt]
      apply hrenames.current.congr
      intro i hi hlt hown
      obtain ⟨hown₁, hscope⟩ := hidle hlt hown
      have hsize₁ := h.frame'.size
      exact ⟨by omega, hown₁, hscope⟩
  case agrees => exact fun id hid => hold hid
  case idle =>
    intro i hi hown
    obtain ⟨hown₁, hscope⟩ := hidle hi hown
    have hi : i < (env₁'.leave env'.current).scopes.size := Nat.lt_of_lt_of_le hi h.frame'.leave.size
    exact ⟨fun id hid => hown₁ id (Nat.lt_of_lt_of_le hid size_leave_le), (scope_leave hi).trans hscope⟩
  case pinned =>
    rw [pinned_leave]
    exact hpinned
  case frame => exact h.frame.leave.declaring
  case frame' => exact h.frame'.leave.declaring

theorem left_right (hrenames : Renames owner env env') (h : Continues owner owner' env env'.push env₁ env₁') :
    Continues owner owner' env env' env₁ (env₁'.leave env'.current) := by
  have hsize' : env'.push.scopes.size = env'.scopes.size + 1 := Array.size_push _
  have hcurrent' : env₁'.current = env'.scopes.size := h.frame'.current
  have hidle {i : Nat} (hi : i < env'.scopes.size) (hown : ∀ id < env.scopes.size, owner id ≠ i) :
      (∀ id < env₁.scopes.size, owner' id ≠ i) ∧ env₁'.scope i = env'.scope i := by
    obtain ⟨hown₁, hscope⟩ := h.idle i (by omega) hown
    rw [push, scope_enter, if_neg (Nat.ne_of_lt hi)] at hscope
    exact ⟨hown₁, hscope⟩
  have hnew : ∀ id < env₁.scopes.size, owner' id ≠ env'.scopes.size :=
    (h.idle env'.scopes.size (by omega) fun id hid => Nat.ne_of_lt (hrenames.bound id hid)).1
  constructor
  case renames =>
    apply h.renames.leave_right
    · rw [hcurrent']
      exact hnew
    · rw [hcurrent']
      exact hrenames.current_lt'
    · rw [h.frame.current, h.agrees _ hrenames.current_lt]
      apply hrenames.current.congr
      intro i hi hlt hown
      obtain ⟨hown₁, hscope⟩ := hidle hlt hown
      have hsize₁ := h.frame'.size
      exact ⟨by omega, hown₁, hscope⟩
  case agrees => exact h.agrees
  case idle =>
    intro i hi hown
    obtain ⟨hown₁, hscope⟩ := hidle hi hown
    have hi : i < (env₁'.leave env'.current).scopes.size := Nat.lt_of_lt_of_le hi h.frame'.leave.size
    exact ⟨hown₁, (scope_leave hi).trans hscope⟩
  case pinned => exact h.pinned
  case frame => exact h.frame
  case frame' => exact h.frame'.leave.declaring

end Continues

end Environment

end Arbor
