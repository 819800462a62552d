import Arbor.Proofs.Value.WellKinded

/-!
This module contains the environments that bind every name to null or to a well-kinded value of its declared
kind, and shows that every operation on environments keeps them so.
-/

namespace Arbor

def Binding.WellKinded (b : Binding) : Prop :=
  (b.value = .null ∨ b.value.kind = b.kind) ∧ b.value.WellKinded

structure Scope.WellKinded (s : Scope) : Prop where
  nodup : (s.bindings.map Prod.fst).Nodup
  bindings : ∀ entry ∈ s.bindings, entry.2.WellKinded

def Environment.WellKinded (env : Environment) : Prop :=
  ∀ s ∈ env.scopes, s.WellKinded

theorem Binding.WellKinded.of_coerce {v w : Value} {k : Kind} (hv : v.WellKinded)
    (h : v.coerce k = .ok w) : Binding.WellKinded ⟨k, w⟩ :=
  ⟨Or.inr (Value.kind_of_coerce h), hv.coerce h⟩

theorem Binding.WellKinded.of_kind {v : Value} (hv : v.WellKinded) : Binding.WellKinded ⟨v.kind, v⟩ :=
  ⟨Or.inr rfl, hv⟩

theorem Binding.wellKinded_null (k : Kind) : Binding.WellKinded ⟨k, .null⟩ :=
  ⟨Or.inl rfl, .null⟩

namespace Scope

theorem mem_of_find? {s : Scope} {name : String} {b : Binding} (h : s.find? name = some b) :
    (name, b) ∈ s.bindings := by
  unfold find? at h
  rw [List.lookup_eq_some_iff] at h
  obtain ⟨l₁, l₂, h, -⟩ := h
  rw [h]
  simp

theorem find?_of_mem {s : Scope} (hs : s.WellKinded) {name : String} {b : Binding}
    (h : (name, b) ∈ s.bindings) : s.find? name = some b := by
  have hnodup := hs.nodup
  unfold find?
  revert h hnodup
  induction s.bindings with
  | nil => simp
  | cons entry rest ih =>
    intro h hnodup
    simp only [List.map_cons, List.nodup_cons] at hnodup
    rw [List.lookup_cons]
    rcases List.mem_cons.mp h with h | h
    · simp [← h]
    · have hne : name ≠ entry.1 := by
        intro heq
        apply hnodup.1
        rw [← heq]
        exact List.mem_map_of_mem h
      rw [beq_false_of_ne hne]
      exact ih h hnodup.2

theorem not_mem_of_not_declares {s : Scope} {name : String} (h : s.declares name = false) :
    name ∉ s.bindings.map Prod.fst := by
  unfold declares find? at h
  simp only [Option.isSome_eq_false_iff, Option.isNone_iff_eq_none, List.lookup_eq_none_iff] at h
  intro hmem
  obtain ⟨entry, hentry, heq⟩ := List.mem_map.mp hmem
  have := h entry hentry
  simp [heq] at this

theorem names_setValue (s : Scope) (name : String) (v : Value) :
    (s.setValue name v).bindings.map Prod.fst = s.bindings.map Prod.fst := by
  unfold setValue
  rw [List.map_map]
  apply List.map_congr_left
  intro entry _
  dsimp only [Function.comp]
  split <;> rfl

theorem WellKinded.empty (parent : Option Nat) : WellKinded ⟨[], parent⟩ :=
  ⟨List.nodup_nil, by simp⟩

theorem WellKinded.cons {s : Scope} (hs : s.WellKinded) {name : String} {b : Binding}
    (hname : s.declares name = false) (hb : b.WellKinded) :
    WellKinded { s with bindings := (name, b) :: s.bindings } := by
  constructor
  · rw [List.map_cons, List.nodup_cons]
    exact ⟨not_mem_of_not_declares hname, hs.nodup⟩
  · intro entry hentry
    rcases List.mem_cons.mp hentry with rfl | hentry
    · exact hb
    · exact hs.bindings entry hentry

theorem WellKinded.setValue {s : Scope} (hs : s.WellKinded) {name : String} {v : Value}
    (hv : ∀ b, s.find? name = some b → Binding.WellKinded { b with value := v }) :
    (s.setValue name v).WellKinded := by
  constructor
  · rw [names_setValue]
    exact hs.nodup
  · intro entry hentry
    unfold Scope.setValue at hentry
    obtain ⟨⟨key, b⟩, hmem, rfl⟩ := List.mem_map.mp hentry
    dsimp only
    split
    · next hkey =>
      have hkey : key = name := by simpa using hkey
      rw [hkey] at hmem
      exact hv b (find?_of_mem hs hmem)
    · exact hs.bindings _ hmem

end Scope

namespace Environment

theorem WellKinded.scope {env : Environment} (h : env.WellKinded) (id : Nat) :
    (env.scope id).WellKinded := by
  unfold Environment.scope
  rw [Array.getD_eq_getD_getElem?]
  cases hid : env.scopes[id]? with
  | none => exact Scope.WellKinded.empty none
  | some s => exact h s (Array.mem_of_getElem? hid)

theorem WellKinded.modify {env : Environment} (h : env.WellKinded) {id : Nat} {f : Scope → Scope}
    (hf : (env.scope id).WellKinded → (f (env.scope id)).WellKinded) :
    WellKinded { env with scopes := env.scopes.modify id f } := by
  intro s hs
  obtain ⟨i, hi, rfl⟩ := Array.mem_iff_getElem.mp hs
  simp only [Array.size_modify] at hi
  rw [Array.getElem_modify]
  split
  · next heq =>
    subst heq
    have hscope : env.scope id = env.scopes[id] := by
      simp [Environment.scope, hi]
    rw [← hscope]
    exact hf (h.scope id)
  · exact h _ (Array.getElem_mem _)

theorem resolve_of_get {env : Environment} {name : String} {b : Binding}
    (h : env.get name = .ok b) :
    ∃ id, env.resolve name = .ok id ∧ (env.scope id).find? name = some b := by
  unfold get at h
  unfold resolve
  revert h
  induction env.chain env.current with
  | nil => simp
  | cons id rest ih =>
    rw [List.findSome?_cons, List.find?_cons]
    unfold Scope.declares
    cases hfind : (env.scope id).find? name with
    | none => exact ih
    | some c =>
      intro h
      cases h
      exact ⟨id, rfl, hfind⟩

theorem get_of_resolve {env : Environment} {name : String} {id : Nat}
    (h : env.resolve name = .ok id) :
    ∃ b, env.get name = .ok b ∧ (env.scope id).find? name = some b := by
  unfold resolve at h
  unfold get
  revert h
  induction env.chain env.current with
  | nil => simp
  | cons id rest ih =>
    rw [List.findSome?_cons, List.find?_cons]
    unfold Scope.declares
    cases hfind : (env.scope id).find? name with
    | none => exact ih
    | some c =>
      intro h
      cases h
      exact ⟨c, rfl, hfind⟩

theorem WellKinded.get {env : Environment} (h : env.WellKinded) {name : String} {b : Binding}
    (hget : env.get name = .ok b) : b.WellKinded := by
  obtain ⟨id, -, hfind⟩ := resolve_of_get hget
  exact (h.scope id).bindings _ (Scope.mem_of_find? hfind)

theorem WellKinded.set {env env' : Environment} (h : env.WellKinded) {name : String} {v : Value}
    (hv : ∀ b, env.get name = .ok b → Binding.WellKinded { b with value := v })
    (hset : env.set name v = .ok env') : env'.WellKinded := by
  unfold Environment.set at hset
  cases hid : env.resolve name with
  | error e => simp [hid, Except.map] at hset
  | ok id =>
    simp only [hid, Except.map, Except.ok.injEq] at hset
    rw [← hset]
    apply h.modify
    intro hs
    apply hs.setValue
    intro b hb
    obtain ⟨c, hget, hc⟩ := get_of_resolve hid
    rw [hb] at hc
    cases hc
    exact hv b hget

theorem WellKinded.declare {env env' : Environment} (h : env.WellKinded) {name : String}
    {kind : Kind} {v : Value} (hb : Binding.WellKinded ⟨kind, v⟩)
    (hdeclare : env.declare name kind v = .ok env') : env'.WellKinded := by
  unfold Environment.declare at hdeclare
  split at hdeclare
  · cases hdeclare
  · next hname =>
    cases hdeclare
    apply h.modify
    intro hs
    exact hs.cons (by simpa using hname) hb

theorem WellKinded.enter {env : Environment} (h : env.WellKinded) (parent : Nat) :
    (env.enter parent).WellKinded := by
  intro s hs
  simp only [Environment.enter, Array.mem_push] at hs
  rcases hs with hs | rfl
  · exact h s hs
  · exact Scope.WellKinded.empty _

theorem WellKinded.leave {env : Environment} (h : env.WellKinded) (target : Nat) :
    (env.leave target).WellKinded := by
  unfold Environment.leave
  split
  · intro s hs
    rw [← Array.mem_toList_iff, Array.toList_pop] at hs
    exact h s (Array.mem_toList_iff.mp (List.dropLast_subset _ hs))
  · exact h

theorem WellKinded.push {env : Environment} (h : env.WellKinded) : env.push.WellKinded :=
  h.enter _

theorem WellKinded.pop {env : Environment} (h : env.WellKinded) : env.pop.WellKinded := by
  unfold Environment.pop
  split
  · exact h
  · exact h.leave _

theorem WellKinded.capture {env : Environment} (h : env.WellKinded) : env.capture.2.WellKinded :=
  h

end Environment

end Arbor
