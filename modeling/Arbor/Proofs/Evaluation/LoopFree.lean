import Arbor.Proofs.Agreement.Names
import Arbor.Proofs.Evaluation.Store

/-!
This module contains the trees without `while` and `for`, and the values and environments in which every function has
such a body. A function may outlive the tree that declares it, so the functions that are bound count as well.
-/

namespace Arbor

open Agreement (EachPart)

/--
A loop that goes on for as long as its condition holds. A loop over the elements of an array is none.
-/
def Stmt.isLoop : Stmt → Bool
  | .whileLoop .. | .forLoop .. => true
  | _ => false

def LoopFreeBody (body : List Stmt) : Prop :=
  EachPart (fun s => s.isLoop = false) body

instance (body : List Stmt) : Decidable (LoopFreeBody body) :=
  inferInstanceAs (Decidable (∀ s ∈ Stmt.partsOfAll body, s.isLoop = false))

theorem loopFreeBody_funcDecl {span : Span} {returns : TypeName} {name : String} {params : List Param}
    {body : List Stmt} (h : LoopFreeBody [.funcDecl span returns name params body]) : LoopFreeBody body := by
  unfold LoopFreeBody at h
  simp only [Agreement.eachPart_cons, Stmt.parts, List.forall_mem_cons] at h
  exact h.1.2

theorem loopFreeBody_cons {s : Stmt} {rest : List Stmt} (h : LoopFreeBody (s :: rest)) :
    LoopFreeBody [s] ∧ LoopFreeBody rest := by
  unfold LoopFreeBody at h ⊢
  rw [Agreement.eachPart_cons] at h
  exact ⟨Agreement.eachPart_cons.mpr ⟨h.1, Agreement.eachPart_nil⟩, h.2⟩

namespace Value

inductive LoopFree : Value → Prop where
  | int (n : Int32) : LoopFree (.int n)
  | float (x : Float) : LoopFree (.float x)
  | bool (b : Bool) : LoopFree (.bool b)
  | char (c : Char) : LoopFree (.char c)
  | text (s : String) : LoopFree (.text s)
  | array (elem : Kind) (items : List Value) : (∀ v ∈ items, LoopFree v) → LoopFree (.array elem items)
  | null : LoopFree .null
  | embedded (f : Embedded) : LoopFree (.function (.embedded f))
  | closure (f : Closure) : LoopFreeBody f.body → LoopFree (.function (.closure f))

theorem LoopFree.of_mem {elem : Kind} {items : List Value} (h : LoopFree (.array elem items)) {v : Value}
    (hv : v ∈ items) : v.LoopFree := by
  cases h with
  | array _ _ hitems => exact hitems v hv

theorem LoopFree.body {f : Closure} (h : LoopFree (.function (.closure f))) : LoopFreeBody f.body := by
  cases h with
  | closure _ hbody => exact hbody

theorem loopFree_of_kind {v : Value} {s : Scalar} (h : v.kind = .scalar s) : v.LoopFree := by
  cases v with
  | array elem items => simp [kind] at h
  | function f => simp [kind] at h
  | _ => constructor

theorem LoopFree.coerce {v w : Value} {k : Kind} (hv : v.LoopFree) (h : v.coerce k = .ok w) :
    w.LoopFree := by
  have hkind := kind_of_coerce h
  cases k with
  | scalar s => exact loopFree_of_kind hkind
  | array elem => exact coerce_array h ▸ hv
  | null | function => simp [Value.coerce] at h

theorem loopFree_zero (k : Kind) : (zero k).LoopFree := by
  cases k with
  | scalar s => exact loopFree_of_kind (kind_zeroScalar s)
  | array elem => exact .array _ _ (by simp)
  | null | function => exact .null

theorem loopFree_toValue (n : Number) : n.toValue.LoopFree := by
  cases n <;> constructor

theorem loopFree_binary {op : BinaryOp} {v w u : Value} (h : v.binary op w = .ok u) : u.LoopFree := by
  unfold binary at h
  dsimp only at h
  split at h
  all_goals
    repeat' split at h
    all_goals first
      | (cases h; constructor)
      | cases h
      | (rename_i a b _ _
         cases harith : arith _ a b with
         | error e => rw [harith] at h; cases h
         | ok n => rw [harith] at h; cases h; exact loopFree_toValue n)

theorem loopFree_unary {op : UnaryOp} {v u : Value} (h : v.unary op = .ok u) : u.LoopFree := by
  unfold unary at h
  split at h <;> cases h <;> constructor

theorem loopFree_step {op : StepOp} {v u : Value} (h : v.step op = .ok u) : u.LoopFree := by
  unfold step at h
  split at h <;> cases h <;> constructor

end Value

def Environment.LoopFree (env : Environment) : Prop :=
  ∀ s ∈ env.scopes, ∀ entry ∈ s.bindings, entry.2.value.LoopFree

namespace Environment.LoopFree

variable {env env' : Environment} {name : String} {v : Value}

theorem scope (h : env.LoopFree) (id : Nat) :
    ∀ entry ∈ (env.scope id).bindings, entry.2.value.LoopFree := by
  unfold Environment.scope
  rw [Array.getD_eq_getD_getElem?]
  cases hid : env.scopes[id]? with
  | none => simp
  | some s => exact h s (Array.mem_of_getElem? hid)

theorem modify (h : env.LoopFree) {id : Nat} {f : Scope → Scope}
    (hf : ∀ entry ∈ (f (env.scope id)).bindings, entry.2.value.LoopFree) :
    LoopFree { env with scopes := env.scopes.modify id f } := by
  intro s hs
  obtain ⟨i, hi, rfl⟩ := Array.mem_iff_getElem.mp hs
  simp only [Array.size_modify] at hi
  rw [Array.getElem_modify]
  split
  · next heq =>
    subst heq
    have hscope : env.scope id = env.scopes[id] := by
      simp [Environment.scope, hi]
    rw [← hscope]
    exact hf
  · exact h _ (Array.getElem_mem _)

theorem get (h : env.LoopFree) {b : Binding} (hget : env.get name = .ok b) : b.value.LoopFree := by
  obtain ⟨id, -, hfind⟩ := resolve_of_get hget
  exact h.scope id _ (Scope.mem_of_find? hfind)

theorem set (h : env.LoopFree) (hv : v.LoopFree) (hset : env.set name v = .ok env') : env'.LoopFree := by
  unfold Environment.set at hset
  cases hid : env.resolve name with
  | error e => simp [hid, Except.map] at hset
  | ok id =>
    simp only [hid, Except.map, Except.ok.injEq] at hset
    rw [← hset]
    apply h.modify
    intro entry hentry
    unfold Scope.setValue at hentry
    obtain ⟨⟨key, b⟩, hmem, rfl⟩ := List.mem_map.mp hentry
    dsimp only
    split
    · exact hv
    · exact h.scope id _ hmem

theorem declare (h : env.LoopFree) {kind : Kind} (hv : v.LoopFree)
    (hdeclare : env.declare name kind v = .ok env') : env'.LoopFree := by
  unfold Environment.declare at hdeclare
  split at hdeclare
  · cases hdeclare
  · cases hdeclare
    apply h.modify
    exact List.forall_mem_cons.mpr ⟨hv, h.scope env.current⟩

theorem enter (h : env.LoopFree) (parent : Nat) : (env.enter parent).LoopFree := by
  intro s hs
  simp only [Environment.enter, Array.mem_push] at hs
  rcases hs with hs | rfl
  · exact h s hs
  · simp

theorem leave (h : env.LoopFree) (target : Nat) : (env.leave target).LoopFree := by
  unfold Environment.leave
  split
  · intro s hs
    rw [← Array.mem_toList_iff, Array.toList_pop] at hs
    exact h s (Array.mem_toList_iff.mp (List.dropLast_subset _ hs))
  · exact h

theorem push (h : env.LoopFree) : env.push.LoopFree :=
  h.enter _

theorem pop (h : env.LoopFree) : env.pop.LoopFree := by
  unfold Environment.pop
  split
  · exact h
  · exact h.leave _

theorem capture (h : env.LoopFree) : env.capture.2.LoopFree :=
  h

end Environment.LoopFree

end Arbor
