import Arbor.Proofs.Evaluation.Stack
import Arbor.Proofs.Lowering.Frame

/-!
This module contains the agreement of a frame with the scopes of a running program: the named slots of the frame are
the bindings of the scopes. Which names a program may give, and what is to hold of a slot and its binding and of the
slots without a name, is left open; the last two may depend on how many slots are below.
-/

namespace Arbor.Agreement

open Lowering Assembly

/--
A name that a program can write. The slots that a loop over an array keeps for itself have other names.
-/
def Plain (name : String) : Prop :=
  name.toList.head? ≠ some '#'

instance : DecidablePred Plain :=
  fun _ => instDecidableNot

structure Declarable (visible : String → Prop) (name : String) : Prop where
  visible : visible name
  free : Environment.embedded.lookup name = none

structure IsWord (d : Nat) (slot : Slot) : Prop where
  depth : slot.depth = d
  size : slot.size = wordBytes

/--
Slots with a depth model a stack of scopes. The scope that a loop over an array opens for itself is none of the
program, and its slots have names that no program may give.
-/
inductive Models (visible : String → Prop) (named : Nat → Slot → Binding → Prop) (temp : Nat → Prop) :
    List Slot → Nat → List (List (String × Binding)) → Prop where
  | base : Models visible named temp [] 0 [[]]
  | temp {slots : List Slot} {d : Nat} {stack : List (List (String × Binding))} {slot : Slot} :
    Models visible named temp slots d stack → IsWord d slot → slot.name = none → temp slots.length →
    Models visible named temp (slot :: slots) d stack
  | named {slots : List Slot} {d : Nat} {own : List (String × Binding)}
      {outer : List (List (String × Binding))} {slot : Slot} {name : String} {b : Binding} :
    Models visible named temp slots d (own :: outer) → IsWord d slot → slot.name = some name →
    Declarable visible name → own.lookup name = none → named slots.length slot b →
    Models visible named temp (slot :: slots) d (((name, b) :: own) :: outer)
  | opened {slots : List Slot} {d : Nat} {stack : List (List (String × Binding))} :
    Models visible named temp slots d stack → Models visible named temp slots (d + 1) ([] :: stack)
  | hidden {slots : List Slot} {d : Nat} {stack : List (List (String × Binding))} {base idx : Slot} :
    Models visible named temp slots d stack → ¬visible "#base" → ¬visible "#idx" →
    IsWord (d + 1) base → base.name = some "#base" →
    IsWord (d + 1) idx → idx.name = some "#idx" →
    Models visible named temp (idx :: base :: slots) (d + 2) ([] :: stack)

theorem not_plain_base : ¬Plain "#base" := by
  decide

theorem not_plain_idx : ¬Plain "#idx" := by
  decide

/-! Bindings -/

section Bindings

open Environment

variable {name other : String} {own : List (String × Binding)} {v : Value}

theorem setOwn_of_lookup_none (h : own.lookup name = none) : setOwn name v own = own := by
  have : (⟨[] ++ own, none⟩ : Scope).setValue name v = ⟨setOwn name v [] ++ own, none⟩ :=
    setValue_append h
  simpa [setOwn, Scope.setValue] using this

theorem setOwn_cons {b : Binding} :
    setOwn name v ((name, b) :: own) = (name, { b with value := v }) :: setOwn name v own := by
  simp [setOwn, Scope.setValue]

theorem setOwn_cons_of_ne {b : Binding} (h : other ≠ name) :
    setOwn name v ((other, b) :: own) = (other, b) :: setOwn name v own := by
  simp [setOwn, Scope.setValue, h]

theorem lookup_setOwn_eq_none (h : own.lookup other = none) :
    (setOwn name v own).lookup other = none := by
  induction own with
  | nil => rfl
  | cons entry rest ih =>
    obtain ⟨key, b⟩ := entry
    rw [List.lookup_cons] at h
    cases hkey : other == key with
    | true => simp [hkey] at h
    | false =>
      have hrest : rest.lookup other = none := by simpa [hkey] using h
      by_cases hname : key = name
      · subst hname
        rw [setOwn_cons, List.lookup_cons, hkey]
        exact ih hrest
      · rw [setOwn_cons_of_ne hname, List.lookup_cons, hkey]
        exact ih hrest

theorem lookup_cons_of_ne {b : Binding} (h : name ≠ other) :
    List.lookup name ((other, b) :: own) = own.lookup name := by
  have hkey : (name == other) = false := by simpa using h
  rw [List.lookup_cons, hkey]

end Bindings

namespace Models

variable {visible : String → Prop} {named named' : Nat → Slot → Binding → Prop} {temp temp' : Nat → Prop}
  {slots added : List Slot} {d : Nat} {stack : List (List (String × Binding))} {name : String}

theorem stack_eq_cons (h : Models visible named temp slots d stack) : ∃ own outer, stack = own :: outer := by
  induction h with
  | temp _ _ _ _ ih => exact ih
  | _ => exact ⟨_, _, rfl⟩

theorem depth_le (h : Models visible named temp slots d stack) : ∀ s ∈ slots, s.depth ≤ d := by
  induction h with
  | base => simp
  | temp _ hword _ _ ih =>
    rw [List.forall_mem_cons]
    exact ⟨Nat.le_of_eq hword.depth, ih⟩
  | named _ hword _ _ _ _ ih =>
    rw [List.forall_mem_cons]
    exact ⟨Nat.le_of_eq hword.depth, ih⟩
  | opened _ ih => exact fun s hs => Nat.le_succ_of_le (ih s hs)
  | hidden _ _ _ hbase _ hidx _ ih =>
    rw [List.forall_mem_cons, List.forall_mem_cons]
    have hbase := hbase.depth
    have hidx := hidx.depth
    refine ⟨by omega, by omega, fun s hs => ?_⟩
    have := ih s hs
    omega

theorem totalSize_eq (h : Models visible named temp slots d stack) :
    totalSize slots = wordBytes * slots.length := by
  induction h with
  | base => rfl
  | temp _ hword _ _ ih | named _ hword _ _ _ _ ih =>
    rw [totalSize, hword.size, ih, List.length_cons]
    unfold wordBytes
    omega
  | opened _ ih => exact ih
  | hidden _ _ _ hbase _ hidx _ ih =>
    rw [totalSize, totalSize, hidx.size, hbase.size, ih, List.length_cons, List.length_cons]
    unfold wordBytes
    omega

/--
The newest slot of the current scope is none that a loop keeps for itself.
-/
theorem visible_of_depth {slot : Slot} (h : Models visible named temp (slot :: slots) d stack)
    (hdepth : slot.depth = d) (hname : slot.name = some name) : visible name := by
  cases h with
  | temp _ _ hnone => simp [hnone] at hname
  | named _ _ hsome hvisible =>
    rw [hsome] at hname
    cases hname
    exact hvisible.visible
  | opened h =>
    have := h.depth_le slot List.mem_cons_self
    omega
  | hidden _ _ _ _ _ hidx =>
    have := hidx.depth
    omega

theorem of_temp {slot : Slot} (h : Models visible named temp (slot :: slots) d stack) (hdepth : slot.depth = d)
    (hname : slot.name = none) : Models visible named temp slots d stack ∧ temp slots.length := by
  cases h with
  | temp h _ _ ht => exact ⟨h, ht⟩
  | named _ _ hsome => simp [hname] at hsome
  | opened h =>
    have := h.depth_le slot List.mem_cons_self
    omega
  | hidden _ _ _ _ _ _ hsome => simp [hname] at hsome

theorem mono (h : Models visible named temp slots d stack)
    (hnamed : ∀ n < slots.length, ∀ slot b, named n slot b → named' n slot b)
    (htemp : ∀ n < slots.length, temp n → temp' n) : Models visible named' temp' slots d stack := by
  induction h with
  | base => exact .base
  | temp _ hword hname ht ih =>
    refine .temp (ih ?_ ?_) hword hname (htemp _ (by simp) ht)
    · exact fun n hn => hnamed n (Nat.lt_succ_of_lt hn)
    · exact fun n hn => htemp n (Nat.lt_succ_of_lt hn)
  | named _ hword hname hvisible hown hb ih =>
    refine .named (ih ?_ ?_) hword hname hvisible hown (hnamed _ (by simp) _ _ hb)
    · exact fun n hn => hnamed n (Nat.lt_succ_of_lt hn)
    · exact fun n hn => htemp n (Nat.lt_succ_of_lt hn)
  | opened _ ih => exact .opened (ih hnamed htemp)
  | hidden _ hnobase hnoidx hbase hbname hidx hiname ih =>
    refine .hidden (ih ?_ ?_) hnobase hnoidx hbase hbname hidx hiname
    · exact fun n hn => hnamed n (Nat.lt_succ_of_lt (Nat.lt_succ_of_lt hn))
    · exact fun n hn => htemp n (Nat.lt_succ_of_lt (Nat.lt_succ_of_lt hn))

/-! Names -/

theorem find_embedded (h : Models visible named temp slots d stack) {b : Binding}
    (hb : Environment.embedded.lookup name = some b) : Environment.find name stack = some b := by
  induction h with
  | base => simpa [Environment.find] using hb
  | temp _ _ _ _ ih => exact ih
  | @named _ _ own outer _ other _ _ _ _ hvisible _ _ ih =>
    have hne : name ≠ other := by
      rintro rfl
      simp [hvisible.free] at hb
    rw [Environment.find, lookup_cons_of_ne hne]
    exact ih
  | opened _ ih | hidden _ _ _ _ _ _ _ ih => simpa [Environment.find] using ih

theorem lookup_of_isDeclared (h : Models visible named temp slots d stack)
    (hname : (slots.takeWhile fun s => s.depth == d).any (·.isNamed name) = false)
    {own : List (String × Binding)} {outer : List (List (String × Binding))}
    (hstack : stack = own :: outer) : own.lookup name = none := by
  induction h generalizing own outer with
  | base =>
    cases hstack
    rfl
  | temp _ hword hnone _ ih =>
    rw [List.takeWhile_cons_of_pos (by simp [hword.depth]), List.any_cons] at hname
    exact ih (by simpa [Slot.isNamed, hnone] using hname) hstack
  | @named _ _ _ _ _ other _ _ hword hsome _ _ _ ih =>
    cases hstack
    rw [List.takeWhile_cons_of_pos (by simp [hword.depth]), List.any_cons, Bool.or_eq_false_iff]
      at hname
    obtain ⟨hne, hrest⟩ := hname
    have hne : name ≠ other := by
      rintro rfl
      simp [Slot.isNamed, hsome] at hne
    rw [lookup_cons_of_ne hne]
    exact ih hrest rfl
  | opened | hidden =>
    cases hstack
    rfl

/--
The binding that a slot stands for, and what is left when it gets another value. The number of slots below the
slot is all that the distance from the newest slot depends on.
-/
structure Located (visible : String → Prop) (named : Nat → Slot → Binding → Prop) (temp : Nat → Prop)
    (slots : List Slot) (d : Nat) (stack : List (List (String × Binding))) (name : String) (n : Nat)
    (slot : Slot) (b : Binding) : Prop where
  lt : n < slots.length
  find : Environment.find name stack = some b
  free : Environment.embedded.lookup name = none
  holds : named n slot b
  assign : ∀ {named' : Nat → Slot → Binding → Prop} {temp' : Nat → Prop} {v : Value},
    (∀ k, k ≠ n → ∀ s b, named k s b → named' k s b) → (∀ k, k ≠ n → temp k → temp' k) →
    named' n slot { b with value := v } →
    Models visible named' temp' slots d (Environment.assign name v stack)

namespace Located

variable {top base idx slot : Slot} {b b' : Binding} {own : List (String × Binding)}
  {outer : List (List (String × Binding))} {other : String} {n : Nat}

theorem below_temp (h : Located visible named temp slots d stack name n slot b) (hword : IsWord d top)
    (hnone : top.name = none) (ht : temp slots.length) :
    Located visible named temp (top :: slots) d stack name n slot b where
  lt := Nat.lt_succ_of_lt h.lt
  find := h.find
  free := h.free
  holds := h.holds
  assign hnamed htemp hb := .temp (h.assign hnamed htemp hb) hword hnone (htemp _ (Nat.ne_of_gt h.lt) ht)

theorem newest (h : Models visible named temp slots d (own :: outer)) (hword : IsWord d slot)
    (hsome : slot.name = some name) (hvisible : Declarable visible name) (hown : own.lookup name = none)
    (hb : named slots.length slot b) :
    Located visible named temp (slot :: slots) d (((name, b) :: own) :: outer) name slots.length slot b := by
  refine ⟨Nat.lt_succ_self _, by simp [Environment.find], hvisible.free, hb, ?_⟩
  intro named' temp' v hnamed htemp hb
  have hassign : Environment.assign name v (((name, b) :: own) :: outer) =
      ((name, { b with value := v }) :: own) :: outer := by
    simp [Environment.assign, setOwn_cons, setOwn_of_lookup_none hown]
  rw [hassign]
  apply Models.named _ hword hsome hvisible hown hb
  exact h.mono (fun k hk => hnamed k (Nat.ne_of_lt hk)) (fun k hk => htemp k (Nat.ne_of_lt hk))

theorem below_named (h : Located visible named temp slots d (own :: outer) name n slot b) (hword : IsWord d top)
    (hsome : top.name = some other) (hvisible : Declarable visible other) (hown : own.lookup other = none)
    (hb : named slots.length top b') (hother : name ≠ other) :
    Located visible named temp (top :: slots) d (((other, b') :: own) :: outer) name n slot b := by
  refine ⟨Nat.lt_succ_of_lt h.lt, ?_, h.free, h.holds, ?_⟩
  · have hfind := h.find
    rw [Environment.find] at hfind ⊢
    rwa [lookup_cons_of_ne hother]
  · intro named' temp' v hnamed htemp hslot
    have hrest := h.assign hnamed htemp hslot
    rw [Environment.assign] at hrest ⊢
    rw [lookup_cons_of_ne hother]
    have hb := hnamed slots.length (Nat.ne_of_gt h.lt) top b' hb
    cases hlookup : (own.lookup name).isSome with
    | true =>
      rw [hlookup, if_pos rfl] at hrest
      rw [if_pos rfl, setOwn_cons_of_ne (Ne.symm hother)]
      exact .named hrest hword hsome hvisible (lookup_setOwn_eq_none hown) hb
    | false =>
      rw [hlookup, if_neg (by decide)] at hrest
      rw [if_neg (by decide)]
      exact .named hrest hword hsome hvisible hown hb

theorem below_opened (h : Located visible named temp slots d stack name n slot b) :
    Located visible named temp slots (d + 1) ([] :: stack) name n slot b where
  lt := h.lt
  find := by simpa [Environment.find] using h.find
  free := h.free
  holds := h.holds
  assign hnamed htemp hb := .opened (h.assign hnamed htemp hb)

theorem below_hidden (h : Located visible named temp slots d stack name n slot b) (hnobase : ¬visible "#base")
    (hnoidx : ¬visible "#idx") (hbase : IsWord (d + 1) base) (hbname : base.name = some "#base")
    (hidx : IsWord (d + 1) idx) (hiname : idx.name = some "#idx") :
    Located visible named temp (idx :: base :: slots) (d + 2) ([] :: stack) name n slot b where
  lt := Nat.lt_succ_of_lt (Nat.lt_succ_of_lt h.lt)
  find := by simpa [Environment.find] using h.find
  free := h.free
  holds := h.holds
  assign hnamed htemp hb := .hidden (h.assign hnamed htemp hb) hnobase hnoidx hbase hbname hidx hiname

end Located

theorem isNamed_eq_false {slot : Slot} {other : String} (hsome : slot.name = some other) (hother : name ≠ other) :
    slot.isNamed name = false := by
  simpa [Slot.isNamed, hsome] using Ne.symm hother

theorem located_of_go (h : Models visible named temp slots d stack) (hname : visible name)
    {offset found : Int} {slot : Slot}
    (hgo : Frame.resolve?.go name offset slots = some (found, slot)) :
    ∃ n b, Located visible named temp slots d stack name n slot b ∧
      found + wordBytes * (n + 1) = offset + wordBytes * slots.length := by
  induction h generalizing offset with
  | base => simp [Frame.resolve?.go] at hgo
  | @temp slots d stack top _ hword hnone ht ih =>
    have hskip : top.isNamed name = false := by simp [Slot.isNamed, hnone]
    rw [Frame.resolve?.go, hskip] at hgo
    obtain ⟨n, b, hfound, hoffset⟩ := ih hgo
    refine ⟨n, b, hfound.below_temp hword hnone ht, ?_⟩
    rw [hword.size] at hoffset
    rw [List.length_cons]
    unfold wordBytes at hoffset ⊢
    omega
  | @named slots d own outer top other b' h hword hsome hvisible hown hb' ih =>
    by_cases hother : name = other
    · subst hother
      have hmatch : top.isNamed name = true := by simp [Slot.isNamed, hsome]
      rw [Frame.resolve?.go, hmatch] at hgo
      cases hgo
      refine ⟨slots.length, b', .newest h hword hsome hvisible hown hb', ?_⟩
      rw [List.length_cons]
      push_cast
      rfl
    · rw [Frame.resolve?.go, isNamed_eq_false hsome hother] at hgo
      obtain ⟨n, b, hfound, hoffset⟩ := ih hgo
      refine ⟨n, b, hfound.below_named hword hsome hvisible hown hb' hother, ?_⟩
      rw [hword.size] at hoffset
      rw [List.length_cons]
      unfold wordBytes at hoffset ⊢
      omega
  | opened _ ih =>
    obtain ⟨n, b, hfound, hoffset⟩ := ih hgo
    exact ⟨n, b, hfound.below_opened, hoffset⟩
  | @hidden slots d stack base idx _ hnobase hnoidx hbase hbname hidx hiname ih =>
    have hne₁ : name ≠ "#idx" := fun heq => hnoidx (heq ▸ hname)
    have hne₂ : name ≠ "#base" := fun heq => hnobase (heq ▸ hname)
    rw [Frame.resolve?.go, isNamed_eq_false hiname hne₁, if_neg (by decide), Frame.resolve?.go,
      isNamed_eq_false hbname hne₂] at hgo
    obtain ⟨n, b, hfound, hoffset⟩ := ih hgo
    refine ⟨n, b, hfound.below_hidden hnobase hnoidx hbase hbname hidx hiname, ?_⟩
    rw [hbase.size, hidx.size] at hoffset
    simp only [List.length_cons]
    unfold wordBytes at hoffset ⊢
    omega

/-! Leaving scopes -/

theorem inner (h : Models visible named temp (added ++ slots) (d + 1) stack)
    (hadded : ∀ s ∈ added, s.depth = d + 1) (hslots : ∀ s ∈ slots, s.depth ≤ d)
    (hvisible : ∀ s ∈ slots.head?, s.depth = d → ∀ name, s.name = some name → visible name) :
    ∃ own outer, stack = own :: outer ∧ Models visible named temp slots d outer := by
  induction added generalizing stack with
  | nil =>
    rw [List.nil_append] at h
    cases h with
    | temp _ hword =>
      have := hslots _ List.mem_cons_self
      have := hword.depth
      omega
    | named _ hword =>
      have := hslots _ List.mem_cons_self
      have := hword.depth
      omega
    | opened h => exact ⟨_, _, rfl, h⟩
    | hidden _ _ hnoidx _ _ hidx hiname => exact (hnoidx (hvisible _ rfl hidx.depth _ hiname)).elim
  | cons top added ih =>
    rw [List.forall_mem_cons] at hadded
    rw [List.cons_append] at h
    generalize hrest : added ++ slots = rest at h ih
    cases h with
    | temp h => exact ih h hadded.2
    | named h =>
      obtain ⟨_, _, heq, h⟩ := ih h hadded.2
      cases heq
      exact ⟨_, _, rfl, h⟩
    | opened h =>
      have := h.depth_le top List.mem_cons_self
      omega
    | hidden _ _ _ _ _ hidx =>
      have := hidx.depth
      omega

theorem closeScope {f g : Frame} {added : List Slot} (h : Models visible named temp g.slots g.depth stack)
    (hfg : f.openScope.Extends g added) {named₀ : Nat → Slot → Binding → Prop} {temp₀ : Nat → Prop}
    {stack₀ : List (List (String × Binding))} (h₀ : Models visible named₀ temp₀ f.slots f.depth stack₀) :
    ∃ own outer, stack = own :: outer ∧ Models visible named temp f.slots f.depth outer := by
  rw [hfg.slots, hfg.depth] at h
  apply h.inner hfg.scope h₀.depth_le
  intro s hs hdepth name hname
  change s ∈ f.slots.head? at hs
  cases hslots : f.slots with
  | nil => simp [hslots] at hs
  | cons top rest =>
    rw [hslots] at hs h₀
    cases hs
    exact h₀.visible_of_depth hdepth hname

theorem closeEach {slot idx base : Slot} (h : Models visible named temp (slot :: idx :: base :: slots) (d + 2) stack)
    (hslot : slot.depth = d + 2) (hsome : slot.name ≠ none) (hidx : idx.depth = d + 1)
    (hname : idx.name = some "#idx") (hnoidx : ¬visible "#idx") :
    ∃ own outer, stack = own :: outer ∧ Models visible named temp slots d outer := by
  cases h with
  | temp _ _ hnone => exact (hsome hnone).elim
  | opened h =>
    have := h.depth_le slot List.mem_cons_self
    omega
  | hidden _ _ _ _ _ hword =>
    have := hword.depth
    omega
  | named h =>
    cases h with
    | temp _ hword =>
      have := hword.depth
      omega
    | named _ hword =>
      have := hword.depth
      omega
    | opened h => exact (hnoidx (h.visible_of_depth hidx hname)).elim
    | hidden h => exact ⟨_, _, rfl, h⟩

end Models

/-! Environments -/

def Bound (visible : String → Prop) (named : Nat → Slot → Binding → Prop) (temp : Nat → Prop) (f : Frame)
    (env : Environment) : Prop :=
  ∃ stack, env.Stack stack ∧ Models visible named temp f.slots f.depth stack

structure Found (visible : String → Prop) (named : Nat → Slot → Binding → Prop) (temp : Nat → Prop)
    (f : Frame) (env : Environment) (name : String) (n : Nat) (slot : Slot) (b : Binding) : Prop where
  lt : n < f.slots.length
  get : env.get name = .ok b
  holds : named n slot b
  set : ∀ {named' : Nat → Slot → Binding → Prop} {temp' : Nat → Prop} {v : Value},
    (∀ k, k ≠ n → ∀ s b, named k s b → named' k s b) → (∀ k, k ≠ n → temp k → temp' k) →
    named' n slot { b with value := v } →
    ∃ env', env.set name v = .ok env' ∧ Bound visible named' temp' f env'

namespace Bound

variable {visible : String → Prop} {named named' : Nat → Slot → Binding → Prop} {temp temp' : Nat → Prop}
  {f g : Frame} {env env₀ : Environment} {kind : SlotKind} {len : Option Nat} {name : String}

theorem start : Bound visible named temp .empty Evaluation.Session.startEnvironment :=
  ⟨_, Environment.stack_start, .base⟩

theorem bytes_eq (h : Bound visible named temp f env) : f.bytes = wordBytes * f.slots.length := by
  obtain ⟨stack, _, h⟩ := h
  exact h.totalSize_eq

theorem mono (h : Bound visible named temp f env)
    (hnamed : ∀ n < f.slots.length, ∀ slot b, named n slot b → named' n slot b)
    (htemp : ∀ n < f.slots.length, temp n → temp' n) : Bound visible named' temp' f env := by
  obtain ⟨stack, hstack, h⟩ := h
  exact ⟨stack, hstack, h.mono hnamed htemp⟩

theorem push (h : Bound visible named temp f env) (ht : temp f.slots.length) :
    Bound visible named temp (f.push kind len) env := by
  obtain ⟨stack, hstack, h⟩ := h
  exact ⟨stack, hstack, .temp h ⟨rfl, rfl⟩ rfl ht⟩

theorem of_push (h : Bound visible named temp (f.push kind len) env) :
    Bound visible named temp f env ∧ temp f.slots.length := by
  obtain ⟨stack, hstack, h⟩ := h
  obtain ⟨h, ht⟩ := h.of_temp rfl rfl
  exact ⟨⟨stack, hstack, h⟩, ht⟩

theorem openScope (h : Bound visible named temp f env) :
    Bound visible named temp f.openScope env.push := by
  obtain ⟨stack, hstack, h⟩ := h
  exact ⟨_, hstack.push, .opened h⟩

theorem closeScope {added : List Slot} {named₀ : Nat → Slot → Binding → Prop} {temp₀ : Nat → Prop}
    (h : Bound visible named temp g env) (hfg : f.openScope.Extends g added)
    (h₀ : Bound visible named₀ temp₀ f env₀) : Bound visible named temp f env.pop := by
  obtain ⟨_, hstack, h⟩ := h
  obtain ⟨_, _, h₀⟩ := h₀
  obtain ⟨own, outer, rfl, hclosed⟩ := h.closeScope hfg h₀
  obtain ⟨next, rest, rfl⟩ := hclosed.stack_eq_cons
  exact ⟨_, hstack.pop, hclosed⟩

theorem openEach {idx : SlotKind} (h : Bound visible named temp f env) (hbase : ¬visible "#base")
    (hidx : ¬visible "#idx") :
    Bound visible named temp
      ((f.openScope.pushNamed kind len "#base").pushNamed idx none "#idx").openScope env.push := by
  obtain ⟨stack, hstack, h⟩ := h
  exact ⟨_, hstack.push, .hidden h hbase hidx ⟨rfl, rfl⟩ rfl ⟨rfl, rfl⟩ rfl⟩

theorem closeEach {idx elem : SlotKind}
    (h : Bound visible named temp
      (((f.openScope.pushNamed kind len "#base").pushNamed idx none "#idx").openScope.pushNamed elem none name) env)
    (hidx : ¬visible "#idx") : Bound visible named temp f env.pop := by
  obtain ⟨_, hstack, h⟩ := h
  obtain ⟨own, outer, rfl, hclosed⟩ := h.closeEach rfl (by simp) rfl rfl hidx
  obtain ⟨next, rest, rfl⟩ := hclosed.stack_eq_cons
  exact ⟨_, hstack.pop, hclosed⟩

theorem found {offset : Int} {slot : Slot} (h : Bound visible named temp f env) (hname : visible name)
    (hslot : f.resolve? name = some (offset, slot)) :
    ∃ n b, Found visible named temp f env name n slot b ∧
      offset + wordBytes * (n + 1) = wordBytes * f.slots.length := by
  obtain ⟨stack, hstack, h⟩ := h
  obtain ⟨n, b, hfound, hoffset⟩ := h.located_of_go hname hslot
  refine ⟨n, b, ⟨hfound.lt, hstack.get_of_find hfound.find, hfound.holds, ?_⟩, ?_⟩
  · intro named' temp' v hnamed htemp hb
    obtain ⟨env', hset, henv⟩ := hstack.set_of_find hfound.free hfound.find v
    exact ⟨env', hset, _, henv, hfound.assign hnamed htemp hb⟩
  · rwa [Int.zero_add] at hoffset

theorem embedded (h : Bound visible named temp f env) (fn : Embedded) :
    env.get fn.name = .ok ⟨.function, .function (.embedded fn)⟩ := by
  obtain ⟨stack, hstack, h⟩ := h
  apply hstack.get_of_find (h.find_embedded _)
  cases fn <;> rfl

theorem declare {v : Value} {k : Kind} (h : Bound visible named temp f env)
    (hfree : f.isDeclared name = false) (hname : Declarable visible name)
    (hnamed : named f.slots.length ⟨kind, wordBytes, f.depth, some name, len⟩ ⟨k, v⟩) :
    ∃ env', env.declare name k v = .ok env' ∧
      Bound visible named temp (f.pushNamed kind len name) env' := by
  obtain ⟨stack, hstack, h⟩ := h
  obtain ⟨own, outer, rfl⟩ := h.stack_eq_cons
  have hown := h.lookup_of_isDeclared hfree rfl
  obtain ⟨env', hdeclare, henv⟩ := hstack.declare hown hname.free k v
  exact ⟨env', hdeclare, _, henv, .named h ⟨rfl, rfl⟩ rfl hname hown hnamed⟩

end Bound

end Arbor.Agreement
