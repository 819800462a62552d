import Arbor.Proofs.Environment.Mirror
import Mathlib.Data.List.Basic

/-!
This module contains the clients of an environment, and shows that they cannot tell whether the scopes that they leave
are taken back. A client opens and closes blocks and calls in a nested order, and calls only what it captured before.
-/

namespace Arbor.Environment

inductive Action where
  | push
  | pop
  | call (target : Option Nat)
  | ret
  | capture
  | declare (name : String) (kind : Kind) (value : Value)
  | get (name : String)
  | set (name : String) (value : Value)
  | depth
  | globals

inductive Observation where
  | done (result : Except EvalErrorKind Unit)
  | found (result : Except EvalErrorKind Binding)
  | depth (n : Nat)
  | globals (bindings : List (String × Binding))

/-! Nesting -/

inductive Bracket where
  | block
  | call

/--
What a client has open, innermost first, and how many scopes it has captured.
-/
structure Outline where
  opened : List Bracket
  captures : Nat

namespace Outline

def start : Outline :=
  ⟨[], 0⟩

/--
The outline after an action, if the action closes what was opened last and calls what was captured.
-/
def step? (o : Outline) : Action → Option Outline
  | .push => some { o with opened := .block :: o.opened }
  | .pop =>
    match o.opened with
    | .block :: opened => some { o with opened }
    | _ => none
  | .call none => some { o with opened := .call :: o.opened }
  | .call (some i) => if i < o.captures then some { o with opened := .call :: o.opened } else none
  | .ret =>
    match o.opened with
    | .call :: opened => some { o with opened }
    | _ => none
  | .capture => some { o with captures := o.captures + 1 }
  | .declare .. | .get .. | .set .. | .depth | .globals => some o

def run? (o : Outline) (actions : List Action) : Option Outline :=
  actions.foldlM step? o

end Outline

/-! Clients -/

/--
How scopes are left at the end of a block and at the end of a call.
-/
structure Leaving where
  pop : Environment → Environment
  leave : Environment → Nat → Environment

def Leaving.reclaiming : Leaving :=
  ⟨Environment.pop, Environment.leave⟩

def Leaving.keeping : Leaving :=
  ⟨popKeeping, forsake⟩

/--
An environment with the scopes to go back to from the open calls, innermost first, and the captured scopes in order.
-/
structure Client where
  env : Environment
  callers : List Nat
  captured : List Nat

namespace Client

def start : Client :=
  ⟨.empty, [], []⟩

def target (c : Client) : Option Nat → Nat
  | none => 0
  | some i => c.captured.getD i 0

def update (c : Client) (result : Except EvalErrorKind Environment) : Client × Option Observation :=
  match result with
  | .ok env => ({ c with env }, some (.done (.ok ())))
  | .error e => (c, some (.done (.error e)))

def step (how : Leaving) (c : Client) : Action → Client × Option Observation
  | .push => ({ c with env := c.env.push }, none)
  | .pop => ({ c with env := how.pop c.env }, none)
  | .call target =>
    ({ c with env := c.env.enter (c.target target), callers := c.env.current :: c.callers }, none)
  | .ret =>
    match c.callers with
    | [] => (c, none)
    | caller :: callers => ({ c with env := how.leave c.env caller, callers }, none)
  | .capture => ({ c with env := c.env.capture.2, captured := c.captured ++ [c.env.capture.1] }, none)
  | .declare name kind v => c.update (c.env.declare name kind v)
  | .get name => (c, some (.found (c.env.get name)))
  | .set name v => c.update (c.env.set name v)
  | .depth => (c, some (.depth c.env.depth))
  | .globals => (c, some (.globals c.env.globals))

def run (how : Leaving) (c : Client) : List Action → Client × List Observation
  | [] => (c, [])
  | action :: rest =>
    let (c, seen?) := c.step how action
    let (c, seen) := c.run how rest
    (c, seen?.toList ++ seen)

/--
The scopes that the client can still reach: around the current one, the ones to go back to and the captured ones.
-/
def inUse (c : Client) : List Nat :=
  (c.env.current :: c.callers ++ c.captured).flatMap c.env.chain

end Client

/-! Open scopes -/

/--
The scopes that the brackets of a client have opened, innermost first, with the current one and the ones to go back to.
-/
inductive Opened (env : Environment) : List Bracket → Nat → List Nat → List Nat → Prop where
  | nothing : Opened env [] 0 [] []
  | block {brackets : List Bracket} {parent id : Nat} {callers ids : List Nat}
      (outer : Opened env brackets parent callers ids) (below : parent < id)
      (inside : (env.scope id).parent = some parent) :
      Opened env (.block :: brackets) id callers (id :: ids)
  | call {brackets : List Bracket} {caller id : Nat} {callers ids : List Nat}
      (outer : Opened env brackets caller callers ids) (below : caller < id) :
      Opened env (.call :: brackets) id (caller :: callers) (id :: ids)

namespace Opened

variable {env env' : Environment} {brackets : List Bracket} {current : Nat} {callers ids : List Nat}

theorem mono (h : Opened env brackets current callers ids)
    (hparent : ∀ id ≤ current, (env'.scope id).parent = (env.scope id).parent) :
    Opened env' brackets current callers ids := by
  induction h with
  | nothing => exact .nothing
  | block outer below inside ih =>
    refine .block (ih fun id hid => hparent id (by omega)) below ?_
    rw [hparent _ (Nat.le_refl _)]
    exact inside
  | call outer below ih => exact .call (ih fun id hid => hparent id (by omega)) below

theorem le_current (h : Opened env brackets current callers ids) : ∀ id ∈ ids, id ≤ current := by
  induction h with
  | nothing => simp
  | block outer below inside ih | call outer below ih =>
    rw [List.forall_mem_cons]
    exact ⟨Nat.le_refl _, fun id hid => Nat.le_trans (ih id hid) (Nat.le_of_lt below)⟩

theorem callers_le (h : Opened env brackets current callers ids) :
    ∀ caller ∈ callers, caller ≤ current := by
  induction h with
  | nothing => simp
  | block outer below inside ih =>
    exact fun caller hcaller => Nat.le_trans (ih caller hcaller) (Nat.le_of_lt below)
  | call outer below ih =>
    rw [List.forall_mem_cons]
    exact ⟨Nat.le_of_lt below, fun caller hcaller => Nat.le_trans (ih caller hcaller) (Nat.le_of_lt below)⟩

end Opened

/-! Both clients -/

/--
A client and one that keeps the scopes that it leaves. Of the scopes of the first one that are not pinned, there are
only open ones; a captured scope is pinned.
-/
structure Client.Mirrors (owner : Nat → Nat) (o : Outline) (c kept : Client) : Prop where
  env : Environment.Mirrors owner c.env kept.env
  callers : kept.callers = c.callers.map owner
  captured : kept.captured = c.captured.map owner
  captures : c.captured.length = o.captures
  pinned : ∀ id ∈ c.captured, id < c.env.pinned
  pinned_pos : 0 < c.env.pinned
  pinned_le : c.env.pinned ≤ c.env.scopes.size
  opened : ∃ ids, Opened c.env o.opened c.env.current c.callers ids ∧
    ∀ id, c.env.pinned ≤ id → id < c.env.scopes.size → id ∈ ids

namespace Client.Mirrors

variable {owner : Nat → Nat} {o o' : Outline} {c kept : Client}

theorem start : Mirrors (fun id => id) .start .start .start where
  env := .empty
  callers := rfl
  captured := rfl
  captures := rfl
  pinned := by simp [Client.start]
  pinned_pos := Nat.zero_lt_one
  pinned_le := Nat.le_refl _
  opened := by
    refine ⟨[], .nothing, fun id hpinned hid => ?_⟩
    exact absurd hid (Nat.not_lt.mpr hpinned)

theorem callers_lt (h : Mirrors owner o c kept) : ∀ caller ∈ c.callers, caller < c.env.scopes.size := by
  obtain ⟨ids, hopened, -⟩ := h.opened
  exact fun caller hcaller => Nat.lt_of_le_of_lt (hopened.callers_le caller hcaller) h.env.current_lt

theorem captured_lt (h : Mirrors owner o c kept) : ∀ id ∈ c.captured, id < c.env.scopes.size :=
  fun id hid => Nat.lt_of_lt_of_le (h.pinned id hid) h.pinned_le

/-! Entering a scope -/

theorem map_update (owner : Nat → Nat) {n m : Nat} {ids : List Nat} (h : ∀ id ∈ ids, id < n) :
    ids.map (Function.update owner n m) = ids.map owner :=
  List.map_congr_left fun id hid => Function.update_of_ne (Nat.ne_of_lt (h id hid)) _ _

theorem enter (h : Mirrors owner o c kept) {parent : Nat} {callers callers' : List Nat} {bracket : Bracket}
    (hparent : parent < c.env.scopes.size) (hcallers : callers' = callers.map owner)
    (hlt : ∀ caller ∈ callers, caller < c.env.scopes.size)
    (hopened : ∀ ids, Opened (c.env.enter parent) o.opened c.env.current c.callers ids →
      Opened (c.env.enter parent) (bracket :: o.opened) c.env.scopes.size callers (c.env.scopes.size :: ids)) :
    Mirrors (Function.update owner c.env.scopes.size kept.env.scopes.size)
      { o with opened := bracket :: o.opened }
      { c with env := c.env.enter parent, callers }
      { kept with env := kept.env.enter (owner parent), callers := callers' } := by
  have hsize : (c.env.enter parent).scopes.size = c.env.scopes.size + 1 := by simp [Environment.enter]
  constructor
  case env => exact h.env.enter hparent
  case callers =>
    dsimp only
    rw [hcallers, map_update owner hlt]
  case captured =>
    dsimp only
    rw [h.captured, map_update owner h.captured_lt]
  case captures => exact h.captures
  case pinned => exact h.pinned
  case pinned_pos => exact h.pinned_pos
  case pinned_le => exact Nat.le_trans h.pinned_le (by rw [hsize]; exact Nat.le_succ _)
  case opened =>
    obtain ⟨ids, hids, hall⟩ := h.opened
    have hkeep : Opened (c.env.enter parent) o.opened c.env.current c.callers ids := by
      apply hids.mono
      intro id hid
      have hlt := Nat.lt_of_le_of_lt hid h.env.current_lt
      rw [scope_enter, if_neg (Nat.ne_of_lt hlt)]
    refine ⟨c.env.scopes.size :: ids, hopened ids hkeep, fun id hpinned hid => ?_⟩
    dsimp only at hid
    rw [hsize] at hid
    rcases Nat.lt_succ_iff_lt_or_eq.mp hid with hlt | rfl
    · exact List.mem_cons_of_mem _ (hall id hpinned hlt)
    · exact List.mem_cons_self

theorem push (h : Mirrors owner o c kept) :
    Mirrors (Function.update owner c.env.scopes.size kept.env.scopes.size)
      { o with opened := .block :: o.opened } { c with env := c.env.push }
      { kept with env := kept.env.push } := by
  rw [Environment.push, Environment.push, h.env.current]
  apply h.enter h.env.current_lt h.callers h.callers_lt
  intro ids hids
  refine .block hids h.env.current_lt ?_
  rw [scope_enter, if_pos rfl]

theorem call (h : Mirrors owner o c kept) {scope : Nat} (hscope : scope < c.env.scopes.size) :
    Mirrors (Function.update owner c.env.scopes.size kept.env.scopes.size)
      { o with opened := .call :: o.opened }
      { c with env := c.env.enter scope, callers := c.env.current :: c.callers }
      { kept with env := kept.env.enter (owner scope), callers := kept.env.current :: kept.callers } := by
  apply h.enter hscope
  · rw [h.callers, h.env.current, List.map_cons]
  · rw [List.forall_mem_cons]
    exact ⟨h.env.current_lt, h.callers_lt⟩
  · exact fun ids hids => .call hids h.env.current_lt

/-! Leaving a scope -/

theorem taken (h : Mirrors owner o c kept) (hpinned : c.env.pinned ≤ c.env.current) :
    c.env.current + 1 = c.env.scopes.size := by
  obtain ⟨ids, hids, hall⟩ := h.opened
  have hlt := h.env.current_lt
  have hlast := hids.le_current _ (hall (c.env.scopes.size - 1) (by omega) (by omega))
  omega

theorem leave (h : Mirrors owner o c kept) {brackets : List Bracket} {target : Nat} {callers ids : List Nat}
    (hbelow : target < c.env.current) (hopened : Opened c.env brackets target callers ids)
    (hall : ∀ id, c.env.pinned ≤ id → id < c.env.scopes.size → id ∈ c.env.current :: ids) :
    Mirrors owner { o with opened := brackets } { c with env := c.env.leave target, callers }
      { kept with env := kept.env.forsake (owner target), callers := callers.map owner } := by
  have hsize : c.env.current ≤ (c.env.leave target).scopes.size := le_size_leave h.env.current_lt
  constructor
  case env => exact h.env.leave (Nat.lt_of_lt_of_le hbelow hsize)
  case callers => rfl
  case captured => exact h.captured
  case captures => exact h.captures
  case pinned => simpa using h.pinned
  case pinned_pos => simpa using h.pinned_pos
  case pinned_le =>
    dsimp only
    rw [pinned_leave]
    by_cases hpinned : c.env.pinned ≤ c.env.current
    · exact Nat.le_trans hpinned hsize
    · unfold Environment.leave
      rw [if_neg fun hleave => hpinned hleave.1]
      exact h.pinned_le
  case opened =>
    dsimp only
    rw [current_leave, pinned_leave]
    refine ⟨ids, ?_, fun id hpinned hid => ?_⟩
    · apply hopened.mono
      intro id hid
      rw [scope_leave (by omega)]
    · -- A pinned scope is not taken back, and one that is not pinned was the last one of the arena.
      have hlt : id < c.env.scopes.size := Nat.lt_of_lt_of_le hid size_leave_le
      rcases List.mem_cons.mp (hall id hpinned hlt) with rfl | hmem
      · unfold Environment.leave at hid
        rw [if_pos ⟨hpinned, h.taken hpinned⟩] at hid
        have := h.taken hpinned
        simp only [Array.size_pop] at hid
        omega
      · exact hmem

theorem pop (h : Mirrors owner o c kept) {brackets : List Bracket} (hopen : o.opened = .block :: brackets) :
    Mirrors owner { o with opened := brackets } { c with env := c.env.pop }
      { kept with env := kept.env.popKeeping } := by
  obtain ⟨ids, hids, hall⟩ := h.opened
  rw [hopen] at hids
  generalize hcurrent : c.env.current = current at hids
  cases hids with
  | block outer below inside =>
    rw [← hcurrent] at inside below
    have hparent := h.env.parent _ h.env.current_lt
    rw [← h.env.current, inside] at hparent
    rw [Environment.pop, inside, popKeeping, hparent, Option.map_some]
    have hleave := h.leave below outer fun id hpinned hid => hcurrent ▸ hall id hpinned hid
    rwa [← h.callers] at hleave

theorem ret (h : Mirrors owner o c kept) {brackets : List Bracket} (hopen : o.opened = .call :: brackets) :
    ∃ caller callers, c.callers = caller :: callers ∧
      kept.callers = owner caller :: callers.map owner ∧
      Mirrors owner { o with opened := brackets } { c with env := c.env.leave caller, callers }
        { kept with env := kept.env.forsake (owner caller), callers := callers.map owner } := by
  obtain ⟨ids, hids, hall⟩ := h.opened
  rw [hopen] at hids
  generalize hcurrent : c.env.current = current at hids
  generalize hcallers : c.callers = callers at hids
  cases hids with
  | call outer below =>
    rw [← hcurrent] at below
    refine ⟨_, _, rfl, by rw [h.callers, hcallers, List.map_cons], ?_⟩
    exact h.leave below outer fun id hpinned hid => hcurrent ▸ hall id hpinned hid

/-! The other actions -/

theorem capture (h : Mirrors owner o c kept) :
    Mirrors owner { o with captures := o.captures + 1 }
      { c with env := c.env.capture.2, captured := c.captured ++ [c.env.capture.1] }
      { kept with env := kept.env.capture.2, captured := kept.captured ++ [kept.env.capture.1] } := by
  constructor
  case env => exact h.env.capture
  case callers => exact h.callers
  case captured => simp [Environment.capture, h.captured, h.env.current]
  case captures => simp [h.captures]
  case pinned =>
    intro id hid
    simp only [Environment.capture] at hid ⊢
    rcases List.mem_append.mp hid with hid | hid
    · exact Nat.lt_of_lt_of_le (h.pinned id hid) (Nat.le_max_left _ _)
    · rw [List.mem_singleton.mp hid]
      exact Nat.lt_of_lt_of_le (Nat.lt_succ_self _) (Nat.le_max_right _ _)
  case pinned_pos => exact Nat.lt_of_lt_of_le h.pinned_pos (Nat.le_max_left _ _)
  case pinned_le => exact Nat.max_le.mpr ⟨h.pinned_le, h.env.current_lt⟩
  case opened =>
    obtain ⟨ids, hids, hall⟩ := h.opened
    refine ⟨ids, hids.mono fun _ _ => rfl, fun id hpinned hid => ?_⟩
    exact hall id (Nat.le_trans (Nat.le_max_left _ _) hpinned) hid

theorem update (h : Mirrors owner o c kept) {result result' : Except EvalErrorKind Environment}
    (hresult : (∃ e, result = .error e ∧ result' = .error e) ∨
      ∃ env env', result = .ok env ∧ result' = .ok env' ∧ c.env.Rebinds env ∧
        Environment.Mirrors owner env env') :
    (c.update result).2 = (kept.update result').2 ∧
      Mirrors owner o (c.update result).1 (kept.update result').1 := by
  obtain ⟨e, rfl, rfl⟩ | ⟨env, env', rfl, rfl, hrebinds, henv⟩ := hresult
  · exact ⟨rfl, h⟩
  · refine ⟨rfl, henv, h.callers, h.captured, h.captures, ?_, ?_, ?_, ?_⟩
    · simpa only [Client.update, hrebinds.pinned] using h.pinned
    · simpa only [Client.update, hrebinds.pinned] using h.pinned_pos
    · simpa only [Client.update, hrebinds.pinned, hrebinds.size] using h.pinned_le
    · obtain ⟨ids, hids, hall⟩ := h.opened
      simp only [Client.update, hrebinds.pinned, hrebinds.size, hrebinds.current]
      exact ⟨ids, hids.mono fun id _ => hrebinds.parent id, hall⟩

theorem target_lt (h : Mirrors owner o c kept) (target : Option Nat) :
    c.target target < c.env.scopes.size := by
  have hpos := Nat.zero_lt_of_lt h.env.current_lt
  cases target with
  | none => exact hpos
  | some i =>
    simp only [Client.target, List.getD_eq_getElem?_getD]
    cases hi : c.captured[i]? with
    | none => exact hpos
    | some id => exact h.captured_lt id (List.mem_of_getElem? hi)

theorem target (h : Mirrors owner o c kept) (target : Option Nat) :
    kept.target target = owner (c.target target) := by
  cases target with
  | none => exact h.env.global.symm
  | some i =>
    simp only [Client.target, List.getD_eq_getElem?_getD, h.captured, List.getElem?_map]
    cases c.captured[i]? with
    | none => exact h.env.global.symm
    | some id => rfl

/-! Steps and runs -/

theorem step (h : Mirrors owner o c kept) {action : Action} (hstep : o.step? action = some o') :
    (c.step .reclaiming action).2 = (kept.step .keeping action).2 ∧
      ∃ owner', Mirrors owner' o' (c.step .reclaiming action).1 (kept.step .keeping action).1 := by
  cases action with
  | push =>
    cases hstep
    exact ⟨rfl, _, h.push⟩
  | pop =>
    simp only [Outline.step?] at hstep
    split at hstep
    · next hopen =>
      cases hstep
      exact ⟨rfl, _, h.pop hopen⟩
    · cases hstep
  | call target =>
    have ho' : o' = { o with opened := .call :: o.opened } := by
      cases target with
      | none => exact (Option.some.inj hstep).symm
      | some i =>
        simp only [Outline.step?] at hstep
        split at hstep
        · exact (Option.some.inj hstep).symm
        · cases hstep
    have hcall := h.call (h.target_lt target)
    rw [← h.target target, ← ho'] at hcall
    exact ⟨rfl, _, hcall⟩
  | ret =>
    simp only [Outline.step?] at hstep
    split at hstep
    · next hopen =>
      cases hstep
      obtain ⟨caller, callers, hcallers, hkept, hret⟩ := h.ret hopen
      simp only [Client.step, hcallers, hkept]
      exact ⟨trivial, _, hret⟩
    · cases hstep
  | capture =>
    cases hstep
    exact ⟨rfl, _, h.capture⟩
  | declare name kind v =>
    cases hstep
    obtain ⟨hseen, hmirrors⟩ := h.update (h.env.declare name kind v)
    exact ⟨hseen, _, hmirrors⟩
  | get name =>
    cases hstep
    exact ⟨by simp only [Client.step, h.env.get], _, h⟩
  | set name v =>
    cases hstep
    obtain ⟨hseen, hmirrors⟩ := h.update (h.env.set name v)
    exact ⟨hseen, _, hmirrors⟩
  | depth =>
    cases hstep
    exact ⟨by simp only [Client.step, h.env.depth], _, h⟩
  | globals =>
    cases hstep
    exact ⟨by simp only [Client.step, h.env.globals], _, h⟩

theorem run (h : Mirrors owner o c kept) {actions : List Action} (hrun : o.run? actions = some o') :
    (c.run .reclaiming actions).2 = (kept.run .keeping actions).2 ∧
      ∃ owner', Mirrors owner' o' (c.run .reclaiming actions).1 (kept.run .keeping actions).1 := by
  induction actions generalizing owner o c kept with
  | nil =>
    cases hrun
    exact ⟨rfl, owner, h⟩
  | cons action rest ih =>
    simp only [Outline.run?, List.foldlM_cons, Option.bind_eq_bind, Option.bind_eq_some_iff] at hrun
    obtain ⟨between, hstep, hrest⟩ := hrun
    obtain ⟨hseen, owner', h'⟩ := h.step hstep
    obtain ⟨hrest, hafter⟩ := ih h' hrest
    exact ⟨by simp only [Client.run, hseen, hrest], hafter⟩

/-! What is in use -/

theorem inUse_lt (h : Mirrors owner o c kept) : ∀ id ∈ c.inUse, id < c.env.scopes.size := by
  intro id hid
  simp only [Client.inUse, List.mem_flatMap, List.mem_cons, List.mem_append, List.cons_append] at hid
  obtain ⟨inner, hinner, hmem⟩ := hid
  apply Nat.lt_of_le_of_lt (le_of_mem_chain hmem)
  obtain rfl | hcaller | hcaptured := hinner
  · exact h.env.current_lt
  · exact h.callers_lt _ hcaller
  · exact h.captured_lt _ hcaptured

theorem inUse (h : Mirrors owner o c kept) : kept.inUse = c.inUse.map owner := by
  have hchains : ∀ ids : List Nat, (∀ id ∈ ids, id < c.env.scopes.size) →
      (ids.map owner).flatMap kept.env.chain = (ids.flatMap c.env.chain).map owner := by
    intro ids hids
    rw [List.flatMap_map, List.map_flatMap]
    apply List.flatMap_congr
    exact fun id hid => h.env.chain (hids id hid)
  have hids : ∀ id ∈ c.env.current :: c.callers ++ c.captured, id < c.env.scopes.size := by
    simp only [List.cons_append, List.forall_mem_cons, List.forall_mem_append]
    exact ⟨h.env.current_lt, h.callers_lt, h.captured_lt⟩
  rw [Client.inUse, Client.inUse, ← hchains _ hids]
  simp only [h.callers, h.captured, h.env.current, List.map_cons, List.map_append, List.cons_append]

theorem size_of_nothing_open (h : Mirrors owner o c kept) (hopen : o.opened = []) :
    c.env.current = 0 ∧ c.env.scopes.size = c.env.pinned := by
  obtain ⟨ids, hids, hall⟩ := h.opened
  rw [hopen] at hids
  generalize hcurrent : c.env.current = current at hids
  generalize c.callers = callers at hids
  cases hids with
  | nothing =>
    refine ⟨rfl, Nat.le_antisymm (Nat.le_of_not_lt fun hlt => ?_) h.pinned_le⟩
    exact absurd (hall _ (Nat.le_refl _) hlt) (by simp)

end Client.Mirrors

/--
Taking scopes back makes no difference to a client, and no scope that it can reach is lost or given to others.
-/
theorem reclaiming_unobservable {actions : List Action} {o : Outline}
    (h : Outline.start.run? actions = some o) :
    let (c, seen) := Client.start.run .reclaiming actions
    let (kept, seen') := Client.start.run .keeping actions
    seen = seen' ∧
      (∀ id ∈ c.inUse, id < c.env.scopes.size) ∧
      (∃ owner : Nat → Nat, Set.InjOn owner (Set.Iio c.env.scopes.size) ∧
        kept.inUse = c.inUse.map owner) ∧
      (o.opened = [] → c.env.current = 0 ∧ c.env.scopes.size = c.env.pinned) := by
  obtain ⟨hseen, owner, hmirrors⟩ := Client.Mirrors.start.run h
  exact ⟨hseen, hmirrors.inUse_lt, ⟨owner, hmirrors.env.mono.injOn, hmirrors.inUse⟩, hmirrors.size_of_nothing_open⟩

def callsCaptured : List Action :=
  [.push, .declare "captured" (.scalar .int) (.int 7), .capture, .pop, .get "captured", .call (some 0), .get "captured",
    .push, .pop, .ret, .depth]

theorem reclaiming_unobservable_callsCaptured :
    Outline.start.run? callsCaptured = some ⟨[], 1⟩ ∧
      (Client.start.run .reclaiming callsCaptured).1.env.scopes.size = 2 ∧
      (Client.start.run .keeping callsCaptured).1.env.scopes.size = 4 ∧
      (Client.start.run .reclaiming callsCaptured).2 = (Client.start.run .keeping callsCaptured).2 :=
  ⟨rfl, rfl, rfl, (reclaiming_unobservable rfl).1⟩

end Arbor.Environment
