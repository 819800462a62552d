import Arbor.Evaluation.Session

/-!
This module contains the environments of runs that declare no functions. Their scopes are a stack: each lies inside
the one before it in the arena, and the current one is the last.
-/

namespace Arbor.Environment

def embedded : List (String × Binding) :=
  (Embedded.all.map fun f => (f.name, ⟨.function, .function (.embedded f)⟩)).reverse

/--
The arena of a stack of scopes, given by their bindings, the innermost first. The global scope has the bindings of
the embedded functions below its own.
-/
def arena : List (List (String × Binding)) → List Scope
  | [] => []
  | own :: [] => [⟨own ++ embedded, none⟩]
  | own :: next :: outer => arena (next :: outer) ++ [⟨own, some outer.length⟩]

/--
The scopes of an environment are a stack with the given bindings.
-/
structure Stack (env : Environment) (stack : List (List (String × Binding))) : Prop where
  scopes : env.scopes.toList = arena stack
  current : env.current + 1 = stack.length
  pinned : env.pinned = 1

def find (name : String) : List (List (String × Binding)) → Option Binding
  | [] => embedded.lookup name
  | own :: outer => (own.lookup name).or (find name outer)

def setOwn (name : String) (v : Value) (own : List (String × Binding)) : List (String × Binding) :=
  ((⟨own, none⟩ : Scope).setValue name v).bindings

def assign (name : String) (v : Value) :
    List (List (String × Binding)) → List (List (String × Binding))
  | [] => []
  | own :: outer =>
    if (own.lookup name).isSome then setOwn name v own :: outer else own :: assign name v outer

variable {env : Environment} {own : List (String × Binding)}
  {stack outer : List (List (String × Binding))} {name : String}

@[simp]
theorem length_arena : (arena stack).length = stack.length := by
  induction stack with
  | nil => rfl
  | cons own outer ih =>
    cases outer with
    | nil => rfl
    | cons next outer => simp [arena, ih]

@[simp]
theorem length_assign {v : Value} : (assign name v stack).length = stack.length := by
  induction stack with
  | nil => rfl
  | cons own outer ih =>
    rw [assign]
    split <;> simp [ih]

theorem stack_start : Evaluation.Session.startEnvironment.Stack [[]] :=
  ⟨rfl, rfl, rfl⟩

/-! Looking up names -/

theorem scope_eq_of_getElem? {id : Nat} {s : Scope} (h : env.scopes.toList[id]? = some s) :
    env.scope id = s := by
  rw [Array.getElem?_toList] at h
  simp [scope, h]

theorem getElem?_arena_last {next : List (String × Binding)} :
    (arena (own :: next :: outer))[outer.length + 1]? = some ⟨own, some outer.length⟩ := by
  simp [arena]

def BeginsWith (env : Environment) (stack : List (List (String × Binding))) : Prop :=
  ∀ i, i < stack.length → env.scopes.toList[i]? = (arena stack)[i]?

theorem BeginsWith.tail {next : List (String × Binding)}
    (h : env.BeginsWith (own :: next :: outer)) : env.BeginsWith (next :: outer) := by
  intro i hi
  rw [h i (by simp only [List.length_cons] at hi ⊢; omega), arena, List.getElem?_append_left]
  rwa [length_arena]

theorem Stack.beginsWith (h : env.Stack stack) : env.BeginsWith stack := by
  intro i _
  rw [h.scopes]

theorem BeginsWith.scope_zero (h : env.BeginsWith [own]) : env.scope 0 = ⟨own ++ embedded, none⟩ :=
  scope_eq_of_getElem? (h 0 (by simp))

theorem BeginsWith.scope_last {next : List (String × Binding)}
    (h : env.BeginsWith (own :: next :: outer)) :
    env.scope (outer.length + 1) = ⟨own, some outer.length⟩ := by
  apply scope_eq_of_getElem?
  rw [h _ (by simp), getElem?_arena_last]

theorem BeginsWith.chain_zero (h : env.BeginsWith [own]) : env.chain 0 = [0] := by
  rw [chain, h.scope_zero]

theorem BeginsWith.chain_last {next : List (String × Binding)}
    (h : env.BeginsWith (own :: next :: outer)) :
    env.chain (outer.length + 1) = (outer.length + 1) :: env.chain outer.length := by
  rw [chain, h.scope_last]
  simp

theorem BeginsWith.findSome?_chain (h : env.BeginsWith (own :: outer)) :
    (env.chain outer.length).findSome? (fun id => (env.scope id).find? name) =
      find name (own :: outer) := by
  induction outer generalizing own with
  | nil =>
    rw [List.length_nil, h.chain_zero, List.findSome?_cons, h.scope_zero]
    simp only [Scope.find?, List.lookup_append, find, List.findSome?_nil]
    cases (own.lookup name).or (embedded.lookup name) <;> rfl
  | cons next outer ih =>
    rw [List.length_cons, h.chain_last, List.findSome?_cons, h.scope_last, ih h.tail]
    simp only [Scope.find?, find]
    cases own.lookup name <;> rfl

theorem Stack.get_of_find (h : env.Stack stack) {b : Binding} (hb : find name stack = some b) :
    env.get name = .ok b := by
  cases stack with
  | nil => simpa using h.current
  | cons own outer =>
    have hcurrent : env.current = outer.length := by simpa using h.current
    unfold get
    rw [hcurrent, h.beginsWith.findSome?_chain, hb]

/-! Changing a stack -/

theorem Stack.push (h : env.Stack stack) : env.push.Stack ([] :: stack) := by
  cases stack with
  | nil => simpa using h.current
  | cons own outer =>
    have hcurrent : env.current = outer.length := by simpa using h.current
    have hsize : env.scopes.size = outer.length + 1 := by
      rw [← Array.length_toList, h.scopes, length_arena, List.length_cons]
    refine ⟨?_, ?_, h.pinned⟩
    · simp [Environment.push, enter, h.scopes, arena, hcurrent]
    · simp [Environment.push, enter, hsize]

theorem Stack.pop {next : List (String × Binding)} (h : env.Stack (own :: next :: outer)) :
    env.pop.Stack (next :: outer) := by
  have hcurrent : env.current = outer.length + 1 := by simpa using h.current
  have hsize : env.scopes.size = outer.length + 2 := by
    rw [← Array.length_toList, h.scopes, length_arena, List.length_cons, List.length_cons]
  have hpop : env.pop = { env with scopes := env.scopes.pop, current := outer.length } := by
    unfold Environment.pop
    rw [hcurrent, h.beginsWith.scope_last]
    simp only
    unfold leave
    rw [if_pos ⟨by rw [h.pinned, hcurrent]; omega, by rw [hcurrent, hsize]⟩]
  rw [hpop]
  refine ⟨?_, rfl, h.pinned⟩
  simp [h.scopes, arena]

theorem Stack.scope_current (h : env.Stack (own :: outer)) :
    (env.scope env.current).bindings = own ++ if outer = [] then embedded else [] := by
  have hcurrent : env.current = outer.length := by simpa using h.current
  rw [hcurrent]
  cases outer with
  | nil =>
    rw [List.length_nil, h.beginsWith.scope_zero]
    simp
  | cons next outer =>
    rw [List.length_cons, h.beginsWith.scope_last]
    simp

theorem modify_append_of_lt {f : Scope → Scope} {xs ys : List Scope} {i : Nat} (h : i < xs.length) :
    (xs ++ ys).modify i f = xs.modify i f ++ ys := by
  apply List.ext_getElem?
  intro j
  rw [List.getElem?_modify, List.getElem?_append, List.getElem?_append, List.length_modify,
    List.getElem?_modify]
  by_cases hj : j < xs.length
  · simp [hj]
  · have hne : i ≠ j := by omega
    simp [hj, hne]

theorem modify_arena_last {f : Scope → Scope} {next : List (String × Binding)} :
    (arena (own :: next :: outer)).modify (outer.length + 1) f =
      arena (next :: outer) ++ [f ⟨own, some outer.length⟩] := by
  have hlength : outer.length + 1 = (arena (next :: outer)).length := by simp
  rw [arena, hlength, List.modify_eq_take_drop]
  simp

theorem Stack.declare (h : env.Stack (own :: outer)) (hown : own.lookup name = none)
    (hname : embedded.lookup name = none) (kind : Kind) (v : Value) :
    ∃ env', env.declare name kind v = .ok env' ∧
      env'.Stack (((name, ⟨kind, v⟩) :: own) :: outer) := by
  have hcurrent : env.current = outer.length := by simpa using h.current
  have hfree : (env.scope env.current).declares name = false := by
    unfold Scope.declares Scope.find?
    rw [h.scope_current, List.lookup_append, hown]
    split <;> simp [hname]
  refine ⟨{ env with scopes := env.scopes.modify env.current fun s =>
      { s with bindings := (name, ⟨kind, v⟩) :: s.bindings } }, ?_, ?_, h.current, h.pinned⟩
  · rw [Environment.declare, hfree]
    rfl
  · simp only [Array.toList_modify, h.scopes, hcurrent]
    cases outer with
    | nil => rfl
    | cons next outer => rw [List.length_cons, modify_arena_last, arena]

theorem setOwn_of_lookup_eq_none {v : Value} (hname : own.lookup name = none) : setOwn name v own = own := by
  induction own with
  | nil => rfl
  | cons entry rest ih =>
    obtain ⟨key, b⟩ := entry
    rw [List.lookup_cons] at hname
    have hkey : (name == key) = false := by
      cases hkey : name == key with
      | false => rfl
      | true => simp [hkey] at hname
    have hrest : rest.lookup name = none := by simpa [hkey] using hname
    have hkey' : (key == name) = false := by
      rw [beq_eq_false_iff_ne] at hkey ⊢
      exact hkey.symm
    have ih := ih hrest
    simp only [setOwn, Scope.setValue] at ih ⊢
    rw [List.map_cons, ih]
    simp [hkey']

theorem setValue_append {outside : List (String × Binding)} {parent : Option Nat} {v : Value}
    (hname : outside.lookup name = none) :
    (⟨own ++ outside, parent⟩ : Scope).setValue name v = ⟨setOwn name v own ++ outside, parent⟩ := by
  have houtside := setOwn_of_lookup_eq_none (v := v) hname
  simp only [setOwn, Scope.setValue] at houtside ⊢
  rw [List.map_append, houtside]

theorem arena_setOwn {next : List (String × Binding)} {v : Value} {b : Binding}
    (hown : own.lookup name = some b) :
    arena (assign name v (own :: next :: outer)) =
      arena (next :: outer) ++ [⟨setOwn name v own, some outer.length⟩] := by
  rw [assign, hown]
  rfl

theorem arena_assign {next : List (String × Binding)} {v : Value} (hown : own.lookup name = none) :
    arena (assign name v (own :: next :: outer)) =
      arena (assign name v (next :: outer)) ++ [⟨own, some outer.length⟩] := by
  rw [assign, hown, assign]
  simp only [Option.isSome_none, Bool.false_eq_true, if_false]
  split <;> simp [arena, length_assign]

theorem BeginsWith.resolve (h : env.BeginsWith (own :: outer)) {b : Binding} {v : Value}
    (hname : embedded.lookup name = none) (hb : find name (own :: outer) = some b) :
    ∃ id, id < (own :: outer).length ∧
      (env.chain outer.length).find? (fun id => (env.scope id).declares name) = some id ∧
      (arena (own :: outer)).modify id (·.setValue name v) = arena (assign name v (own :: outer)) := by
  induction outer generalizing own with
  | nil =>
    simp only [find, hname, Option.or_none] at hb
    refine ⟨0, by simp, ?_, ?_⟩
    · rw [List.length_nil, h.chain_zero, List.find?_cons, h.scope_zero]
      simp [Scope.declares, Scope.find?, List.lookup_append, hb]
    · simp only [assign, hb, Option.isSome_some, if_true, arena]
      rw [← setValue_append hname]
      rfl
  | cons next outer ih =>
    simp only [List.length_cons]
    rw [h.chain_last, List.find?_cons, h.scope_last]
    cases hown : own.lookup name with
    | some b' =>
      refine ⟨outer.length + 1, by simp, by simp [Scope.declares, Scope.find?, hown], ?_⟩
      rw [modify_arena_last, arena_setOwn hown]
      rfl
    | none =>
      have hb' : find name (next :: outer) = some b := by simpa [find, hown] using hb
      obtain ⟨id, hlt, hid, hmodify⟩ := ih h.tail hb'
      refine ⟨id, Nat.lt_succ_of_lt hlt, ?_, ?_⟩
      · simpa [Scope.declares, Scope.find?, hown] using hid
      · rw [arena, modify_append_of_lt (by rwa [length_arena]), hmodify, arena_assign hown]

theorem Stack.set_of_find (h : env.Stack stack) {b : Binding} (hname : embedded.lookup name = none)
    (hb : find name stack = some b) (v : Value) :
    ∃ env', env.set name v = .ok env' ∧ env'.Stack (assign name v stack) := by
  cases stack with
  | nil => simpa using h.current
  | cons own outer =>
    have hcurrent : env.current = outer.length := by simpa using h.current
    obtain ⟨id, _, hid, hmodify⟩ := h.beginsWith.resolve (v := v) hname hb
    refine ⟨{ env with scopes := env.scopes.modify id (·.setValue name v) }, ?_, ?_, ?_, h.pinned⟩
    · unfold set Environment.resolve
      rw [hcurrent, hid]
      rfl
    · simp only [Array.toList_modify, h.scopes]
      exact hmodify
    · rw [length_assign]
      exact h.current

end Arbor.Environment
