import Arbor.Proofs.Machine.Bodies
import Arbor.Proofs.Machine.TextExpressions

/-!
This module contains bodies whose code takes bytes from the heap. In every workspace with space for these bytes it
keeps up with the execution of the body, and the heap has grown afterwards.
-/

namespace Arbor.Machine

open Agreement Assembly Evaluation
open Lowering (Frame Slot SlotKind)

namespace Workspace

section

variable {p : Workspace} {k k' m : Nat} {core : Core} {f : Frame} {kept : Nat → Word} {s : State} {a : Word}
  {t : String}
  {len : Option Nat} {name : String} {v : Value} {span : Span} {cx : Context} {heap₁ heap₂ : Heap} {A : String → Prop}
  {rest : List Stmt} {h h' : Nat}

theorem Holds.declaredText (hclear : p.Clear 0)
    (h : (p.withHeap (p.having a t)).Holds (f.push .string len) (Function.update kept f.slots.length a) s core)
    (hfree : f.isDeclared name = false) (hname : Declarable Plain name) :
    ∃ env, s.env.declare name (.scalar .string) (.text t) = .ok env ∧
      p.Holds (f.pushNamed .string len name) kept { s with env } core := by
  obtain ⟨memory, ⟨-, htext⟩, hbytes⟩ := h.heap
  have h : p.Holds (f.push .string len) (Function.update kept f.slots.length a) s core := h.widened having_within
  apply h.declaredWord hfree hname
  intro hword
  refine ⟨h.le, rfl, fun scalar hscalar hcell => ?_, nofun, fun scalar hscalar _ => ?_⟩
  · cases hscalar
    cases hcell
  · rw [hword]
    exact ⟨memory, (hclear.texts _ _ _ _).mpr ⟨t, rfl, htext⟩, hbytes⟩

theorem follows_declareText (hclear : p.Clear 0) (hfree : f.isDeclared name = false) (hname : Declarable Plain name) :
    Triple (p.PushedText f kept len k A v) (declare span name (.scalar .string) v)
      (fun _ => p.tracker.At k (p.Holds (f.pushNamed .string len name) kept)) p.Halts := by
  rintro s ⟨a, t, rfl, -, core, hg, h⟩
  obtain ⟨env, hdeclare, h⟩ := Holds.declaredText hclear h hfree hname
  rw [declare_eq hdeclare]
  exact ⟨core, hg, h⟩

namespace ExecutesAll

theorem textDecl {ty : TypeName} {e : Expr} (hclear : (p.withHeap heap₁).Clear 0) (hname : Declarable Plain name)
    (hty : ty = .var ∨ ty.scalar? = some .string) (he : p.PushesText cx f e h heap₁ A)
    (hrest : ∀ len, (p.withHeap heap₁).ExecutesAll cx (f.pushNamed .string len name) rest h' heap₂) :
    p.ExecutesAll cx f (.varDecl span ty name (some e) :: rest) (max h (h' + 1)) heap₂ := by
  constructor
  intro limit n n' k k' j d d' c kept f' hcode hbelow hplaces hroom hc
  have hroom' (len : Option Nat) : (f.pushNamed .string len name).slots.length + h' ≤ p.limit := by
    have hlength : (f.pushNamed .string len name).slots.length = f.slots.length + 1 := rfl
    omega
  cases hcode with
  | cons hs hcode =>
    obtain ⟨k₁, hc₁, hc₂⟩ := codeAt_append.mp hc
    obtain ⟨added, hadded⟩ := hs.extends
    cases hs with
    | declared hfree hscalar hdeclared =>
      rcases hty with rfl | hty
      · cases hscalar
      cases hty.symm.trans hscalar
      refine follows_next (p := p.withHeap heap₁) hadded (follows_varDecl (he.asked .refl hdeclared (by omega) hc₁) ?_
        fun v => follows_declareText hclear hfree hname)
        ((hrest _).run hcode (hbelow.mono hadded.bytes_le) hplaces (hroom' _) hc₂)
      rintro _ s ⟨a, t, rfl, -⟩
      rw [checkDeclared_scalar hscalar]
      rfl
    | inferred hfree hdeclared =>
      cases he.kind_eq .refl hdeclared
      refine follows_next (p := p.withHeap heap₁) hadded (follows_varDecl (he.run .refl hdeclared (by omega) hc₁) ?_
        fun v => follows_declareText hclear hfree hname)
        ((hrest _).run hcode (hbelow.mono hadded.bytes_le) hplaces (hroom' _) hc₂)
      rintro _ s ⟨a, t, rfl, -⟩
      exact checkDeclared_var rfl

theorem textExpr {e : Expr} (he : p.PushesText cx f e h heap₁ A)
    (hrest : (p.withHeap heap₁).ExecutesAll cx f rest h' heap₂) :
    p.ExecutesAll cx f (.expr span e :: rest) (max h h') heap₂ := by
  constructor
  intro limit n n' k k' j d d' c kept f' hcode hbelow hplaces hroom hc
  cases hcode with
  | cons hs hcode =>
    obtain ⟨k₁, hc₁, hc₂⟩ := codeAt_append.mp hc
    cases hs with
    | expr hexpr =>
      obtain ⟨m, hvalue, hrelease⟩ := codeAt_append.mp hc₁
      cases he.kind_eq .refl hexpr
      refine follows_next (p := p.withHeap heap₁) .refl (follows_expr (he.run .refl hexpr (by omega) hvalue) ?_)
        (hrest.run hcode hbelow hplaces (show _ ≤ p.limit by omega) hc₂)
      rintro v s ⟨a, t, -, -, core, hg, h⟩
      have h := Holds.widened (p := (p.withHeap heap₁).withHeap ((p.withHeap heap₁).having a t)) h having_within
      exact Holds.released (p := p.withHeap heap₁) h hg hrelease

end ExecutesAll

end

end Workspace

/-! Bodies that take bytes from the heap -/

/--
Where the heap has space for a number of bytes, the code of statements in a frame keeps up with their execution, and
takes no more bytes from the heap.
-/
def TakesAll (cx : Context) (f : Frame) (body : List Stmt) (height n : Nat) : Prop :=
  ∀ ⦃p : Workspace⦄, p.Clear n → p.ExecutesAll cx f body height (p.heap.grown n)

variable {cx : Context} {f : Frame} {e cond : Expr} {body rest : List Stmt} {t t' : Stmt} {kind : SlotKind}
  {height h h' h₁ h₂ n m i : Nat} {A : String → Prop} {span : Span} {name : String} {scalar : Scalar} {ty : TypeName}
  {p : Workspace}

namespace TakesAll

theorem mono (hbody : TakesAll cx f body height n) (hn : n ≤ m) : TakesAll cx f body height m :=
  fun _ hclear => (hbody (hclear.mono hn)).mono (Heap.grown_within (.refl _) hn)

theorem of_bodyOnWords (hbody : BodyOnWords f body height) : TakesAll cx f body height 0 :=
  fun _ hclear => (Workspace.executesAll_of_bodyOnWords hbody).mono hclear.within_grown

theorem next (hbody : TakesAll cx f body height m) (hclear : p.Clear (n + m)) :
    (p.withHeap (p.heap.grown n)).ExecutesAll cx f body height (p.heap.grown (n + m)) :=
  (hbody (p := p.withHeap (p.heap.grown n)) hclear.grown).mono Heap.grown_grown

theorem first (hbody : TakesAll cx f.openScope body height n) (hclear : p.Clear (n + m)) :
    p.Executes cx f body height (p.heap.grown n) :=
  (hbody (hclear.mono (Nat.le_add_right n m))).executes

theorem expr (he : Takes cx f e kind h n) (hrest : TakesAll cx f rest h' m) :
    TakesAll cx f (.expr span e :: rest) (max h h') (n + m) :=
  fun _ hclear => .expr (he.first hclear) (hrest.next hclear)

theorem textExpr (he : TakesText cx f e h n A) (hrest : TakesAll cx f rest h' m) :
    TakesAll cx f (.expr span e :: rest) (max h h') (n + m) :=
  fun _ hclear => .textExpr (he (hclear.mono (Nat.le_add_right n m))) (hrest.next hclear)

theorem varDecl (hname : Declarable Plain name) (hty : ty = .var ∨ ty.scalar? = some scalar)
    (he : Takes cx f e (.scalar scalar) h n)
    (hrest : ∀ len, TakesAll cx (f.pushNamed (.scalar scalar) len name) rest h' m) :
    TakesAll cx f (.varDecl span ty name (some e) :: rest) (max h (h' + 1)) (n + m) :=
  fun _ hclear => .varDecl hname hty (he.first hclear) fun len => next (hrest len) hclear

theorem textDecl (hname : Declarable Plain name) (hty : ty = .var ∨ ty.scalar? = some .string)
    (he : TakesText cx f e h n A) (hrest : ∀ len, TakesAll cx (f.pushNamed .string len name) rest h' m) :
    TakesAll cx f (.varDecl span ty name (some e) :: rest) (max h (h' + 1)) (n + m) :=
  fun _ hclear => .textDecl (hclear.grown.mono (Nat.zero_le m)) hname hty (he (hclear.mono (Nat.le_add_right n m)))
    fun len => next (hrest len) hclear

theorem block (hbody : TakesAll cx f.openScope body h n) (hrest : TakesAll cx f rest h' m) :
    TakesAll cx f (.block span body :: rest) (max h h') (n + m) :=
  fun _ hclear => .block (hbody.first hclear) (hrest.next hclear) (Heap.grown_within (.refl _) (Nat.le_add_right n m))

theorem ifElse (hcond : Takes cx f cond .bool h n) (ht : TakesAll cx f.openScope t.bodyOf h₁ m)
    (ht' : TakesAll cx f.openScope t'.bodyOf h₂ m) (hrest : TakesAll cx f rest h' i) :
    TakesAll cx f (.conditional span cond t (some t') :: rest) (max h (max h₁ (max h₂ h'))) (n + m + i) := by
  intro p hclear
  have hspace : p.Clear (n + m) := hclear.mono (Nat.le_add_right _ i)
  exact .ifElse (hcond.first hspace) (ht.next hspace).executes (ht'.next hspace).executes (hrest.next hclear)
    (Heap.grown_within (.refl _) (Nat.le_add_right _ i))

theorem ifThen (hcond : Takes cx f cond .bool h n) (ht : TakesAll cx f.openScope t.bodyOf h₁ m)
    (hrest : TakesAll cx f rest h' i) :
    TakesAll cx f (.conditional span cond t none :: rest) (max h (max h₁ h')) (n + m + i) := by
  intro p hclear
  have hspace : p.Clear (n + m) := hclear.mono (Nat.le_add_right _ i)
  exact .ifThen (hcond.first hspace) (ht.next hspace).executes (hrest.next hclear)
    (Heap.grown_within (.refl _) (Nat.le_add_right _ m)) (Heap.grown_within (.refl _) (Nat.le_add_right _ i))

/--
There may be any number of rounds, so they are to take no bytes.
-/
theorem whileLoop (hcond : OnWords f cond .bool h) (ht : BodyOnWords f.openScope t.bodyOf h₁)
    (hrest : TakesAll cx f rest h' n) :
    TakesAll cx f (.whileLoop span cond t :: rest) (max h (max h₁ h')) n :=
  fun _ hclear => .whileLoop (Workspace.pushes_of_onWords hcond) (Workspace.executesAll_of_bodyOnWords ht).executes
    (hrest hclear) hclear.within_grown

theorem keepsUp (hbody : TakesAll cx f.openScope body height n) (hclear : p.Clear n) :
    p.KeepsUp cx f body height (p.heap.grown n) :=
  fun _ hlinked _ _ => (hbody (hclear.relisted hlinked)).executes

end TakesAll

/-! Rounds that take bytes from the heap -/

def Heap.afterRounds (H : Heap) (n : Nat) : Nat → Heap
  | 0 => H
  | i + 1 => H.grown (n * (i + 1))

/--
A body that takes at most a number of bytes keeps up with its execution in as many rounds as there is space for.
-/
theorem TakesAll.keepsUp_rounds (hbody : TakesAll cx f.openScope body height n) {count : Nat}
    (hclear : p.Clear (n * count)) :
    ∀ i < count, (p.withHeap (p.heap.afterRounds n i)).KeepsUp cx f body height (p.heap.afterRounds n (i + 1)) := by
  intro i hi
  have hspace : p.Clear (n * (i + 1)) := hclear.mono (Nat.mul_le_mul_left n hi)
  cases i with
  | zero =>
    rw [Nat.zero_add, Nat.mul_one] at hspace
    have hgrown : p.heap.afterRounds n (0 + 1) = p.heap.grown n := by rw [Heap.afterRounds, Nat.zero_add, Nat.mul_one]
    rw [hgrown]
    exact hbody.keepsUp hspace
  | succ i =>
    rw [Nat.mul_succ] at hspace
    have hgrown : p.heap.afterRounds n (i + 1 + 1) = p.heap.grown (n * (i + 1) + n) := by
      rw [Heap.afterRounds, Nat.mul_succ n (i + 1)]
    rw [hgrown]
    exact (hbody.keepsUp (p := p.withHeap (p.heap.grown (n * (i + 1)))) hspace.grown).mono Heap.grown_grown

end Arbor.Machine
