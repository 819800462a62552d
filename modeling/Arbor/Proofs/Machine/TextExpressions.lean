import Arbor.Proofs.Agreement.Expressions
import Arbor.Proofs.Machine.HeapTexts
import Arbor.Proofs.Machine.Numerals

/-!
This module contains expressions whose code takes bytes from the heap: texts that are written to it, read from
variables, appended, compared and turned into ints. In every workspace with space for these bytes the code keeps up
with the evaluation, and the heap has grown afterwards.
-/

namespace Arbor.Machine

open Agreement Assembly Evaluation
open Lowering (Frame Slot SlotKind BinaryCode ExprCode embeddedCallee)

/-! Sizes -/

theorem length_digitBytes_le {k : Nat} : ∀ {n : Nat}, 0 < k → n < 10 ^ k → (digitBytes n).length ≤ k := by
  induction k with
  | zero => exact fun hk => absurd hk (Nat.lt_irrefl _)
  | succ k ih =>
    intro n _ hn
    rw [digitBytes_eq]
    split
    · exact Nat.succ_le_succ (Nat.zero_le k)
    · next hne =>
      have htenth : n / 10 < 10 ^ k := by
        rw [Nat.pow_succ] at hn
        omega
      have hk : 0 < k := by
        rcases Nat.eq_zero_or_pos k with rfl | hk
        · omega
        · exact hk
      rw [List.length_append, List.length_singleton]
      exact Nat.succ_le_succ (ih hk htenth)

theorem textSize_toString_le (i : Int32) : textSize (toString i.toInt) ≤ 12 := by
  have hlow := i.le_toInt
  have hhigh := i.toInt_lt
  have hdigits : (digitBytes i.toInt.natAbs).length ≤ 10 := length_digitBytes_le (by decide) (by omega)
  unfold textSize
  rw [bytes_toString, List.length_append]
  split
  · rw [List.length_singleton]
    omega
  · rw [List.length_nil]
    omega

/-! Expressions in a workspace -/

theorem codeAt_call {lines c rest : List Line} {k k' : Nat} {l : Label} {i : Instruction}
    (h : CodeAt lines k (c ++ [.jal l] ++ .instruction i :: rest) k') :
    ∃ m, CodeAt lines k c m ∧ lines[m]? = some (.jal l) ∧ m + 1 < lines.length ∧
      CodeAt lines (m + 1) (.instruction i :: rest) k' := by
  obtain ⟨_, h, hrest⟩ := codeAt_append.mp h
  obtain ⟨m, hc, hcall⟩ := codeAt_append.mp h
  obtain ⟨hjal, rfl⟩ := codeAt_instruction.mp hcall
  exact ⟨m, hc, hjal, (List.getElem?_eq_some_iff.mp (codeAt_instruction.mp hrest).1).1, hrest⟩

namespace Workspace

def PushedText (p : Workspace) (f : Frame) (kept : Nat → Word) (len : Option Nat) (k : Nat) (A : String → Prop)
    (v : Value) (s : State) : Prop :=
  ∃ a t, v = .text t ∧ A t ∧
    p.tracker.At k ((p.withHeap (p.having a t)).Holds (f.push .string len) (Function.update kept f.slots.length a)) s

/--
The code of an expression pushes the address of a text, which is its value and has a property, if there is room for a
number of words above those of a frame.
-/
structure PushesText (p : Workspace) (cx : Context) (f : Frame) (e : Expr) (height : Nat) (heap : Heap)
    (A : String → Prop) : Prop where
  kind_eq : ∀ {g : Frame} {n n' : Nat} {kind : SlotKind} {len : Option Nat} {c : List Line}, f.Above g →
    ExprCode g n none e kind len c n' → kind = .string
  run : ∀ {g : Frame} {n n' k k' : Nat} {len : Option Nat} {c : List Line} {kept : Nat → Word}, f.Above g →
    ExprCode g n none e .string len c n' → g.slots.length + height ≤ p.limit → CodeAt p.lines k c k' →
    Triple (p.tracker.At k (p.Holds g kept)) (evaluate cx e) ((p.withHeap heap).PushedText g kept len k' A) p.Halts

section

variable {p : Workspace} {cx : Context} {f g : Frame} {e l r : Expr} {kind : SlotKind} {height h h' n m i k k' : Nat}
  {len len' : Option Nat} {kept : Nat → Word} {heap heap' : Heap} {A B : String → Prop} {v : Value} {s : State}
  {span : Span} {P : State → Prop} {x : Run Value} {core core' : Core} {a b : Word} {t u : String} {rd : Register}

theorem PushedText.mono (hs : p.PushedText f kept len k A v s) (hheap : p.heap.Within heap) (hA : ∀ t, A t → B t) :
    (p.withHeap heap).PushedText f kept len k B v s := by
  obtain ⟨a, t, rfl, ht, core, hg, h⟩ := hs
  exact ⟨a, t, rfl, hA t ht, core, hg, Holds.widened (p := p.withHeap (p.having a t)) h (having_within_having hheap)⟩

theorem PushesText.asked {n n' : Nat} {c : List Line} (he : p.PushesText cx f e height heap A) (hg : f.Above g)
    (hcode : ExprCode g n (some .string) e .string len c n') (hroom : g.slots.length + height ≤ p.limit)
    (hc : CodeAt p.lines k c k') :
    Triple (p.tracker.At k (p.Holds g kept)) (evaluate cx e) ((p.withHeap heap).PushedText g kept len k' A)
      p.Halts := by
  cases hcode with
  | converted _ hcode hconvert =>
    cases he.kind_eq hg hcode
    cases hconvert with
    | same =>
      rw [List.append_nil] at hc
      exact he.run hg hcode hroom hc

theorem Pushes.mono (he : p.Pushes cx f e kind height heap) (hheap : heap.Within heap') :
    p.Pushes cx f e kind height heap' where
  singleChar? := he.singleChar?
  kind_eq := he.kind_eq
  run hg hcode hroom hc := (he.run hg hcode hroom hc).post fun _ _ ⟨hv, core, hg, h⟩ =>
    ⟨hv, core, hg, Holds.widened (p := p.withHeap heap) h hheap⟩

theorem follows_literalText (hx : Triple P x (p.PushedText f kept len k A) p.Halts) :
    Triple P (Evaluation.literal span x) (p.PushedText f kept len k A) p.Halts := by
  apply Triple.literal hx (fun _ _ hs _ => hs)
  rintro fn s e ⟨a, t, ht, -⟩
  cases ht

theorem follows_text {α : Type} {F : Value → Run α} {Q : α → State → Prop}
    (hrun : ∀ {a t}, A t → Triple (p.tracker.At k
      ((p.withHeap (p.having a t)).Holds (f.push .string len) (Function.update kept f.slots.length a))) (F (.text t)) Q
        p.Halts) :
    Triple (p.PushedText f kept len k A v) (F v) Q p.Halts := by
  rintro s ⟨a, t, rfl, ht, hs⟩
  exact hrun ht s hs

theorem Holds.pushedText (h : (p.withHeap (p.having a t)).Holds f kept s core) (ht : A t) (hrd : rd ≠ .sp)
    (ha : core.get rd = a) (hg : Reaches p.layout p.lines p.start ⟨core, k⟩) (hroom : f.slots.length < p.limit)
    (hc : CodeAt p.lines k (push rd) k') : p.PushedText f kept len k' A (.text t) s := by
  obtain ⟨core', hg', h', -⟩ := Holds.pushed (p := p.withHeap (p.having a t)) .string len hrd hg h hroom hc
  rw [ha] at h'
  exact ⟨a, t, rfl, ht, core', hg', h'⟩

theorem Holds.returned (h : p.Holds f kept s core) (hclear : p.Clear n) (hreturned : Returned core core' t)
    (hsize : textSize t ≤ n) (ht : A t) (hg : Reaches p.layout p.lines p.start ⟨core', k⟩)
    (hroom : f.slots.length < p.limit) (hc : CodeAt p.lines k (push .a0) k') :
    (p.withHeap (p.heap.grown n)).PushedText f kept len k' A (.text t) s := by
  have hwritten := h.written hclear hreturned.toNewText hsize hreturned.above (hreturned.registers .sp (by decide))
  exact Holds.pushedText (p := p.withHeap (p.heap.grown n)) hwritten ht (by decide) hreturned.address hg hroom hc

end

end Workspace

/-! Expressions that take bytes from the heap -/

/--
Where the heap has space for a number of bytes, the code of an expression pushes the word of its value, and takes no
more bytes from the heap.
-/
def Takes (cx : Context) (f : Frame) (e : Expr) (kind : SlotKind) (height n : Nat) : Prop :=
  ∀ ⦃p : Workspace⦄, p.Clear n → p.Pushes cx f e kind height (p.heap.grown n)

def TakesText (cx : Context) (f : Frame) (e : Expr) (height n : Nat) (A : String → Prop) : Prop :=
  ∀ ⦃p : Workspace⦄, p.Clear n → p.PushesText cx f e height (p.heap.grown n) A

variable {cx : Context} {f : Frame} {e l r : Expr} {kind : SlotKind} {height h h' n m i : Nat} {A B : String → Prop}
  {span : Span} {name array : String} {s elem : Scalar} {c : List Line}

theorem Takes.follows {p : Workspace} (he : Takes cx f e kind height n) (hclear : p.Clear n) :
    p.Follows cx f e kind height (p.heap.grown n) :=
  fun _ hlinked _ _ => he (hclear.relisted hlinked)

namespace TakesText

theorem literal {raw : String} (hended : '\x00' ∉ (Text.unescape raw).toList) :
    TakesText cx f (.literal span (.string raw)) 1 (textSize (Text.unescape raw)) (· = Text.unescape raw) := by
  intro p hclear
  constructor
  · intro g n n' kind len c _ hcode
    cases hcode with
    | literal hl =>
      cases hl
      rfl
  · intro g n n' k k' len c kept _ hcode hroom hc
    cases hcode with
    | literal hl =>
      cases hl
      rintro s ⟨core, hg, h⟩
      rw [Lowering.stringCode, List.append_assoc, List.cons_append, List.singleton_append] at hc
      obtain ⟨i, hg, -, hc⟩ := hg.comment hc
      obtain ⟨hmv, hc⟩ := codeAt_instruction.mp hc
      obtain ⟨j, hpush, hwords⟩ := codeAt_append.mp hc
      have hg₁ : Reaches p.layout p.lines p.start ⟨core.set .t0 (core.get .hp), i + 1⟩ :=
        hg.step (step_instruction hmv rfl)
      have h₁ : p.Holds g kept s (core.set .t0 (core.get .hp)) := Workspace.Holds.set h (by decide) (by decide)
      obtain ⟨core₂, hg₂, h₂, hhp⟩ := h₁.pushed .string none (by decide) hg₁ (by omega) hpush
      rw [Core.get_set (by decide)] at h₂
      rw [Core.get_set_of_ne (by decide)] at hhp
      obtain ⟨memory, hheap, -⟩ := h₂.heap
      have hbound := hclear.room _ _ hheap
      have hhalf := hclear.half
      obtain ⟨core₃, hg₃, hnew, habove, hregisters⟩ :=
        newText_of_words hended (hclear.aligned _ _ hheap) (by omega) hwords hg₂
      have h₃ := h₂.written hclear hnew (Nat.le_refl _) habove (hregisters .sp (by decide))
      rw [hhp] at h₃
      exact ⟨_, _, rfl, rfl, core₃, hg₃, h₃⟩

theorem var (hname : Declares f name .string) : TakesText cx f (.var span name) 1 0 fun _ => True := by
  intro p hclear
  constructor
  · intro g n n' kind len c hg hcode
    cases hcode with
    | var hslot => exact hname.kind_eq hg hslot
  · intro g n n' k k' len c kept hg hcode hroom hc
    generalize hstring : SlotKind.string = kind at hcode
    cases hcode with
    | @var _ _ _ _ offset slot hslot =>
      rintro s ⟨core, hreaches, h⟩
      obtain ⟨t, hget, ht⟩ := Workspace.Holds.textOf h hclear hname.plain hslot hstring.symm
      obtain ⟨hload, hpush⟩ := codeAt_instruction.mp hc
      have hgrown := h.widened (hclear.within_grown (m := 0))
      have hspent : (p.withHeap (p.heap.grown 0)).Clear 0 := Workspace.Clear.grown (m := 0) hclear
      let a := core.loadWord (core.get .sp + .ofInt 32 offset)
      let q := p.withHeap (p.heap.grown 0)
      have hhaving : (q.withHeap (q.having a t)).Holds g kept s (core.set .t0 a) :=
        (Workspace.Holds.having hgrown hspent ht).set (by decide) (by decide)
      rw [evaluate, readVariable_eq hget]
      exact Workspace.Holds.pushedText (p := q) hhaving trivial (by decide)
        (Core.get_set (by decide)) (hreaches.step (step_instruction hload rfl)) (Nat.lt_of_succ_le hroom) hpush

theorem grouping (he : TakesText cx f e h n A) : TakesText cx f (.grouping span e) h n A := by
  intro p hclear
  constructor
  · intro g n n' kind len c hg hcode
    cases hcode with
    | grouping hcode => exact (he hclear).kind_eq hg hcode
  · intro g n n' k k' len c kept hg hcode hroom hc
    cases hcode with
    | grouping hcode =>
      rw [evaluate]
      exact (he hclear).run hg hcode hroom hc

theorem assign (hname : Declares f name .string) (he : TakesText cx f e h n A) :
    TakesText cx f (.assign span name .set e) h n A := by
  intro p hclear
  constructor
  · intro g n n' kind len c hg hcode
    cases hcode with
    | assign hslot hkind => rw [← hkind, hname.kind_eq hg hslot]
    | compound _ _ hop => cases hop
  · intro g _ _ k k' len c kept hg hcode hroom hc
    cases hcode with
    | compound _ _ hop => cases hop
    | @assign _ _ _ _ _ _ offset slot _ _ _ hslot hkind hcode =>
      obtain ⟨m, hc₁, hc₂⟩ := codeAt_append.mp hc
      simp only [codeAt_instruction, codeAt_nil] at hc₂
      obtain ⟨hlw, hsw, rfl⟩ := hc₂
      rw [evaluate]
      apply Triple.bind (Workspace.follows_literalText (p := p.withHeap (p.heap.grown n))
        ((he hclear).asked hg hcode hroom hc₁))
      rintro _ s ⟨a, t, rfl, ht, core, hreaches, h⟩
      have hspent : (p.withHeap (p.heap.grown n)).Clear 0 := Workspace.Clear.grown (m := 0) hclear
      let q := (p.withHeap (p.heap.grown n)).withHeap ((p.withHeap (p.heap.grown n)).having a t)
      have hq : q.Clear 0 := hspent.having
      have h : q.Holds (g.push .string len) (Function.update kept g.slots.length a) s core := h
      have hslot' : (g.push .string len).resolve? name = some (offset + wordBytes, slot) := by
        rw [Frame.resolve?_push, hslot]
        rfl
      have h₁ : q.Holds (g.push .string len) (Function.update kept g.slots.length a) s (core.set .t0 a) :=
        h.set (by decide) (by decide)
      have htext : TextIn q.heap.place (core.set .t0 a).memory ((core.set .t0 a).get .hp) a t :=
        h₁.textIn hq (h₁.heap.mono fun _ _ hheap => hheap.2)
      obtain ⟨env, hset, h₂⟩ := h₁.storedText hq hname.plain hslot' hkind htext
      obtain ⟨u, hget, -⟩ := h₁.textOf hq hname.plain hslot' hkind
      have hloaded : Reaches p.layout p.lines p.start ⟨core.set .t0 a, m + 1⟩ := by
        apply hreaches.step (step_instruction hlw _)
        simp [effect, Workspace.Holds.top h]
      rw [assign_eq hget rfl rfl hset]
      refine ⟨a, t, rfl, ht, _, hloaded.step (step_instruction hsw ?_), h₂⟩
      rw [effect, Core.get_set (by decide), Core.get_set_of_ne (by decide)]

end TakesText

/-! Calls of embedded functions -/

theorem Workspace.follows_call {p : Workspace} {g : Frame} {kept : Nat → Word} {k : Nat} {callee arg : Expr}
    {fn : Embedded}
    {Q : Value → State → Prop} (hcallee : embeddedCallee callee = .ok fn)
    (hrun : Triple (p.tracker.At k (p.Holds g kept)) (do
      let v ← Evaluation.literal arg.span (evaluate cx arg)
      liftAt span (fn.apply [v])) Q p.Halts) :
    Triple (p.tracker.At k (p.Holds g kept)) (evaluate cx (.call span callee [arg])) Q p.Halts := by
  obtain ⟨place, rfl⟩ := embeddedCallee_eq hcallee
  rintro s ⟨core, hg, h⟩
  rw [evaluate_call cx (Workspace.Holds.bound h |>.embedded fn)]
  exact hrun s ⟨core, hg, h⟩

theorem TakesText.spelled {callee : Expr} (hcallee : embeddedCallee callee = .ok .toText) (hpos : 0 < h)
    (he : Takes cx f e .int h n) : TakesText cx f (.call span callee [e]) h (n + 12) fun _ => True := by
  intro p hclear
  have he := he (hclear.mono (Nat.le_add_right n 12))
  constructor
  · intro g n n' kind len c hg hcode
    cases hcode with
    | call hcallee' hcode hfn =>
      cases hcallee.symm.trans hcallee'
      cases he.kind_eq hg hcode
      cases hfn
      rfl
  · intro g _ _ k k' len c kept hg hcode hroom hc
    cases hcode with
    | call hcallee' hcode hfn =>
      cases hcallee.symm.trans hcallee'
      cases he.kind_eq hg hcode
      cases hfn with
      | @spelled _ r _ hr =>
        cases hr
        obtain ⟨m₁, hc₁, hcall⟩ := codeAt_append.mp hc
        obtain ⟨m₂, hpop, hjal, hlength, hpush⟩ := codeAt_call hcall
        let q := p.withHeap (p.heap.grown n)
        have hq : q.Clear 12 := hclear.grown
        apply Workspace.follows_call hcallee
        apply Triple.bind (Tracker.follows_literal (p := q.tracker) (he.run hg hcode hroom hc₁))
        rintro v s ⟨hv, core, hreaches, h⟩
        obtain ⟨i, rfl⟩ := (hv.hasWord nofun).exists_int
        obtain ⟨core₁, hg₁, h₁, ha₀, -⟩ := Workspace.Holds.popped (p := q) hreaches h hpop (by decide) (by decide)
          (by decide)
        obtain ⟨haligned, hspace⟩ := h₁.space hq
        have hsize := textSize_toString_le i
        obtain ⟨core₂, hg₂, hreturned⟩ := returned_intToString p.linked hjal hlength hg₁ ha₀ haligned (by omega)
          (.inl (by omega))
        have hpushed : (q.withHeap (q.heap.grown 12)).PushedText g kept none k' (fun _ => True) _ s :=
          h₁.returned hq hreturned hsize trivial hg₂ (show _ < p.limit by omega) hpush
        exact hpushed.mono Heap.grown_grown fun _ h => h

theorem Workspace.Holds.poppedTexts {p : Workspace} {g : Frame} {kept : Nat → Word} {s : State} {core : Core}
    {a b : Word}
    {kind kind' : SlotKind} {len len' : Option Nat} {k k' : Nat}
    (h : p.Holds ((g.push kind len).push kind' len')
      (Function.update (Function.update kept g.slots.length a) (g.slots.length + 1) b) s core)
    (hg : Reaches p.layout p.lines p.start ⟨core, k⟩) (hc : CodeAt p.lines k (pop .a1 ++ pop .a0) k') :
    ∃ core', Reaches p.layout p.lines p.start ⟨core', k'⟩ ∧ p.Holds g kept s core' ∧ core'.get .a0 = a ∧
      core'.get .a1 = b := by
  obtain ⟨m, hpop₁, hpop₀⟩ := codeAt_append.mp hc
  obtain ⟨core₁, hg₁, h₁, hb, -⟩ := Workspace.Holds.popped hg h hpop₁ (by decide) (by decide) (by decide)
  obtain ⟨core₂, hg₂, h₂, ha, hsame⟩ := Workspace.Holds.popped hg₁ h₁ hpop₀ (by decide) (by decide) (by decide)
  exact ⟨core₂, hg₂, h₂, ha, (hsame .a1 (by decide) (by decide)).trans hb⟩

/--
Two texts are evaluated one after the other. Both lie in the heap then, and the code of their operator follows.
-/
theorem follows_texts {p : Workspace} {g : Frame} {kept : Nat → Word} {op : BinaryOp} {k m₁ m₂ m₃ n₁ n₂ n₃ : Nat}
    {len₁ len₂ : Option Nat} {c₁ c₂ : List Line} {Q : Value → State → Prop} (hclear : p.Clear (n + m + i))
    (hl : TakesText cx f l h n A) (hr : TakesText cx f r h' m B) (hop : op.cls ≠ .logical) (hg : f.Above g)
    (hlcode : ExprCode g n₁ none l .string len₁ c₁ n₂)
    (hrcode : ExprCode (g.push .string len₁) n₂ none r .string len₂ c₂ n₃)
    (hroom : g.slots.length + max h (h' + 1) ≤ p.limit) (hc₁ : CodeAt p.lines k c₁ m₁) (hc₂ : CodeAt p.lines m₁ c₂ m₂)
    (hpops : CodeAt p.lines m₂ (pop .a1 ++ pop .a0) m₃)
    (hrun : ∀ {heap : Heap} {core : Core} {s : State} {t u : String}, heap.Within (p.heap.grown (n + m)) →
      (p.withHeap heap).Clear i → (p.withHeap heap).Holds g kept s core → A t → B u →
      TextAt core (core.get .a0) t → TextAt core (core.get .a1) u →
      Reaches p.layout p.lines p.start ⟨core, m₃⟩ → ∃ v, Value.binary op (.text t) (.text u) = .ok v ∧ Q v s) :
    Triple (p.tracker.At k (p.Holds g kept)) (evaluate cx (.binary span op l r)) Q p.Halts := by
  rw [evaluate_binary _ _ _ _ hop]
  have hspace : (p.withHeap (p.heap.grown n)).Clear (m + i) := Workspace.Clear.grown (Nat.add_assoc n m i ▸ hclear)
  apply Triple.bind (Workspace.follows_literalText (p := p.withHeap (p.heap.grown n))
    ((hl (hclear.mono (by omega))).run hg hlcode (by omega) hc₁))
  rintro _ s₁ ⟨a, t, rfl, ht, hs₁⟩
  let q := (p.withHeap (p.heap.grown n)).withHeap ((p.withHeap (p.heap.grown n)).having a t)
  have hq : q.Clear (m + i) := hspace.having
  have hroom₂ : g.slots.length + 1 + h' ≤ p.limit := by omega
  have hrest : Triple (q.tracker.At m₁ (q.Holds (g.push .string len₁) (Function.update kept g.slots.length a))) (do
      let w ← Evaluation.literal r.span (evaluate cx r)
      liftAt span (Value.binary op (.text t) w)) Q q.Halts := by
    apply Triple.bind (Workspace.follows_literalText (p := q.withHeap (q.heap.grown m))
      ((hr (hq.mono (Nat.le_add_right m i))).run hg.push hrcode hroom₂ hc₂))
    rintro _ s ⟨b, u, rfl, hu, core, hreaches, h⟩
    let q' := (q.withHeap (q.heap.grown m)).withHeap ((q.withHeap (q.heap.grown m)).having b u)
    have hq' : q'.Clear i := (Workspace.Clear.grown hq).having
    have hwithin : q'.heap.Within (p.heap.grown (n + m)) :=
      Workspace.having_within.trans ((Heap.grown_within Workspace.having_within (Nat.le_refl m)).trans Heap.grown_grown)
    obtain ⟨core', hreaches', h', ha₀, ha₁⟩ := Workspace.Holds.poppedTexts (p := q') h hreaches hpops
    have hu' : TextAt core' (core'.get .a1) u := ha₁ ▸ h'.textAt hq' (h'.heap.mono fun _ _ hheap => hheap.2)
    -- The first text is below the bytes that the second one took.
    have ht' : TextAt core' (core'.get .a0) t := by
      refine ha₀ ▸ h'.textAt hq' (h'.heap.mono ?_)
      rintro w memory ⟨⟨⟨w₀, memory₀, ⟨-, htext⟩, hle, -, hbelow⟩, -⟩, -⟩
      exact htext.grown (fun _ h => h) hle hbelow
    obtain ⟨v, hv, hQ⟩ := hrun hwithin hq' h' ht hu ht' hu' hreaches'
    rw [hv]
    exact hQ
  exact hrest s₁ hs₁

theorem TakesText.appended {size : Nat} (hl : TakesText cx f l h n A) (hr : TakesText cx f r h' m B)
    (hsize : ∀ t u, A t → B u → textSize (t ++ u) ≤ size) :
    TakesText cx f (.binary span .add l r) (max h (h' + 1)) (n + m + size) fun w => ∃ t u, A t ∧ B u ∧ w = t ++ u := by
  intro p hclear
  have hleft := hl (hclear.mono (show n ≤ _ by omega))
  have hright := hr (hclear.mono (show m ≤ _ by omega))
  constructor
  · intro g n n' kind len c hg hcode
    cases hcode with
    | logical hop => cases hop
    | binary _ hlcode hrcode hbinary =>
      cases hleft.kind_eq hg hlcode
      cases hright.kind_eq hg.push hrcode
      exact hbinary.kind_eq (.concatenation rfl rfl)
  · intro g _ _ k k' len c kept hg hcode hroom hc
    cases hcode with
    | binary _ hlcode hrcode hbinary =>
      cases hleft.kind_eq hg hlcode
      cases hright.kind_eq hg.push hrcode
      cases hbinary with
      | concatenation =>
        obtain ⟨m₂, hoperands, hcall⟩ := codeAt_append.mp hc
        obtain ⟨m₁, hc₁, hc₂⟩ := codeAt_append.mp hoperands
        obtain ⟨m₃, hpops, hjal, hlength, hpush⟩ := codeAt_call hcall
        apply follows_texts hclear hl hr (by decide) hg hlcode hrcode hroom hc₁ hc₂ hpops
        intro heap core s t u hwithin hspace h ht hu ha₀ ha₁ hreaches
        have hfits := hsize t u ht hu
        obtain ⟨haligned, hbelow⟩ := h.space hspace
        obtain ⟨core', hg', hreturned⟩ := returned_concatString p.linked hjal hlength hreaches ha₀ ha₁ haligned
          (by omega)
        refine ⟨_, rfl, ?_⟩
        have hpushed : (p.withHeap (heap.grown size)).PushedText g kept none k'
            (fun w => ∃ t u, A t ∧ B u ∧ w = t ++ u) (.text (t ++ u)) s :=
          h.returned hspace hreturned hfits ⟨t, u, ht, hu, rfl⟩ hg' (show _ < p.limit by omega) hpush
        exact hpushed.mono ((Heap.grown_within hwithin (Nat.le_refl size)).trans Heap.grown_grown) fun _ h => h

structure Readable (t : String) (i : Int) : Prop where
  read : Decimal.readInt? (Text.trim t).toList = some i
  range : -2 ^ 31 ≤ i ∧ i < 2 ^ 31
  starts : Decimal.startsInt t.toList = true

theorem Readable.leadingInt_eq {t : String} {i : Int} (ht : Readable t i) : Decimal.leadingInt t.toList = i := by
  have hread := ht.read
  rw [Text.trim, String.toList_ofList] at hread
  exact Decimal.leadingInt_eq_of_readInt? ht.starts hread

namespace Takes

theorem mono (he : Takes cx f e kind h n) (hn : n ≤ m) : Takes cx f e kind h m :=
  fun _ hclear => (he (hclear.mono hn)).mono (Heap.grown_within (.refl _) hn)

theorem of_onWords (he : OnWords f e s h) : Takes cx f e (.scalar s) h 0 :=
  fun _ hclear => (Workspace.pushes_of_onWords he).mono hclear.within_grown

theorem grouping (he : Takes cx f e kind h n) : Takes cx f (.grouping span e) kind h n :=
  fun _ hclear => .grouping (he hclear)

theorem unary {op : UnaryOp} (hpos : 0 < h) (he : Takes cx f e kind h n) : Takes cx f (.unary span op e) kind h n :=
  fun _ hclear => .unary hpos (he hclear)

theorem assign (hname : Declares f name (.scalar s)) (hcell : s.isCell = true) (he : Takes cx f e (.scalar s) h n) :
    Takes cx f (.assign span name .set e) (.scalar s) h n :=
  fun _ hclear => .assign hname hcell (he hclear)

theorem index {i : Expr} (hname : Declares f array (.array elem)) (hcell : elem.isCell = true) (hpos : 0 < h)
    (hi : Takes cx f i .int h n) : Takes cx f (.index span array i) (.scalar elem) h n :=
  fun _ hclear => .index hname hcell hpos (hi hclear)

section Two

theorem next {p : Workspace} (he : Takes cx f e kind h m) (hclear : p.Clear (n + m)) :
    (p.withHeap (p.heap.grown n)).Pushes cx f e kind h (p.heap.grown (n + m)) :=
  (he (p := p.withHeap (p.heap.grown n)) hclear.grown).mono Heap.grown_grown

theorem first {p : Workspace} (he : Takes cx f e kind h n) (hclear : p.Clear (n + m)) :
    p.Pushes cx f e kind h (p.heap.grown n) :=
  he (hclear.mono (Nat.le_add_right n m))

theorem logical {op : BinaryOp} (hop : op.cls = .logical) (hpos : 0 < h) (hl : Takes cx f l .bool h n)
    (hr : Takes cx f r .bool h' m) : Takes cx f (.binary span op l r) .bool (max h h') (n + m) :=
  fun _ hclear => .logical hop hpos (hl.first hclear) (hr.next hclear)
    (Heap.grown_within (.refl _) (Nat.le_add_right n m))

theorem binary {op : BinaryOp} {left right : SlotKind} (hop : op.cls ≠ .logical)
    (hcode : BinaryCode op left right kind c)
    (hplus : op = .add → left ≠ .char) (hl : Takes cx f l left h n) (hr : Takes cx f r right h' m) :
    Takes cx f (.binary span op l r) kind (max h (h' + 1)) (n + m) :=
  fun _ hclear => .binary hop hcode hplus (hl.first hclear) (hr.next hclear)

theorem ternary {cond t : Expr} {h₁ h₂ : Nat} (hcond : Takes cx f cond .bool h n) (ht : Takes cx f t kind h₁ m)
    (he : Takes cx f e kind h₂ m) : Takes cx f (.ternary span cond t e) kind (max h (max h₁ h₂)) (n + m) :=
  fun _ hclear => .ternary (hcond.first hclear) (ht.next hclear) (he.next hclear)

theorem indexAssign {i : Expr} (hname : Declares f array (.array elem)) (hcell : elem.isCell = true)
    (hi : Takes cx f i .int h n) (he : Takes cx f e (.scalar elem) h' m) :
    Takes cx f (.indexAssign span array i .set e) (.scalar elem) (max h (h' + 1)) (n + m) :=
  fun _ hclear => .indexAssign hname hcell (hi.first hclear) (he.next hclear)

end Two

theorem parsed {callee : Expr} (hcallee : embeddedCallee callee = .ok .parseInt) (hpos : 0 < h)
    (he : TakesText cx f e h n A) (hA : ∀ t, A t → ∃ i, Readable t i) :
    Takes cx f (.call span callee [e]) .int h n := by
  intro p hclear
  have he := he hclear
  constructor
  · rfl
  · intro g n n' kind len c hg hcode
    cases hcode with
    | call hcallee' hcode hfn =>
      cases hcallee.symm.trans hcallee'
      cases hfn
      rfl
  · intro g _ _ k k' len c kept hg hcode hroom hc
    cases hcode with
    | call hcallee' hcode hfn =>
      cases hcallee.symm.trans hcallee'
      cases he.kind_eq hg hcode
      cases hfn with
      | parseInt =>
        obtain ⟨m₁, hc₁, hcall⟩ := codeAt_append.mp hc
        obtain ⟨m₂, hpop, hjal, hlength, hpush⟩ := codeAt_call hcall
        apply Workspace.follows_call hcallee
        apply Triple.bind (Workspace.follows_literalText (p := p.withHeap (p.heap.grown n)) (he.run hg hcode hroom hc₁))
        intro v
        apply Workspace.follows_text (p := p.withHeap (p.heap.grown n))
        intro a t ht
        obtain ⟨i, hi⟩ := hA t ht
        rw [apply_parseInt hi.read hi.range]
        rintro s ⟨core, hreaches, h⟩
        let q := (p.withHeap (p.heap.grown n)).withHeap ((p.withHeap (p.heap.grown n)).having a t)
        have hq : q.Clear 0 := (Workspace.Clear.grown (m := 0) hclear).having
        obtain ⟨core₁, hg₁, h₁, ha₀, -⟩ := Workspace.Holds.popped (p := q) hreaches h hpop (by decide) (by decide)
          (by decide)
        have htext : TextAt core₁ (core₁.get .a0) t := ha₀ ▸ h₁.textAt hq (h₁.heap.mono fun _ _ hheap => hheap.2)
        obtain ⟨core₂, hg₂, hanswered⟩ := answered_parseInt p.linked hjal hlength hg₁ htext.stored
        have h₂ : q.Holds g kept s core₂ := h₁.onlySets hanswered.changes (by decide) (by decide)
        obtain ⟨core₃, hg₃, h₃, -⟩ := Workspace.Holds.pushed (p := q) .int none (by decide) hg₂ h₂
          (show _ < p.limit by omega) hpush
        rw [hanswered.result, hi.leadingInt_eq] at h₃
        exact ⟨.int _, core₃, hg₃, Workspace.Holds.widened (p := q) h₃ Workspace.having_within⟩

theorem runLines_textTest {L : Layout} {core : Core} {op : BinaryOp} {t u : String} (hop : op = .eq ∨ op = .ne)
    (h : core.get .a0 = wordOf (.bool (t == u))) :
    ∃ b, Value.binary op (.text t) (.text u) = .ok (.bool b) ∧
      runLines L core (if op = .ne then [.xori .a0 .a0 1] else []) = some (core.set .a0 (wordOf (.bool b))) := by
  rcases hop with rfl | rfl
  · refine ⟨t == u, rfl, ?_⟩
    rw [← h, Core.set_get (by decide)]
    rfl
  · refine ⟨!(t == u), rfl, ?_⟩
    rw [if_pos rfl, runLines_cons, runLine, effect, h]
    cases t == u <;> rfl

theorem compared {op : BinaryOp} (hop : op = .eq ∨ op = .ne) (hl : TakesText cx f l h n A)
    (hr : TakesText cx f r h' m B) :
    Takes cx f (.binary span op l r) .bool (max h (h' + 1)) (n + m) := by
  intro p hclear
  have hcls : op.cls = .equality := by
    rcases hop with rfl | rfl <;> rfl
  have hlogical : op.cls ≠ .logical := by simp [hcls]
  have hleft := hl (hclear.mono (show n ≤ _ by omega))
  have hright := hr (hclear.mono (show m ≤ _ by omega))
  constructor
  · rfl
  · intro g n n' kind len c hg hcode
    cases hcode with
    | logical hop' => exact absurd hop' hlogical
    | binary _ hlcode hrcode hbinary =>
      cases hleft.kind_eq hg hlcode
      cases hright.kind_eq hg.push hrcode
      exact hbinary.kind_eq (.texts hcls rfl rfl (by simp))
  · intro g _ _ k k' len c kept hg hcode hroom hc
    cases hcode with
    | logical hop' => exact absurd hop' hlogical
    | binary _ hlcode hrcode hbinary =>
      cases hleft.kind_eq hg hlcode
      cases hright.kind_eq hg.push hrcode
      cases hbinary with
      | words hwords => rcases hop with rfl | rfl <;> cases hwords
      | comparedFloats _ hleft => cases hleft
      | texts =>
        obtain ⟨m₂, hoperands, hcall⟩ := codeAt_append.mp hc
        obtain ⟨m₁, hc₁, hc₂⟩ := codeAt_append.mp hoperands
        obtain ⟨m₅, hcall, hpush⟩ := codeAt_append.mp hcall
        obtain ⟨m₄, hcall, hnegate⟩ := codeAt_append.mp hcall
        obtain ⟨m₃, hpops, hcall⟩ := codeAt_append.mp hcall
        obtain ⟨hjal, rfl⟩ := codeAt_instruction.mp hcall
        have hlength : m₃ + 1 < p.lines.length :=
          Nat.lt_of_le_of_lt hnegate.le (List.getElem?_eq_some_iff.mp (codeAt_instruction.mp hpush).1).1
        have hspace : p.Clear (n + m + 0) := hclear
        apply follows_texts hspace hl hr hlogical hg hlcode hrcode hroom hc₁ hc₂ hpops
        intro heap core s t u hwithin _ h _ _ ha₀ ha₁ hreaches
        obtain ⟨core₁, hg₁, hcompared⟩ := compared_strEquals p.linked hjal hlength hreaches ha₀ ha₁
        have h₁ : (p.withHeap heap).Holds g kept s core₁ :=
          Workspace.Holds.congr h hcompared.memory (hcompared.registers .sp (by decide))
            (hcompared.registers .hp (by decide))
        have hresult : core₁.get .a0 = wordOf (.bool (t == u)) := by
          rw [hcompared.result]
          change (if t == u then 1 else 0) = _
          cases t == u <;> rfl
        obtain ⟨b, hb, hrun⟩ := runLines_textTest (L := p.layout) hop hresult
        have hg₂ := Reaches.straight hnegate hrun hg₁
        have h₂ : (p.withHeap heap).Holds g kept s (core₁.set .a0 (wordOf (.bool b))) := h₁.set (by decide) (by decide)
        obtain ⟨core₃, hg₃, h₃, -⟩ := Workspace.Holds.pushed (p := p.withHeap heap) .bool none (by decide) hg₂ h₂
          (show _ < p.limit by omega) hpush
        rw [Core.get_set (by decide)] at h₃
        exact ⟨_, hb, .bool b, core₃, hg₃, Workspace.Holds.widened (p := p.withHeap heap) h₃ hwithin⟩

end Takes

end Arbor.Machine
