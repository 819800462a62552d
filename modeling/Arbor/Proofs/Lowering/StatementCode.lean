import Mathlib.Data.List.Forall2
import Arbor.Lowering.Generator
import Arbor.Proofs.Lowering.ExpressionCode

/-!
This module contains the proof that lowering a statement writes the code of the statement, and what the code of a
statement leaves on the stack.
-/

namespace Arbor.Lowering

open Assembly

variable {limit : Nat} {j : JumpTargets} {f f' : Frame} {n n' : Nat} {d d' : DataSection} {c : List Line}

/-! Frames -/

theorem ItemsCode.extends {elem? : Option Scalar} {items : List Expr} {elem : Scalar}
    (h : ItemsCode f n elem? items elem c f' n') :
    ∃ added, f.Extends f' added ∧ added.length = items.length := by
  induction h with
  | nil => exact ⟨[], .refl, rfl⟩
  | known _ _ ih | first _ _ ih =>
    obtain ⟨added, hadded, hlength⟩ := ih
    exact ⟨_, Frame.Extends.push.trans hadded, by simp [hlength]⟩

theorem StmtCode.extends {p : Part} (h : StmtCode limit j f n d p c f' n' d') :
    ∃ added, f.Extends f' added := by
  induction h with
  | declared | zeroed | inferred | arrayDecl => exact ⟨_, .pushNamed ..⟩
  | block _ ih => exact ih
  | cons _ _ ih₁ ih₂ =>
    obtain ⟨_, h₁⟩ := ih₁
    obtain ⟨_, h₂⟩ := ih₂
    exact ⟨_, h₁.trans h₂⟩
  | _ => exact ⟨[], .refl⟩

theorem StmtCode.frame_scope {body : List Stmt}
    (h : StmtCode limit j f n d (.scope body) c f' n' d') : f' = f := by
  cases h with
  | scope => rfl

theorem StmtCode.frame_bodies {bodies : List (Label × List Stmt)}
    (h : StmtCode limit j f n d (.bodies bodies) c f' n' d') : f' = f := by
  cases h with
  | noBody | body => rfl

theorem StmtCode.nested {p : Part} (h : StmtCode limit j f n d p c f' n' d') (hf : f.Nested) :
    f'.Nested := by
  obtain ⟨added, hadded⟩ := h.extends
  exact hf.of_extends hadded

theorem StmtCode.bytes_le {p : Part} (h : StmtCode limit j f n d p c f' n' d') :
    f.bytes ≤ f'.bytes := by
  obtain ⟨added, hadded⟩ := h.extends
  exact hadded.bytes_le

/-! Combinators -/

/--
A computation that ends well has written the code of a part of a program.
-/
def Performs (limit : Nat) (p : Part) (x : Lower Unit) : Prop :=
  ∀ (s s' : State) (u : Unit), Yields x s u s' → s.frame.Nested →
    ∃ c f n d, StmtCode limit s.targets s.frame s.nextLabel s.data p c f n d ∧ s' = s.write c f n d

variable {x y : Lower Unit} {s s' : State} {u : Unit} {span : Span}

theorem Performs.inScope {body : List Stmt} (hx : Performs limit (.seq body) x) :
    Performs limit (.scope body) (inScope x) := by
  intro s s' u h hs
  rw [yields_inScope] at h
  obtain ⟨t, ht, rfl⟩ := h
  obtain ⟨c, f, n, d, hcode, rfl⟩ := hx _ _ _ ht hs.openScope
  obtain ⟨added, hadded⟩ := hcode.extends
  have hclose := hs.closeScope hadded
  refine ⟨_, _, n, d, .scope hcode, ?_⟩
  simp [hclose]

theorem Performs.single {stmt : Stmt} (hx : Performs limit (.stmt stmt) x) :
    Performs limit (.seq [stmt]) x := by
  intro s s' u h hs
  obtain ⟨c, f, n, d, hcode, rfl⟩ := hx _ _ _ h hs
  refine ⟨c, f, n, d, ?_, rfl⟩
  have := StmtCode.cons hcode .nil
  rwa [List.append_nil] at this

theorem Performs.asBody {stmt : Stmt} (hx : Performs limit (.stmt stmt) x) :
    Performs limit (.scope stmt.bodyOf) (asBody stmt.isBlock x) := by
  have hother : Performs limit (.scope [stmt]) (Lowering.inScope x) := hx.single.inScope
  cases stmt with
  | block span body =>
    intro s s' u h hs
    obtain ⟨c, f, n, d, hcode, rfl⟩ := hx _ _ _ h hs
    cases hcode with
    | block hcode => exact ⟨c, f, n, d, hcode, rfl⟩
  | _ => exact hother

theorem yields_withBreak {target : JumpTarget} :
    Yields (withBreak target x) s u s' ↔
      ∃ t, Yields x { s with targets := s.targets.pushBreak target } () t ∧
        s' = { t with targets := t.targets.popBreak } := by
  unfold Yields withBreak
  cases x { s with targets := s.targets.pushBreak target } with
  | ok a t => simp [eq_comm]
  | error e t => simp

theorem yields_withContinue {target : JumpTarget} :
    Yields (withContinue target x) s u s' ↔
      ∃ t, Yields x { s with targets := s.targets.pushContinue target } () t ∧
        s' = { t with targets := t.targets.popContinue } := by
  unfold Yields withContinue
  cases x { s with targets := s.targets.pushContinue target } with
  | ok a t => simp [eq_comm]
  | error e t => simp

theorem Performs.loopBody {p : Part} {done next : Label} {level : Int} (hx : Performs limit p x)
    (h : Yields (loopBody done next level x) s u s') (hs : s.frame.Nested) :
    ∃ c f n d, StmtCode limit (s.targets.inLoop done next level) s.frame s.nextLabel s.data p c f n d ∧
      s' = s.write c f n d := by
  simp only [Lowering.loopBody, yields_withBreak, yields_withContinue] at h
  obtain ⟨_, ⟨t, ht, rfl⟩, rfl⟩ := h
  obtain ⟨c, f, n, d, hcode, rfl⟩ := hx _ _ _ ht hs
  exact ⟨c, f, n, d, hcode, rfl⟩

theorem Performs.withBreak {p : Part} {target : JumpTarget} (hx : Performs limit p x)
    (h : Yields (withBreak target x) s u s') (hs : s.frame.Nested) :
    ∃ c f n d, StmtCode limit (s.targets.pushBreak target) s.frame s.nextLabel s.data p c f n d ∧
      s' = s.write c f n d := by
  rw [yields_withBreak] at h
  obtain ⟨t, ht, rfl⟩ := h
  obtain ⟨c, f, n, d, hcode, rfl⟩ := hx _ _ _ ht hs
  exact ⟨c, f, n, d, hcode, rfl⟩

theorem exprCode_of_lowerAs {e : Expr} {target : SlotKind} (h : Yields (lowerAs e target) s u s') :
    ∃ len c n, ExprCode s.frame s.nextLabel (some target) e target len c n ∧
      s' = s.write c (s.frame.push target len) n s.data :=
  (writes_lowerExpr e).asKind h

theorem exprCode_of_lowerCondition {e : Expr} (h : Yields (lowerCondition e) s u s') :
    ∃ len c n, ExprCode s.frame s.nextLabel none e .bool len c n ∧
      s' = s.write (c ++ pop .t0) s.frame n s.data :=
  (writes_lowerExpr e).condition h

/-! Declarations -/

theorem yields_checkFree {name : String} (h : Yields (checkFree span name) s u s') :
    s.frame.isDeclared name = false ∧ s' = s := by
  unfold checkFree at h
  simp only [yields_bind, yields_frame, and_assoc, exists_eq_left, exists_and_left] at h
  cases hdeclared : s.frame.isDeclared name with
  | true => simp [hdeclared] at h
  | false =>
    simp [hdeclared] at h
    exact ⟨rfl, h⟩

theorem performs_varDecl {ty : TypeName} {name : String} {init : Option Expr} :
    Performs limit (.stmt (.varDecl span ty name init)) (lowerVarDecl span ty name init) := by
  intro s s' u h _
  unfold lowerVarDecl at h
  simp only [yields_bind] at h
  obtain ⟨_, t₁, h₁, _, t₂, h₂, h₃⟩ := h
  obtain ⟨hfree, rfl⟩ := yields_checkFree h₁
  unfold lowerInit at h₂
  split at h₂
  · next scalar e hscalar =>
    obtain ⟨len, c, n, hcode, rfl⟩ := exprCode_of_lowerAs h₂
    simp at h₃
    exact ⟨c, _, n, _, .declared hfree hscalar hcode, h₃⟩
  · next scalar hscalar =>
    simp [pushZero] at h₂
    subst h₂
    simp at h₃
    exact ⟨_, _, _, _, .zeroed hfree hscalar, h₃⟩
  · next e hscalar =>
    split at h₂
    · next hvar =>
      subst hvar
      rw [yields_bind] at h₂
      obtain ⟨kind, t, ht, h₂⟩ := h₂
      obtain ⟨len, c, n, hcode, rfl⟩ := writes_lowerExpr e _ _ _ ht
      cases kind with
      | array elem => simp [SlotKind.scalar?] at h₂
      | scalar scalar =>
        simp [SlotKind.scalar?] at h₂
        subst h₂
        simp at h₃
        exact ⟨c, _, n, _, .inferred hfree hcode, h₃⟩
    · rw [yields_fail] at h₂
      exact h₂.elim
  · rw [yields_fail] at h₂
    exact h₂.elim

theorem itemsCode_of_yields {elem? elem?' : Option Scalar} {items : List Expr}
    (h : Yields (pushElements elem? items) s elem?' s') :
    ∀ elem, elem?' = some elem → ∃ c f n, ItemsCode s.frame s.nextLabel elem? items elem c f n ∧
      s' = s.write c f n s.data := by
  induction items generalizing s elem? with
  | nil =>
    rintro elem rfl
    simp only [pushElements, yields_pure] at h
    obtain ⟨rfl, rfl⟩ := h
    exact ⟨[], _, _, .nil, State.write_nil.symm⟩
  | cons e rest ih =>
    rintro elem rfl
    unfold pushElements at h
    split at h
    · cases ‹_ = []›
    · rw [yields_fail] at h
      exact h.elim
    · next e' rest' _ heq =>
      cases heq
      cases elem? with
      | some elem' =>
        simp only [yields_bind] at h
        obtain ⟨_, t, ht, h⟩ := h
        obtain ⟨len, c₁, n₁, hcode, rfl⟩ := exprCode_of_lowerAs ht
        obtain ⟨c₂, f, n, hitems, rfl⟩ := ih h elem rfl
        have helem : elem' = elem := by
          cases hitems <;> rfl
        subst helem
        exact ⟨_, f, n, .known hcode hitems, by simp⟩
      | none =>
        simp only [yields_bind] at h
        obtain ⟨kind, t, ht, h⟩ := h
        obtain ⟨len, c₁, n₁, hcode, rfl⟩ := writes_lowerExpr e _ _ _ ht
        cases kind with
        | array elem' => simp [SlotKind.scalar?] at h
        | scalar elem' =>
          simp only [SlotKind.scalar?] at h
          obtain ⟨c₂, f, n, hitems, rfl⟩ := ih h elem rfl
          have helem : elem' = elem := by
            cases hitems <;> rfl
          subst helem
          exact ⟨_, f, n, .first hcode hitems, by simp⟩

theorem yields_popElements {added : List Slot} (hf : f.Extends s.frame added)
    (h : Yields (popElements span added.length) s u s') :
    s' = s.write (collectCode added.length) f s.nextLabel s.data := by
  induction added generalizing s with
  | nil =>
    have hframe : s.frame = f := by
      have hslots := hf.slots
      have hdepth := hf.depth
      revert hslots hdepth
      cases s.frame
      cases f
      simp_all
    simp only [List.length_nil, popElements, yields_pure] at h
    rw [h.2, ← hframe]
    exact State.write_nil.symm
  | cons slot rest ih =>
    have hpop : s.frame.pop = .ok (slot, { s.frame with slots := rest ++ f.slots }) := by
      unfold Frame.pop
      rw [hf.slots]
      rfl
    have hrest : f.Extends { s.frame with slots := rest ++ f.slots } rest :=
      ⟨rfl, hf.depth, fun s hs => hf.size s (List.mem_cons_of_mem _ hs),
        fun s hs => hf.scope s (List.mem_cons_of_mem _ hs)⟩
    simp only [List.length_cons, popElements, yields_bind, yields_popValue, hpop] at h
    obtain ⟨_, t₁, ⟨_, _, heq, rfl⟩, _, t₂, h₂, h₃⟩ := h
    cases heq
    rw [yields_emit (by simp)] at h₂
    subst h₂
    rw [ih (by exact hrest) h₃]
    simp [collectCode]

@[simp]
theorem yields_pushArray {elem : Scalar} {length : Option Nat} :
    Yields (pushArray elem length) s u s' ↔
      s' = s.write (push .t0) (s.frame.push (.array elem) length) s.nextLabel s.data := by
  simp [pushArray]

@[simp]
theorem called_heapRegion : called heapRegion = [] := by
  simp [heapRegion]

@[simp]
theorem called_fillLoop (top done : Label) : called (fillLoop top done) = [] := by
  simp [fillLoop]

@[simp]
theorem called_copyLoop (top done : Label) : called (copyLoop top done) = [] := by
  simp [copyLoop]

@[simp]
theorem called_unrolledFill (length : Nat) : called (unrolledFill length) = [] := by
  apply called_eq_nil
  intro l hl
  unfold unrolledFill at hl
  obtain ⟨i, -, rfl⟩ := List.mem_map.mp hl
  simp

@[simp]
theorem called_unrolledCopy (length : Nat) : called (unrolledCopy length) = [] := by
  apply called_eq_nil
  intro l hl
  unfold unrolledCopy at hl
  obtain ⟨i, -, hl⟩ := List.mem_flatMap.mp hl
  simp only [List.mem_cons, List.not_mem_nil, or_false] at hl
  rcases hl with rfl | rfl <;> simp

@[simp]
theorem yields_emitLoop {lines : Label → Label → List Line}
    (hlines : ∀ top done, called (lines top done) = []) :
    Yields (emitLoop lines) s u s' ↔
      s' = s.write (lines (.numbered s.nextLabel) (.numbered (s.nextLabel + 1))) s.frame
        (s.nextLabel + 2) s.data := by
  simp [emitLoop, hlines, and_assoc]

theorem yields_emitUpTo {length : Nat} {unrolled : Nat → List Line}
    {lines : Label → Label → List Line} (hunrolled : ∀ n, called (unrolled n) = [])
    (hlines : ∀ top done, called (lines top done) = []) :
    Yields (emitUpTo limit length unrolled lines) s u s' ↔
      s' = s.write (upToCode limit length s.nextLabel unrolled lines) s.frame
        (s.nextLabel + upToLabels limit length) s.data := by
  unfold emitUpTo upToCode upToLabels
  split
  · simp [hunrolled]
  · simp [hlines]

theorem arrayCode_of_copied {declared : Option Scalar} {elem : Scalar} {source : String} {offset : Int}
    {slot : Slot} (hslot : s.frame.resolve? source = some (offset, slot))
    (hkind : slot.kind = .array elem) (hdeclared : ∀ s, declared = some s → s = elem)
    (h : Yields (do
      let (offset, slot) ← resolve span source
      emit [.lw .t1 offset .sp]
      match slot.length with
      | some n =>
        loadRegion n
        emitUpTo limit n unrolledCopy copyLoop
        pushArray elem (some n)
      | none =>
        emit (.lw .t2 (-wordBytes) .t1 :: heapRegion)
        emitLoop copyLoop
        pushArray elem none) s u s') :
    ∃ elem len c n d, ArrayCode limit s.frame s.nextLabel s.data declared (.copyOf source) elem len c n d ∧
      s' = s.write c (s.frame.push (.array elem) len) n d := by
  simp only [yields_bind, yields_resolve] at h
  obtain ⟨⟨offset', slot'⟩, _, ⟨hslot', rfl⟩, _, t₂, h₂, h⟩ := h
  rw [hslot] at hslot'
  cases hslot'
  simp at h₂
  subst h₂
  cases hlength : slot.length with
  | some length =>
    simp only [hlength, yields_bind] at h
    obtain ⟨_, t₃, h₃, _, t₄, h₄, h₅⟩ := h
    rw [yields_loadRegion] at h₃
    subst h₃
    rw [yields_emitUpTo called_unrolledCopy called_copyLoop] at h₄
    subst h₄
    simp at h₅
    refine ⟨elem, some length, _, _, _, .copied hslot hkind hdeclared hlength, ?_⟩
    simp [h₅, regionCode]
  | none =>
    simp only [hlength, yields_bind] at h
    obtain ⟨_, t₃, h₃, _, t₄, h₄, h₅⟩ := h
    simp at h₃
    subst h₃
    simp at h₄
    subst h₄
    simp at h₅
    refine ⟨elem, none, _, _, _, .copiedHeap hslot hkind hdeclared hlength, ?_⟩
    simp [h₅]

theorem arrayCode_of_yields {declared : Option Scalar} {init : ArrayInit}
    (h : Yields (lowerArrayInit limit span declared init) s u s') :
    ∃ elem len c n d, ArrayCode limit s.frame s.nextLabel s.data declared init elem len c n d ∧
      s' = s.write c (s.frame.push (.array elem) len) n d := by
  cases init with
  | values items =>
    unfold lowerArrayInit arrayOfValues at h
    rw [yields_bind] at h
    obtain ⟨elem?, t₁, h₁, h⟩ := h
    have hitems := itemsCode_of_yields h₁
    cases elem? with
    | none => simp at h
    | some elem =>
      obtain ⟨c, f, n, hcode, rfl⟩ := hitems elem rfl
      simp only [yields_bind] at h
      obtain ⟨_, t₂, h₂, _, t₃, h₃, h₄⟩ := h
      rw [yields_loadRegion] at h₂
      subst h₂
      obtain ⟨added, hadded, hlength⟩ := hcode.extends
      rw [← hlength] at h₃
      rw [yields_popElements (by simpa using hadded) h₃] at h₄
      simp at h₄
      refine ⟨elem, some items.length, _, n, _, .values hcode, ?_⟩
      simp [h₄, regionCode, hlength]
  | sized length =>
    cases declared with
    | none =>
      rw [lowerArrayInit, yields_fail] at h
      exact h.elim
    | some elem =>
      unfold lowerArrayInit sizedArray at h
      cases hliteral : intLiteral? length with
      | some k =>
        by_cases hk : k < 0
        · simp [hliteral, hk] at h
        · simp only [hliteral, hk, if_false, yields_bind, yields_liftAt] at h
          obtain ⟨word, _, ⟨hword, rfl⟩, _, t₂, h₂, _, t₃, h₃, _, t₄, h₄, h₅⟩ := h
          rw [yields_loadRegion] at h₂
          subst h₂
          rw [yields_emit (by simp)] at h₃
          subst h₃
          rw [yields_emitUpTo called_unrolledFill called_fillLoop] at h₄
          subst h₄
          simp at h₅
          refine ⟨elem, some word.toNat, _, _, _, .sized hliteral hk hword, ?_⟩
          simp [h₅, regionCode]
      | none =>
        simp only [hliteral, yields_bind] at h
        obtain ⟨_, t₁, h₁, _, t₂, h₂, _, t₃, h₃, _, t₄, h₄, _, t₅, h₅, h₆⟩ := h
        obtain ⟨len, c, n, hcode, rfl⟩ := exprCode_of_lowerAs h₁
        simp [and_assoc] at h₂
        subst h₂
        simp at h₃
        subst h₃
        simp at h₄
        subst h₄
        simp at h₅
        subst h₅
        simp at h₆
        refine ⟨elem, none, _, _, _, .computed hliteral hcode, ?_⟩
        simp [h₆]
  | copyOf source =>
    unfold lowerArrayInit copiedArray at h
    rw [yields_bind] at h
    obtain ⟨elem, t₁, h₁, h⟩ := h
    obtain ⟨offset, slot, hslot, hkind, rfl⟩ := yields_arrayElement h₁
    cases declared with
    | none => exact arrayCode_of_copied hslot hkind (by simp) h
    | some scalar =>
      by_cases hscalar : scalar = elem
      · subst hscalar
        simp only [ne_eq, not_true_eq_false, if_false] at h
        exact arrayCode_of_copied hslot hkind (fun s hs => (Option.some.inj hs).symm) h
      · simp [hscalar] at h

theorem arrayCode_of_lowerArrayDecl {elem : TypeName} {dims : UInt32} {name : String} {init : ArrayInit}
    (h : Yields (lowerArrayDecl limit span elem dims name init) s u s') :
    ∃ scalar len c n d, dims = 1 ∧ s.frame.isDeclared name = false ∧ (elem.scalar? ≠ none ∨ elem = .var) ∧
      ArrayCode limit s.frame s.nextLabel s.data elem.scalar? init scalar len c n d ∧
      s' = s.write c (s.frame.pushNamed (.array scalar) len name) n d := by
  unfold lowerArrayDecl at h
  rw [yields_bind] at h
  obtain ⟨_, t₁, h₁, h⟩ := h
  obtain ⟨hfree, rfl⟩ := yields_checkFree h₁
  by_cases hdims : dims = 1
  · by_cases helem : elem.scalar?.isNone ∧ elem ≠ .var
    · simp [hdims, helem] at h
    · simp only [hdims, helem, ne_eq, not_true_eq_false, if_false, yields_bind] at h
      obtain ⟨_, t₂, h₂, h₃⟩ := h
      obtain ⟨scalar, len, c, n, d, hcode, rfl⟩ := arrayCode_of_yields h₂
      simp at h₃
      refine ⟨scalar, len, c, n, d, hdims, hfree, ?_, hcode, h₃⟩
      by_cases hvar : elem = .var
      · exact .inr hvar
      · refine .inl fun hnone => helem ⟨?_, hvar⟩
        rw [hnone]
        rfl
  · simp [hdims] at h

theorem performs_arrayDecl {elem : TypeName} {dims : UInt32} {name : String} {init : ArrayInit} :
    Performs limit (.stmt (.arrayDecl span elem dims name init))
      (lowerArrayDecl limit span elem dims name init) := by
  intro s s' u h _
  obtain ⟨_, _, c, n, d, rfl, hfree, helem, hcode, hs'⟩ := arrayCode_of_lowerArrayDecl h
  exact ⟨c, _, n, d, .arrayDecl hfree helem hcode, hs'⟩

/-! Printing -/

theorem shownCode_of_yields {kind : SlotKind} {len : Option Nat} (hs : s.frame = f.push kind len)
    (h : Yields (printTop span kind) s u s') :
    s' = s.write (shownCode s.nextLabel kind) f (s.nextLabel + shownLabels kind) s.data := by
  unfold printTop at h
  split at h
  all_goals
    simp [hs, and_assoc] at h
    simp [h, shownCode, shownLabels]

theorem called_printCode (c : Char) : called (printCode c) = [] := by
  simp [printCode]

theorem printCode_of_yields {separator : List Line} {args : List Expr}
    (hseparator : called separator = []) (h : Yields (printValues span separator args) s u s') :
    ∃ c n, PrintCode s.frame s.nextLabel separator args c n ∧ s' = s.write c s.frame n s.data := by
  induction args generalizing s separator with
  | nil =>
    rw [printValues, yields_pure] at h
    rw [h.2]
    exact ⟨[], _, .nil, State.write_nil.symm⟩
  | cons e rest ih =>
    simp only [printValues, yields_bind] at h
    obtain ⟨_, t₁, h₁, kind, t₂, h₂, _, t₃, h₃, h₄⟩ := h
    rw [yields_emit hseparator] at h₁
    subst h₁
    obtain ⟨len, c₁, n₁, hcode, rfl⟩ := writes_lowerExpr e _ _ _ h₂
    rw [shownCode_of_yields rfl h₃] at h₄
    obtain ⟨c₂, n₂, hrest, rfl⟩ := ih (called_printCode ' ') h₄
    exact ⟨_, n₂, .cons hcode hrest, by simp⟩

theorem performs_print {args : List Expr} :
    Performs limit (.stmt (.print span args)) (lowerPrint span args) := by
  intro s s' u h _
  simp only [lowerPrint, yields_bind] at h
  obtain ⟨_, t₁, h₁, _, t₂, h₂, h₃⟩ := h
  simp at h₁
  subst h₁
  obtain ⟨c, n, hcode, rfl⟩ := printCode_of_yields called_nil h₂
  rw [yields_emit (called_printCode '\n')] at h₃
  refine ⟨_, _, n, _, .print hcode, ?_⟩
  simp [h₃]

/-! Control flow -/

theorem performs_expr {e : Expr} :
    Performs limit (.stmt (.expr span e)) (do
      let _ ← lowerExpr e
      discard span) := by
  intro s s' u h _
  simp only [yields_bind] at h
  obtain ⟨kind, t, ht, h⟩ := h
  obtain ⟨len, c, n, hcode, rfl⟩ := writes_lowerExpr e _ _ _ ht
  simp [and_assoc] at h
  exact ⟨_, _, n, _, .expr hcode, h⟩

theorem Performs.ifElse {cond : Expr} {t e : Stmt} (hx : Performs limit (.scope t.bodyOf) x)
    (hy : Performs limit (.scope e.bodyOf) y) :
    Performs limit (.stmt (.conditional span cond t (some e))) (lowerIf cond x (some y)) := by
  intro s s' u h hs
  simp only [lowerIf, yields_bind, yields_freshLabel, and_assoc, exists_eq_left, exists_and_left] at h
  obtain ⟨_, t₁, h₁, _, t₂, h₂, _, t₃, h₃, _, t₄, h₄, _, t₅, h₅, h₆⟩ := h
  obtain ⟨len, c₁, n₁, hcond, rfl⟩ := exprCode_of_lowerCondition h₁
  simp at h₂
  subst h₂
  obtain ⟨c₂, f₂, n₂, d₁, ht, rfl⟩ := hx _ _ _ h₃ (by simpa using hs)
  have hf₂ := ht.frame_scope
  simp only [State.frame_write] at hf₂
  subst hf₂
  simp at h₄
  subst h₄
  obtain ⟨c₃, f₃, n₃, d₂, he, rfl⟩ := hy _ _ _ h₅ (by simpa using hs)
  have hf₃ := he.frame_scope
  simp only [State.frame_write] at hf₃
  subst hf₃
  simp at h₆
  refine ⟨_, _, n₃, d₂, .ifElse hcond ht he, ?_⟩
  simp [h₆]

theorem Performs.ifThen {cond : Expr} {t : Stmt} (hx : Performs limit (.scope t.bodyOf) x) :
    Performs limit (.stmt (.conditional span cond t none)) (lowerIf cond x none) := by
  intro s s' u h hs
  simp only [lowerIf, yields_bind, yields_freshLabel, and_assoc, exists_eq_left, exists_and_left] at h
  obtain ⟨_, t₁, h₁, _, t₂, h₂, _, t₃, h₃, h₄⟩ := h
  obtain ⟨len, c₁, n₁, hcond, rfl⟩ := exprCode_of_lowerCondition h₁
  simp at h₂
  subst h₂
  obtain ⟨c₂, f₂, n₂, d₁, ht, rfl⟩ := hx _ _ _ h₃ (by simpa using hs)
  have hf₂ := ht.frame_scope
  simp only [State.frame_write] at hf₂
  subst hf₂
  simp at h₄
  refine ⟨_, _, n₂, d₁, .ifThen hcond ht, ?_⟩
  simp [h₄]

theorem Performs.whileLoop {cond : Expr} {body : Stmt}
    (hx : Performs limit (.scope body.bodyOf) x) :
    Performs limit (.stmt (.whileLoop span cond body)) (lowerWhile cond x) := by
  intro s s' u h hs
  simp only [lowerWhile, yields_bind, yields_freshLabel, yields_level, and_assoc, exists_eq_left,
    exists_and_left] at h
  obtain ⟨_, t₁, h₁, _, t₂, h₂, _, t₃, h₃, _, t₄, h₄, h₅⟩ := h
  simp at h₁
  subst h₁
  obtain ⟨len, c₁, n₁, hcond, rfl⟩ := exprCode_of_lowerCondition h₂
  simp at h₃
  subst h₃
  obtain ⟨c₂, f₂, n₂, d₁, hbody, rfl⟩ := hx.loopBody h₄ (by simpa using hs)
  have hf₂ := hbody.frame_scope
  simp only [State.frame_write] at hf₂
  subst hf₂
  simp at h₅
  refine ⟨_, _, n₂, d₁, .whileLoop hcond hbody, ?_⟩
  simp [h₅]

theorem testCode_of_yields {cond : Option Expr} {done : Label}
    (h : Yields (loopTest cond done) s u s') :
    ∃ c n, TestCode s.frame s.nextLabel done cond c n ∧ s' = s.write c s.frame n s.data := by
  cases cond with
  | none =>
    rw [loopTest, yields_pure] at h
    rw [h.2]
    exact ⟨[], _, .none, State.write_nil.symm⟩
  | some e =>
    simp only [loopTest, yields_bind] at h
    obtain ⟨_, t, ht, h⟩ := h
    obtain ⟨len, c, n, hcode, rfl⟩ := exprCode_of_lowerCondition ht
    simp at h
    refine ⟨_, n, .some hcode, ?_⟩
    simp [h]

theorem updateCode_of_yields {update : Option Expr} (h : Yields (loopUpdate update) s u s') :
    ∃ c n, UpdateCode s.frame s.nextLabel update c n ∧ s' = s.write c s.frame n s.data := by
  cases update with
  | none =>
    rw [loopUpdate, yields_pure] at h
    rw [h.2]
    exact ⟨[], _, .none, State.write_nil.symm⟩
  | some e =>
    simp only [loopUpdate, yields_bind] at h
    obtain ⟨kind, t, ht, h⟩ := h
    obtain ⟨len, c, n, hcode, rfl⟩ := writes_lowerExpr e _ _ _ ht
    simp [and_assoc] at h
    exact ⟨_, n, .some hcode, h⟩

def initially : Option (Lower Unit) → Lower Unit
  | none => pure ()
  | some x => x

theorem lowerFor_eq {init : Option (Lower Unit)} {cond update : Option Expr} :
    lowerFor init cond update x = (do
      let top ← freshLabel
      let next ← freshLabel
      let done ← freshLabel
      inScope do
        initially init
        emit [.label top]
        loopTest cond done
        loopBody done next (← level) x
        emit [.label next]
        loopUpdate update
        emit [.j top, .label done]) := by
  cases init <;> rfl

theorem Performs.initially_none : Performs limit (.seq []) (initially none) := by
  intro s s' u h _
  rw [initially, yields_pure] at h
  rw [h.2]
  exact ⟨[], _, _, _, .nil, State.write_nil.symm⟩

theorem Performs.initially_some {stmt : Stmt} (hx : Performs limit (.stmt stmt) x) :
    Performs limit (.seq [stmt]) (initially (some x)) :=
  hx.single

theorem Performs.forLoop {init : Option Stmt} {init' : Option (Lower Unit)}
    {cond update : Option Expr} {body : Stmt}
    (hinit : Performs limit (.seq init.toList) (initially init'))
    (hx : Performs limit (.scope body.bodyOf) x) :
    Performs limit (.stmt (.forLoop span init cond update body)) (lowerFor init' cond update x) := by
  intro s s' u h hs
  simp only [lowerFor_eq, yields_bind, yields_inScope, yields_freshLabel, yields_level, and_assoc,
    exists_eq_left, exists_and_left, State.frame_write, State.nextLabel_write, State.data_write,
    State.write_write, List.append_nil] at h
  obtain ⟨t, ⟨_, t₁, h₁, _, t₂, h₂, _, t₃, h₃, _, t₄, h₄, _, t₅, h₅, _, t₆, h₆, h₇⟩, rfl⟩ := h
  obtain ⟨c₁, f₁, n₁, d₁, hinit, rfl⟩ := hinit _ _ _ h₁ (by simpa using hs.openScope)
  obtain ⟨added, hadded⟩ := hinit.extends
  have hf₁ := hinit.nested hs.openScope
  simp at h₂
  subst h₂
  obtain ⟨c₂, n₂, htest, rfl⟩ := testCode_of_yields h₃
  obtain ⟨c₃, f₃, n₃, d₂, hbody, rfl⟩ := hx.loopBody h₄ (by simpa using hf₁)
  have hf₃ := hbody.frame_scope
  simp only [State.frame_write] at hf₃
  subst hf₃
  simp at h₅
  subst h₅
  obtain ⟨c₄, n₄, hupdate, rfl⟩ := updateCode_of_yields h₆
  simp at h₇
  subst h₇
  have hclose := hs.closeScope hadded
  refine ⟨_, _, n₄, d₂, .forLoop hinit htest hbody hupdate, ?_⟩
  simp [hclose]

theorem Performs.forEach {declared : TypeName} {name iterable : String} {body : Stmt}
    (hx : Performs limit (.scope body.bodyOf) x) :
    Performs limit (.stmt (.forEach span declared name iterable body))
      (lowerForEach span declared name iterable x) := by
  intro s s' u h hs
  unfold lowerForEach at h
  rw [yields_bind] at h
  obtain ⟨elem, t₁, h₁, h⟩ := h
  obtain ⟨offset, slot, hslot, hkind, rfl⟩ := yields_arrayElement h₁
  by_cases hdeclared : declared ≠ .var ∧ declared.scalar? ≠ some elem
  · simp [hdeclared] at h
  · rw [if_neg hdeclared] at h
    simp only [yields_bind, yields_inScope, yields_freshLabel, yields_level, and_assoc,
      exists_eq_left, exists_and_left, State.frame_write, State.nextLabel_write, State.data_write,
      State.write_write, List.append_nil] at h
    obtain ⟨t, ⟨_, t₂, h₂, _, t₃, h₃, _, t₄, h₄, _, t₅, h₅, _, t₆, h₆,
      _, t₇, ⟨t₈, ⟨_, t₉, h₉, _, t₁₀, h₁₀, h₁₁⟩, h₈⟩, h₇⟩, rfl⟩ := h
    obtain ⟨offset', slot', hslot', rfl, rfl⟩ := yields_loadVariable h₂
    simp only [State.frame_write, Frame.resolve?_openScope] at hslot'
    rw [hslot] at hslot'
    cases hslot'
    simp at h₃
    subst h₃
    simp at h₄
    obtain ⟨rfl, rfl⟩ := h₄
    simp at h₅
    subst h₅
    simp at h₆
    subst h₆
    simp at h₉
    subst h₉
    simp at h₁₀
    subst h₁₀
    have hinner : (t₁.frame.openScope.pushNamed slot.kind slot.length "#base").Nested :=
      hs.openScope.pushNamed ..
    have hindexed := hinner.pushNamed .int none "#idx"
    obtain ⟨c, f₂, n₁, d₁, hbody, rfl⟩ := hx.loopBody h₁₁
      (by simpa using hindexed.openScope.pushNamed (.scalar elem) none name)
    have hf₂ := hbody.frame_scope
    simp only [State.frame_write] at hf₂
    subst hf₂
    have hclose := hindexed.closeScope (.pushNamed (.scalar elem) none name)
    have houter := hs.closeScope
      ((Frame.Extends.pushNamed slot.kind slot.length "#base").trans (.pushNamed .int none "#idx"))
    simp only [State.frame_write, State.nextLabel_write, State.data_write, State.write_write,
      hclose] at h₈
    subst h₈
    simp at h₇
    subst h₇
    have hdeclared' : declared = .var ∨ declared.scalar? = some elem := by
      by_cases hvar : declared = .var
      · exact .inl hvar
      · exact .inr (Classical.byContradiction fun hne => hdeclared ⟨hvar, hne⟩)
    simp only [State.frame_write, State.nextLabel_write, State.data_write,
      State.targets_write] at hbody
    have hreleased (a b : Int) : a + b + b + b - (a + b + b) = b ∧ a + b + b - a = b + b := by omega
    refine ⟨_, _, n₁, d₁, .forEach hslot hkind hdeclared' rfl rfl hbody, ?_⟩
    simp [houter, hreleased, Nat.add_assoc]

/-! Switches -/

theorem caseWord_of_yields : ∀ {e : Expr} {kind : SlotKind} {s s' : State} {word : Int},
    Yields (caseWord kind e) s word s' → CaseWord kind e word ∧ s' = s
  | .grouping _ e, kind, s, s', word, h => by
    rw [caseWord] at h
    obtain ⟨hword, rfl⟩ := caseWord_of_yields h
    exact ⟨.grouping hword, rfl⟩
  | .literal span v, kind, s, s', word, h => by
    unfold caseWord at h
    split at h
    · rw [yields_liftAt] at h
      exact ⟨.int h.1, h.2⟩
    · rw [yields_pure] at h
      rw [h.1]
      exact ⟨.char _ _, h.2⟩
    · rw [yields_pure] at h
      rw [h.1]
      exact ⟨.bool _ _, h.2⟩
    · rw [yields_fail] at h
      exact h.elim
  | .unary span op e, kind, s, s', word, h => by
    unfold caseWord at h
    split at h
    · simp only [yields_bind, yields_liftAt, yields_pure] at h
      obtain ⟨a, _, ⟨ha, rfl⟩, rfl, rfl⟩ := h
      exact ⟨.negative ha, rfl⟩
    · rw [yields_fail] at h
      exact h.elim
  | .binary .., kind, s, s', word, h | .var .., kind, s, s', word, h
  | .assign .., kind, s, s', word, h | .step .., kind, s, s', word, h
  | .ternary .., kind, s, s', word, h | .arrayLiteral .., kind, s, s', word, h
  | .index .., kind, s, s', word, h | .indexAssign .., kind, s, s', word, h
  | .indexOf .., kind, s, s', word, h | .length .., kind, s, s', word, h
  | .join .., kind, s, s', word, h | .call .., kind, s, s', word, h => by
    rw [caseWord] at h
    · exact (yields_fail.mp h).elim
    all_goals simp

theorem wordsCode_of_yields {kind : SlotKind} {cases : List (Expr × Label)}
    (h : Yields (matchWords kind cases) s u s') :
    ∃ c, WordsCode kind cases c ∧ s' = s.write c s.frame s.nextLabel s.data := by
  induction cases generalizing s with
  | nil =>
    rw [matchWords, yields_pure] at h
    rw [h.2]
    exact ⟨[], .nil, State.write_nil.symm⟩
  | cons entry rest ih =>
    simp only [matchWords, yields_bind] at h
    obtain ⟨word, t₁, h₁, _, t₂, h₂, h₃⟩ := h
    obtain ⟨hword, rfl⟩ := caseWord_of_yields h₁
    simp at h₂
    subst h₂
    obtain ⟨c, hcode, rfl⟩ := ih h₃
    exact ⟨_, .cons hword hcode, by simp⟩

theorem stringsCode_of_yields {cases : List (Expr × Label)} (h : Yields (matchStrings cases) s u s') :
    ∃ c, StringsCode cases c ∧ s' = s.write c s.frame s.nextLabel s.data := by
  induction cases generalizing s with
  | nil =>
    rw [matchStrings, yields_pure] at h
    rw [h.2]
    exact ⟨[], .nil, State.write_nil.symm⟩
  | cons entry rest ih =>
    obtain ⟨e, label⟩ := entry
    unfold matchStrings isStringLiteral at h
    split at h
    · next span raw =>
      simp only [Bool.not_true, Bool.false_eq_true, if_false, yields_bind] at h
      obtain ⟨_, t₁, h₁, _, t₂, h₂, _, t₃, h₃, _, t₄, h₄, _, t₅, h₅, h₆⟩ := h
      simp [lowerExpr, lowerLiteral] at h₁
      obtain ⟨rfl, -⟩ := h₁
      simp [and_assoc] at h₂
      subst h₂
      simp at h₃
      subst h₃
      simp at h₄
      subst h₄
      simp at h₅
      subst h₅
      obtain ⟨c, hcode, rfl⟩ := ih h₆
      exact ⟨_, .cons hcode, by simp⟩
    · simp at h

theorem casesCode_of_yields {kind : SlotKind} {len : Option Nat} {cases : List (Expr × Label)}
    (hs : s.frame = f.push kind len) (h : Yields (matchCases span kind cases) s u s') :
    ∃ c, CasesCode kind cases c ∧ s' = s.write c f s.nextLabel s.data := by
  unfold matchCases at h
  split at h
  · rw [yields_bind] at h
    obtain ⟨_, t, ht, h⟩ := h
    simp [hs, and_assoc] at ht
    subst ht
    obtain ⟨c, hcode, rfl⟩ := stringsCode_of_yields h
    exact ⟨_, .strings hcode, by simp⟩
  all_goals
    first
      | rw [yields_fail] at h
        exact h.elim
      | rw [yields_bind] at h
        obtain ⟨_, t, ht, h⟩ := h
        simp [hs, and_assoc] at ht
        subst ht
        obtain ⟨c, hcode, rfl⟩ := wordsCode_of_yields h
        exact ⟨_, .words (by simp) hcode, by simp⟩

theorem yields_freshLabels {α : Type} {xs : List α} {labels : List Label}
    (h : Yields (freshLabels xs) s labels s') :
    labels = labelsFrom s.nextLabel xs.length ∧
      s' = s.write [] s.frame (s.nextLabel + xs.length) s.data := by
  induction xs generalizing s labels with
  | nil =>
    rw [freshLabels, yields_pure] at h
    rw [h.1, h.2]
    exact ⟨rfl, State.write_nil.symm⟩
  | cons x rest ih =>
    simp only [freshLabels, yields_bind, yields_pure, yields_freshLabel] at h
    obtain ⟨_, t, ⟨rfl, rfl⟩, labels', t', ht', rfl, rfl⟩ := h
    obtain ⟨rfl, rfl⟩ := ih ht'
    refine ⟨?_, ?_⟩
    · simp [labelsFrom, List.range'_succ]
    · simp [Nat.add_assoc, Nat.add_comm 1]

def PerformsAll (limit : Nat) (bodies : List (List Stmt)) (xs : List (Lower Unit)) : Prop :=
  List.Forall₂ (fun body x => Performs limit (.scope body) x) bodies xs

theorem PerformsAll.bodies {bodies : List (List Stmt)} {xs : List (Lower Unit)}
    (h : PerformsAll limit bodies xs) (labels : List Label) :
    Performs limit (.bodies (labels.zip bodies)) (lowerBodies (labels.zip xs)) := by
  induction h generalizing labels with
  | nil =>
    intro s s' u h _
    rw [List.zip_nil_right, lowerBodies, yields_pure] at h
    rw [h.2, List.zip_nil_right]
    exact ⟨[], _, _, _, .noBody, State.write_nil.symm⟩
  | cons hx _ ih =>
    cases labels with
    | nil =>
      intro s s' u h _
      rw [List.zip_nil_left, lowerBodies, yields_pure] at h
      rw [h.2, List.zip_nil_left]
      exact ⟨[], _, _, _, .noBody, State.write_nil.symm⟩
    | cons label rest =>
      intro s s' u h hs
      simp only [List.zip_cons_cons, lowerBodies, yields_bind] at h
      obtain ⟨_, t₁, h₁, _, t₂, h₂, h₃⟩ := h
      simp at h₁
      subst h₁
      obtain ⟨c₁, f₁, n₁, d₁, hbody, rfl⟩ := hx _ _ _ h₂ (by simpa using hs)
      have hf₁ := hbody.frame_scope
      simp only [State.frame_write] at hf₁
      subst hf₁
      obtain ⟨c₂, f₂, n₂, d₂, hrest, rfl⟩ := ih rest _ _ _ h₃ (by simpa using hs)
      have hf₂ := hrest.frame_bodies
      simp only [State.frame_write] at hf₂
      subst hf₂
      refine ⟨_, _, n₂, d₂, .body hbody hrest, ?_⟩
      simp

theorem labelsFrom_append (n k m : Nat) :
    labelsFrom n (k + m) = labelsFrom n k ++ labelsFrom (n + k) m := by
  unfold labelsFrom
  rw [← List.map_append, List.range'_append_1]

@[simp]
theorem length_labelsFrom (n k : Nat) : (labelsFrom n k).length = k := by
  simp [labelsFrom]

theorem Performs.switch {subject : Expr} {cases : List SwitchCase} {default : Option (List Stmt)}
    {bodies : List (Lower Unit)} {default' : Option (Lower Unit)}
    (hcases : PerformsAll limit (cases.map SwitchCase.body) bodies)
    (hdefault : PerformsAll limit default.toList default'.toList) :
    Performs limit (.stmt (.switch span subject cases default))
      (lowerSwitch subject (cases.map SwitchCase.value) bodies default') := by
  intro s s' u h hs
  simp only [lowerSwitch, yields_bind, yields_freshLabel, yields_level, and_assoc, exists_eq_left,
    exists_and_left] at h
  obtain ⟨kind, t₁, h₁, labels, t₂, h₂, defaults, t₃, h₃, _, t₄, h₄, _, t₅, h₅, _, t₆, h₆, h₇⟩ := h
  obtain ⟨len, c₁, n₁, hsubject, rfl⟩ := writes_lowerExpr subject _ _ _ h₁
  obtain ⟨rfl, rfl⟩ := yields_freshLabels h₂
  simp only [State.frame_write, State.nextLabel_write, State.data_write, State.write_write,
    List.append_nil, List.length_map] at h₃ h₄ h₆ h₇
  obtain ⟨rfl, rfl⟩ := yields_freshLabels h₃
  simp only [State.frame_write, State.nextLabel_write, State.data_write, State.write_write,
    List.append_nil] at h₄ h₅ h₆
  obtain ⟨c₂, hmatch, rfl⟩ := casesCode_of_yields (f := s.frame) (by rw [State.frame_write]) h₄
  simp at h₅
  subst h₅
  have hlength : default.toList.length = default'.toList.length := hdefault.length_eq
  have hlength' : cases.length = bodies.length := by
    simpa using hcases.length_eq
  have hall : PerformsAll limit (cases.map SwitchCase.body ++ default.toList)
      (bodies ++ default'.toList) := List.rel_append hcases hdefault
  rw [← hlength, ← List.zip_append (by simp [hlength']), ← labelsFrom_append] at h₆
  obtain ⟨c₃, f₃, n₂, d₁, hbodies, rfl⟩ := (hall.bodies _).withBreak h₆ (by simpa using hs)
  have hf₃ := hbodies.frame_bodies
  simp only [State.frame_write, State.nextLabel_write, State.data_write, State.targets_write] at hbodies hf₃
  subst hf₃
  simp at h₇
  rw [Nat.add_assoc] at hbodies
  refine ⟨_, _, n₂, d₁, .switch hsubject hmatch hbodies, ?_⟩
  simp [h₇, switchDefault, hlength]

/-! Jumps -/

theorem yields_jumpTo {target : JumpTarget} (h : Yields (jumpTo target) s u s') :
    s' = s.write (release (s.frame.bytes - target.level) ++ [.j target.label]) s.frame s.nextLabel
      s.data := by
  simp [jumpTo, and_assoc] at h
  simp [h]

theorem performs_break : Performs limit (.stmt (.breakStmt span)) (lowerBreak span) := by
  intro s s' u h _
  simp only [lowerBreak, yields_bind, yields_targets, and_assoc, exists_eq_left, exists_and_left] at h
  split at h
  · next target htarget => exact ⟨_, _, _, _, .breakStmt htarget, yields_jumpTo h⟩
  · rw [yields_fail] at h
    exact h.elim

theorem performs_continue : Performs limit (.stmt (.continueStmt span)) (lowerContinue span) := by
  intro s s' u h _
  simp only [lowerContinue, yields_bind, yields_targets, and_assoc, exists_eq_left, exists_and_left] at h
  split at h
  · next target htarget => exact ⟨_, _, _, _, .continueStmt htarget, yields_jumpTo h⟩
  · rw [yields_fail] at h
    exact h.elim

/-! Statements -/

theorem performs_fail {p : Part} {kind : LoweringErrorKind} : Performs limit p (fail span kind) := by
  intro s s' u h _
  rw [yields_fail] at h
  exact h.elim

mutual

theorem performs_lowerStmt : ∀ stmt : Stmt, Performs limit (.stmt stmt) (lowerStmt limit stmt)
  | .varDecl .. => by
    unfold lowerStmt
    exact performs_varDecl
  | .arrayDecl .. => by
    unfold lowerStmt
    exact performs_arrayDecl
  | .funcDecl .. => by
    unfold lowerStmt
    exact performs_fail
  | .expr .. => by
    unfold lowerStmt
    exact performs_expr
  | .print .. => by
    unfold lowerStmt
    exact performs_print
  | .block _ body => by
    unfold lowerStmt
    intro s s' u h hs
    obtain ⟨c, f, n, d, hcode, rfl⟩ := (performs_lowerStmts body).inScope _ _ _ h hs
    exact ⟨c, f, n, d, .block hcode, rfl⟩
  | .conditional _ c t none => by
    unfold lowerStmt
    exact (performs_lowerStmt t).asBody.ifThen
  | .conditional _ c t (some e) => by
    unfold lowerStmt
    exact (performs_lowerStmt t).asBody.ifElse (performs_lowerStmt e).asBody
  | .whileLoop _ _ body => by
    unfold lowerStmt
    exact (performs_lowerStmt body).asBody.whileLoop
  | .forLoop _ none _ _ body => by
    unfold lowerStmt
    exact .forLoop .initially_none (performs_lowerStmt body).asBody
  | .forLoop _ (some init) _ _ body => by
    unfold lowerStmt
    exact .forLoop (performs_lowerStmt init).initially_some (performs_lowerStmt body).asBody
  | .forEach _ _ _ _ body => by
    unfold lowerStmt
    exact (performs_lowerStmt body).asBody.forEach
  | .switch _ _ cases none => by
    unfold lowerStmt
    exact Performs.switch (performs_lowerCases cases) .nil
  | .switch _ _ cases (some body) => by
    unfold lowerStmt
    exact Performs.switch (performs_lowerCases cases) (.cons (performs_lowerStmts body).inScope .nil)
  | .breakStmt _ => by
    unfold lowerStmt
    exact performs_break
  | .continueStmt _ => by
    unfold lowerStmt
    exact performs_continue
  | .returnStmt .. => by
    unfold lowerStmt
    exact performs_fail

theorem performs_lowerStmts : ∀ body : List Stmt, Performs limit (.seq body) (lowerStmts limit body)
  | [] => by
    intro s s' u h _
    rw [lowerStmts, yields_pure] at h
    rw [h.2]
    exact ⟨[], _, _, _, .nil, State.write_nil.symm⟩
  | stmt :: rest => by
    intro s s' u h hs
    simp only [lowerStmts, yields_bind] at h
    obtain ⟨_, t, ht, h⟩ := h
    obtain ⟨c₁, f₁, n₁, d₁, hstmt, rfl⟩ := performs_lowerStmt stmt _ _ _ ht hs
    obtain ⟨c₂, f₂, n₂, d₂, hrest, rfl⟩ := performs_lowerStmts rest _ _ _ h
      (by simpa using hstmt.nested hs)
    refine ⟨_, f₂, n₂, d₂, .cons hstmt hrest, ?_⟩
    simp

theorem performs_lowerCases : ∀ cases : List SwitchCase,
    PerformsAll limit (cases.map SwitchCase.body) (lowerCases limit cases)
  | [] => by
    unfold lowerCases
    exact .nil
  | .mk _ _ body :: rest => by
    unfold lowerCases
    exact .cons (performs_lowerStmts body).inScope (performs_lowerCases rest)

end

/-! Programs -/

theorem stmtCode_of_generate {config : GeneratorConfig} {p : Program} {file : File}
    (h : generate config p = .ok file) :
    ∃ c f n d, StmtCode config.unrollLimit .empty .empty 0 .empty (.seq p.statements) c f n d ∧
      file.main = Line.shown config.comments c ++ release f.bytes ∧
      file.data = d ∧
      file.used = ((called c).foldl RoutineSet.request .empty).used ∧
      file.runtime = ((called c).foldl RoutineSet.request .empty).materialize config.comments := by
  unfold generate Generator.lower at h
  cases hlower : lowerStmts config.unrollLimit p.statements (State.start config.comments) with
  | error e s =>
    simp [Generator.start, hlower] at h
  | ok u s =>
    simp only [Generator.start, hlower, Except.ok.injEq] at h
    obtain ⟨c, f, n, d, hcode, rfl⟩ := performs_lowerStmts p.statements _ _ _ hlower
      (by exact Frame.Nested.empty)
    refine ⟨c, f, n, d, hcode, ?_⟩
    rw [← h]
    simp [Generator.finish, State.write, State.start, Assembler.start, Line.shown_append]

end Arbor.Lowering
