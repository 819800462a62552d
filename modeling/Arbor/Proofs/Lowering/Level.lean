import Arbor.Proofs.Lowering.StatementCode

/-!
This module contains the levels of code: how many bytes there are on the stack at every position of a list of
lines, whichever way the position is reached.
-/

namespace Arbor.Assembly.Line

def label? : Line → Option Label
  | .label l => some l
  | _ => none

def target? : Line → Option Label
  | .instruction (.branch _ _ _ target) | .instruction (.branchZero _ _ target)
  | .instruction (.j target) => some target
  | _ => none

def isJump : Line → Bool
  | .instruction (.j _) => true
  | _ => false

def released : Line → Int
  | .addi .sp .sp n => n
  | _ => 0

def stackOffset? : Line → Option Int
  | .instruction (.load _ _ offset .sp) | .instruction (.store _ _ offset .sp) => some offset
  | _ => none

def destination? : Line → Option Register
  | .instruction (.register _ rd _ _) | .instruction (.immediate _ rd _ _)
  | .instruction (.move _ rd _) | .instruction (.li rd _) | .instruction (.la rd _)
  | .instruction (.load _ rd _ _) | .instruction (.floatCompare _ rd _ _)
  | .instruction (.bitsOfFloat rd _) | .instruction (.intOfFloat rd _) => some rd
  | _ => none

/--
A line that has nothing to do with the stack.
-/
structure OffStack (l : Line) : Prop where
  access : l.stackOffset? = none
  pointer : l.destination? ≠ some .sp

theorem OffStack.released {l : Line} (h : l.OffStack) : l.released = 0 := by
  unfold Line.released
  split
  · exact (h.pointer rfl).elim
  · rfl

def isStill (l : Line) : Bool :=
  l.stackOffset?.isNone && l.destination? != some .sp && l.target?.isNone

theorem isStill_iff {l : Line} : l.isStill = true ↔ l.OffStack ∧ l.target? = none := by
  unfold isStill
  simp only [Bool.and_eq_true, Option.isNone_iff_eq_none, bne_iff_ne]
  constructor
  · exact fun h => ⟨⟨h.1.1, h.1.2⟩, h.2⟩
  · exact fun h => ⟨⟨h.1.access, h.1.pointer⟩, h.2⟩

end Arbor.Assembly.Line

namespace Arbor.Lowering

open Assembly

/--
An assignment of levels to the positions of a list of lines that every step from one line to the next, every
branch and every access to the stack agrees with. The stack pointer is changed in no other way.
-/
structure StackLevels (code : List Line) (level : Nat → Int) : Prop where
  start : level 0 = 0
  stop : level code.length = 0
  nonneg : ∀ i, i ≤ code.length → 0 ≤ level i
  next : ∀ i l, code[i]? = some l → l.isJump = false → level (i + 1) = level i - l.released
  target : ∀ i l t, code[i]? = some l → l.target? = some t →
    (∃ k : Nat, code[k]? = some (.label t)) ∧
      ∀ k : Nat, code[k]? = some (.label t) → level k = level i
  access : ∀ i l offset, code[i]? = some l → l.stackOffset? = some offset →
    0 ≤ offset ∧ offset + wordBytes ≤ level i
  pointer : ∀ l ∈ code, l.destination? = some .sp → ∃ n, l = .addi .sp .sp n

/-! Paths -/

/--
A line is fine at a level if it stays inside the stack.
-/
structure FitsLevel (a : Int) (l : Line) : Prop where
  nonneg : 0 ≤ a
  access : ∀ offset, l.stackOffset? = some offset → 0 ≤ offset ∧ offset + wordBytes ≤ a
  pointer : l.destination? = some .sp → ∃ n, l = .addi .sp .sp n

theorem fitsLevel_of_offStack {l : Line} (h : l.OffStack) {a : Int} (ha : 0 ≤ a) : FitsLevel a l :=
  ⟨ha, by simp [h.access], fun heq => (h.pointer heq).elim⟩

inductive Path : Int → List (Int × Line) → Int → Prop where
  | nil {a : Int} : 0 ≤ a → Path a [] a
  | cons {a b z : Int} {l : Line} {rest : List (Int × Line)} :
    FitsLevel a l → (l.isJump = false → b = a - l.released) → Path b rest z →
    Path a ((a, l) :: rest) z

namespace Path

variable {a b z : Int} {xs ys : List (Int × Line)}

theorem append (hxs : Path a xs b) (hys : Path b ys z) : Path a (xs ++ ys) z := by
  induction hxs with
  | nil => exact hys
  | cons hl hb _ ih => exact .cons hl hb (ih hys)

theorem nonneg (h : Path a xs z) : 0 ≤ a := by
  cases h with
  | nil h => exact h
  | cons h => exact h.nonneg

theorem nonneg_end (h : Path a xs z) : 0 ≤ z := by
  induction h with
  | nil h => exact h
  | cons _ _ _ ih => exact ih

theorem fits_of_mem (h : Path a xs z) {b : Int} {l : Line} (hl : (b, l) ∈ xs) : FitsLevel b l := by
  induction h with
  | nil => cases hl
  | cons hfits _ _ ih =>
    rcases List.mem_cons.mp hl with heq | hl
    · cases heq
      exact hfits
    · exact ih hl

theorem filter (h : Path a xs z) : Path a (xs.filter fun e => !e.2.isComment) z := by
  induction h with
  | nil h => exact .nil h
  | @cons a b z l rest hl hb _ ih =>
    rw [List.filter_cons]
    cases l with
    | comment text =>
      have hb := hb rfl
      simp only [Line.released, Int.sub_zero] at hb
      subst hb
      exact ih
    | instruction i => exact .cons hl hb ih
    | label l => exact .cons hl hb ih

end Path

def levelAt (xs : List (Int × Line)) (z : Int) (i : Nat) : Int :=
  (xs[i]?.map Prod.fst).getD z

theorem levelAt_of_getElem? {xs : List (Int × Line)} {z a : Int} {l : Line} {i : Nat}
    (h : xs[i]? = some (a, l)) : levelAt xs z i = a := by
  simp [levelAt, h]

theorem Path.levelAt_zero {a z : Int} {xs : List (Int × Line)} (h : Path a xs z) :
    levelAt xs z 0 = a := by
  cases h <;> rfl

theorem Path.levelAt_next {a z b : Int} {xs : List (Int × Line)} {l : Line} {i : Nat}
    (h : Path a xs z) (hi : xs[i]? = some (b, l)) (hl : l.isJump = false) :
    levelAt xs z (i + 1) = b - l.released := by
  induction h generalizing i with
  | nil => simp at hi
  | @cons a c z l' rest _ hc hrest ih =>
    cases i with
    | zero =>
      simp only [List.getElem?_cons_zero, Option.some.injEq, Prod.mk.injEq] at hi
      obtain ⟨rfl, rfl⟩ := hi
      rw [← hc hl]
      exact hrest.levelAt_zero
    | succ i =>
      rw [List.getElem?_cons_succ] at hi
      exact ih hi

/-! Fragments -/

/--
Code from one level to another. Every branch goes to a label of the code at the level of the branch, or to a
label around the code that is at this level.
-/
def Fragment (around : List (Label × Int)) (a : Int) (c : List Line) (z : Int) : Prop :=
  ∃ xs : List (Int × Line), xs.map Prod.snd = c ∧ Path a xs z ∧
    ∀ e ∈ xs, ∀ t, e.2.target? = some t → (e.1, Line.label t) ∈ xs ∨ (t, e.1) ∈ around

namespace Fragment

variable {around more : List (Label × Int)} {a b z : Int} {c d : List Line}

theorem nil (ha : 0 ≤ a) : Fragment around a [] a :=
  ⟨[], rfl, .nil ha, by simp⟩

theorem append (hc : Fragment around a c b) (hd : Fragment around b d z) :
    Fragment around a (c ++ d) z := by
  obtain ⟨xs, rfl, hxs, hjumps⟩ := hc
  obtain ⟨ys, rfl, hys, hjumps'⟩ := hd
  refine ⟨xs ++ ys, List.map_append, hxs.append hys, ?_⟩
  intro e he t ht
  rcases List.mem_append.mp he with he | he
  · exact (hjumps e he t ht).imp (fun h => List.mem_append.mpr (.inl h)) id
  · exact (hjumps' e he t ht).imp (fun h => List.mem_append.mpr (.inr h)) id

theorem nonneg (h : Fragment around a c z) : 0 ≤ a := by
  obtain ⟨_, _, hpath, _⟩ := h
  exact hpath.nonneg

theorem nonneg_end (h : Fragment around a c z) : 0 ≤ z := by
  obtain ⟨_, _, hpath, _⟩ := h
  exact hpath.nonneg_end

theorem single {l : Line} (hl : FitsLevel a l) (hz : 0 ≤ z)
    (hnext : l.isJump = false → z = a - l.released) (ht : ∀ t, l.target? = some t → (t, a) ∈ around) :
    Fragment around a [l] z := by
  refine ⟨[(a, l)], rfl, .cons hl hnext (.nil hz), ?_⟩
  intro e he t htarget
  rw [List.mem_singleton] at he
  subst he
  exact .inr (ht t htarget)

theorem cons {l : Line} (hl : Fragment around a [l] b) (hc : Fragment around b c z) :
    Fragment around a (l :: c) z :=
  hl.append hc

/--
The place of a label: what comes before and after may jump to it.
-/
theorem place {l : Label} (hc : Fragment ((l, b) :: around) a c b)
    (hd : Fragment ((l, b) :: around) b d z) : Fragment around a (c ++ .label l :: d) z := by
  have hb := hd.nonneg
  obtain ⟨xs, rfl, hxs, hjumps⟩ := hc
  obtain ⟨ys, rfl, hys, hjumps'⟩ := hd
  have hlabel : FitsLevel b (.label l) :=
    ⟨hb, by simp [Line.stackOffset?], by simp [Line.destination?]⟩
  refine ⟨xs ++ (b, .label l) :: ys, by simp, hxs.append (.cons hlabel ?_ hys), ?_⟩
  · intro _
    simp [Line.released]
  · intro e he t ht
    simp only [List.mem_append, List.mem_cons] at he ⊢
    rcases he with he | rfl | he
    · rcases hjumps e he t ht with h | h
      · exact .inl (.inl h)
      · rcases List.mem_cons.mp h with h | h
        · cases h
          exact .inl (.inr (.inl rfl))
        · exact .inr h
    · simp [Line.target?] at ht
    · rcases hjumps' e he t ht with h | h
      · exact .inl (.inr (.inr h))
      · rcases List.mem_cons.mp h with h | h
        · cases h
          exact .inl (.inr (.inl rfl))
        · exact .inr h

theorem place_end {l : Label} (hc : Fragment ((l, z) :: around) a c z) (hz : 0 ≤ z) :
    Fragment around a (c ++ [.label l]) z :=
  hc.place (.nil hz)

theorem place_start {l : Label} (hc : Fragment ((l, a) :: around) a c z) :
    Fragment around a (.label l :: c) z :=
  place (.nil hc.nonneg) hc

theorem jump {t : Label} (ht : (t, a) ∈ around) (ha : 0 ≤ a) (hz : 0 ≤ z) :
    Fragment around a [.j t] z := by
  apply single ⟨ha, by simp [Line.stackOffset?], by simp [Line.destination?]⟩ hz
  · simp [Line.isJump]
  · simp [Line.target?, ht]

theorem still (ha : 0 ≤ a) (hc : c.all Line.isStill = true) : Fragment around a c a := by
  induction c with
  | nil => exact .nil ha
  | cons l rest ih =>
    rw [List.all_cons, Bool.and_eq_true] at hc
    have hl := Line.isStill_iff.mp hc.1
    apply cons (single (fitsLevel_of_offStack hl.1 ha) ha _ (by simp [hl.2])) (ih hc.2)
    intro _
    rw [hl.1.released]
    omega

theorem branch {l : Line} {t : Label} (ht : (t, a) ∈ around) (ha : 0 ≤ a) (hl : l.OffStack)
    (htarget : l.target? = some t) : Fragment around a [l] a := by
  apply single (fitsLevel_of_offStack hl ha) ha
  · intro _
    rw [hl.released]
    omega
  · intro t' ht'
    rw [htarget] at ht'
    cases ht'
    exact ht

theorem load {r : Register} {offset : Int} (hr : r ≠ .sp) (h : 0 ≤ offset)
    (h' : offset + wordBytes ≤ a) : Fragment around a [.lw r offset .sp] a := by
  have hw : (0 : Int) ≤ wordBytes := by decide
  apply single ⟨by omega, ?_, ?_⟩ (by omega)
  · intro _
    simp [Line.released]
  · simp [Line.target?]
  · intro offset' heq
    simp only [Line.stackOffset?, Option.some.injEq] at heq
    omega
  · intro heq
    simp only [Line.destination?, Option.some.injEq] at heq
    exact (hr heq).elim

theorem store {rs : Register} {offset : Int} (h : 0 ≤ offset) (h' : offset + wordBytes ≤ a) :
    Fragment around a [.sw rs offset .sp] a := by
  have hw : (0 : Int) ≤ wordBytes := by decide
  apply single ⟨by omega, ?_, by simp [Line.destination?]⟩ (by omega)
  · intro _
    simp [Line.released]
  · simp [Line.target?]
  · intro offset' heq
    simp only [Line.stackOffset?, Option.some.injEq] at heq
    omega

theorem push {r : Register} (ha : 0 ≤ a) :
    Fragment around a (Assembly.push r) (a + wordBytes) := by
  have hw : (0 : Int) ≤ wordBytes := by decide
  apply cons (b := a + wordBytes)
  · apply single ⟨ha, by simp [Line.stackOffset?], fun _ => ⟨_, rfl⟩⟩ (by omega)
    · intro _
      simp only [Line.released]
      omega
    · simp [Line.target?]
  · apply single ⟨by omega, ?_, by simp [Line.destination?]⟩ (by omega)
    · intro _
      simp [Line.released]
    · simp [Line.target?]
    · intro offset h
      simp only [Line.stackOffset?, Option.some.injEq] at h
      omega

theorem pop {rd : Register} (ha : 0 ≤ a) (hrd : rd ≠ .sp) :
    Fragment around (a + wordBytes) (Assembly.pop rd) a := by
  have hw : (0 : Int) ≤ wordBytes := by decide
  apply cons (b := a + wordBytes)
  · apply single ⟨by omega, ?_, ?_⟩ (by omega)
    · intro _
      simp [Line.released]
    · simp [Line.target?]
    · intro offset h
      simp only [Line.stackOffset?, Option.some.injEq] at h
      omega
    · intro h
      simp only [Line.destination?, Option.some.injEq] at h
      exact (hrd h).elim
  · apply single ⟨by omega, by simp [Line.stackOffset?], fun _ => ⟨_, rfl⟩⟩ ha
    · intro _
      simp only [Line.released]
      omega
    · simp [Line.target?]

theorem release {n : Int} (ha : 0 ≤ a) (hn : 0 ≤ n) :
    Fragment around (a + n) (Assembly.release n) a := by
  unfold Assembly.release
  split
  · apply single ⟨by omega, by simp [Line.stackOffset?], fun _ => ⟨_, rfl⟩⟩ ha
    · intro _
      simp only [Line.released]
      omega
    · simp [Line.target?]
  · have : a + n = a := by omega
    rw [this]
    exact .nil ha

theorem releaseTo (hz : 0 ≤ z) (h : z ≤ a) : Fragment around a (Assembly.release (a - z)) z := by
  have hrelease : Fragment around (z + (a - z)) (Assembly.release (a - z)) z := release hz (by omega)
  have heq : z + (a - z) = a := by omega
  rwa [heq] at hrelease

theorem shown {comments : Bool} (h : Fragment around a c z) :
    Fragment around a (Line.shown comments c) z := by
  cases comments with
  | true => rwa [Line.shown_true]
  | false =>
    obtain ⟨xs, rfl, hxs, hjumps⟩ := h
    refine ⟨xs.filter fun e => !e.2.isComment, ?_, hxs.filter, ?_⟩
    · simp only [Line.shown, Bool.false_eq_true, if_false, List.filter_map]
      rfl
    · intro e he t ht
      rw [List.mem_filter] at he
      rcases hjumps e he.1 t ht with h | h
      · exact .inl (List.mem_filter.mpr ⟨h, rfl⟩)
      · exact .inr h

end Fragment

/-! Expressions -/

section Expressions

variable {around : List (Label × Int)} {a : Int} {f : Frame}

theorem Frame.Nested.resolve_bounds (hf : f.Nested) {name : String} {offset : Int} {slot : Slot}
    (h : f.resolve? name = some (offset, slot)) : 0 ≤ offset ∧ offset + wordBytes ≤ f.bytes := by
  obtain ⟨above, below, hslots, -, -, rfl⟩ := resolve?_eq_some_iff.mp h
  have hsize := hf.size
  rw [hslots, List.forall_mem_append, List.forall_mem_cons] at hsize
  have habove := totalSize_nonneg hsize.1
  have hbelow := totalSize_nonneg hsize.2.2
  rw [Frame.bytes, hslots, totalSize_append, totalSize, hsize.2.1]
  omega

theorem nonneg_push (ha : 0 ≤ a) : 0 ≤ a + wordBytes := by
  have hw : (0 : Int) ≤ wordBytes := by decide
  omega

namespace Fragment

theorem promotion {n : Nat} (h : n * wordBytes + wordBytes ≤ a) :
    Fragment around a (promotion n) a := by
  have hn : (0 : Int) ≤ n * wordBytes := by
    unfold wordBytes
    omega
  have ha : 0 ≤ a := by
    have hw : (0 : Int) ≤ wordBytes := by decide
    omega
  unfold Lowering.promotion
  exact cons (still ha rfl) (cons (load (by decide) hn h) (cons (still ha rfl)
    (cons (still ha rfl) (store hn h))))

theorem spelling {n : Nat} (h : n * wordBytes + wordBytes ≤ a) :
    Fragment around a (spelling n) a := by
  have hn : (0 : Int) ≤ n * wordBytes := by
    unfold wordBytes
    omega
  have ha : 0 ≤ a := by
    have hw : (0 : Int) ≤ wordBytes := by decide
    omega
  unfold Lowering.spelling
  exact cons (load (by decide) hn h) (cons (still ha rfl) (store hn h))

theorem promotions {left right : SlotKind} (ha : 0 ≤ a) :
    Fragment around (a + wordBytes + wordBytes) (promotions left right) (a + wordBytes + wordBytes) := by
  have hw : (0 : Int) ≤ wordBytes := by decide
  unfold Lowering.promotions
  split
  · exact .nil (nonneg_push (nonneg_push ha))
  · exact promotion (by unfold wordBytes; omega)
  · exact promotion (by unfold wordBytes; omega)
  · exact .nil (nonneg_push (nonneg_push ha))

theorem spellings {left right : SlotKind} (ha : 0 ≤ a) :
    Fragment around (a + wordBytes + wordBytes) (spellings left right) (a + wordBytes + wordBytes) := by
  have hnil : Fragment around (a + wordBytes + wordBytes) [] (a + wordBytes + wordBytes) :=
    .nil (nonneg_push (nonneg_push ha))
  unfold Lowering.spellings
  apply append
  · split
    · exact spelling (by unfold wordBytes; omega)
    · exact hnil
  · split
    · exact spelling (by unfold wordBytes; omega)
    · exact hnil

theorem divisorCheck {op : BinaryOp} (ha : 0 ≤ a) : Fragment around a (divisorCheck op) a := by
  unfold Lowering.divisorCheck
  split
  · exact still ha rfl
  · exact .nil ha

theorem binary {op : BinaryOp} {left right kind : SlotKind} {c : List Line} (ha : 0 ≤ a)
    (h : BinaryCode op left right kind c) :
    Fragment around (a + wordBytes + wordBytes) c (a + wordBytes) := by
  have hpops {r₁ r₂ : Register} (h₁ : r₁ ≠ .sp) (h₂ : r₂ ≠ .sp) :
      Fragment around (a + wordBytes + wordBytes) (Assembly.pop r₁ ++ Assembly.pop r₂) a :=
    (pop (nonneg_push ha) h₁).append (pop ha h₂)
  cases h with
  | concatenation =>
    rw [List.append_assoc (Lowering.spellings left right)]
    exact (((spellings ha).append (hpops (by decide) (by decide))).append (still ha rfl)).append (push ha)
  | ints hop =>
    have hoperation : Fragment around a (intOperation op) a :=
      still ha (by cases op <;> rfl)
    exact (((hpops (by decide) (by decide)).append (divisorCheck ha)).append hoperation).append (push ha)
  | floats =>
    have hoperation : Fragment around a (floatOperation op) a :=
      still ha (by cases op <;> rfl)
    rw [List.append_assoc (Lowering.promotions left right)]
    exact (((((promotions ha).append (hpops (by decide) (by decide))).append
      (still ha rfl)).append hoperation).append (still ha rfl)).append (push ha)
  | words =>
    have hcomparison : Fragment around a (intComparison op) a :=
      still ha (by cases op <;> rfl)
    exact ((hpops (by decide) (by decide)).append hcomparison).append (push ha)
  | comparedFloats =>
    have hcomparison : Fragment around a (floatComparison op) a :=
      still ha (by cases op <;> rfl)
    rw [List.append_assoc (Lowering.promotions left right)]
    exact ((((promotions ha).append (hpops (by decide) (by decide))).append (still ha rfl)).append
      hcomparison).append (push ha)
  | texts =>
    have hnegation : Fragment around a (if op = .ne then [.xori .a0 .a0 1] else []) a := by
      split
      · exact still ha rfl
      · exact .nil ha
    rw [List.append_assoc (Lowering.spellings left right)]
    exact ((((spellings ha).append (hpops (by decide) (by decide))).append (still ha rfl)).append
      hnegation).append (push ha)

theorem unary {op : UnaryOp} {kind : SlotKind} {c : List Line} (ha : 0 ≤ a)
    (h : UnaryCode op kind c) : Fragment around (a + wordBytes) c (a + wordBytes) := by
  cases h <;> exact ((pop ha (by decide)).append (still ha rfl)).append (push ha)

theorem convert {kind target : SlotKind} {c : List Line} (ha : 0 ≤ a)
    (h : ConvertCode kind target c) : Fragment around (a + wordBytes) c (a + wordBytes) := by
  cases h with
  | same => exact .nil (nonneg_push ha)
  | widen => exact promotion (by unfold wordBytes; omega)

theorem string (s : String) (ha : 0 ≤ a) : Fragment around a (stringCode s) (a + wordBytes) := by
  have hwords : ∀ words : List Int, (words.flatMap appendWord).all Line.isStill = true := by
    intro words
    induction words with
    | nil => rfl
    | cons w rest ih =>
      rw [List.flatMap_cons, List.all_append, ih]
      rfl
  exact ((still ha rfl).append (push ha)).append (still (nonneg_push ha) (hwords _))

theorem literal {l : Literal} {kind : SlotKind} {c : List Line} (ha : 0 ≤ a)
    (h : LiteralCode l kind c) : Fragment around a c (a + wordBytes) := by
  cases h with
  | float x => exact cons (still ha rfl) (cons (still ha rfl) (push ha))
  | string raw => exact string _ ha
  | _ => exact cons (still ha rfl) (push ha)

theorem embedded {fn : Embedded} {kind result : SlotKind} {len len' : Option Nat} {c : List Line}
    (ha : 0 ≤ a) (h : EmbeddedCode fn kind len result len' c) :
    Fragment around (a + wordBytes) c (a + wordBytes) := by
  cases h with
  | typeOf => exact (release ha (by decide)).append (string _ ha)
  | text => exact .nil (nonneg_push ha)
  | _ => exact ((pop ha (by decide)).append (still ha rfl)).append (push ha)

theorem address {offset : Int} (h : 0 ≤ offset) (h' : offset + wordBytes ≤ a) :
    Fragment around a (addressCode offset) a := by
  have ha : 0 ≤ a := by
    have hw : (0 : Int) ≤ wordBytes := by decide
    omega
  exact cons (load (by decide) h h') (still ha rfl)

theorem storeElement {offset : Int} (ha : 0 ≤ a) (h : 0 ≤ offset)
    (h' : offset + wordBytes ≤ a + wordBytes + wordBytes) :
    Fragment around (a + wordBytes + wordBytes) (storeElementCode offset) (a + wordBytes) := by
  have hw : (0 : Int) ≤ wordBytes := by decide
  have ha' := nonneg_push (nonneg_push ha)
  have hloads : Fragment around (a + wordBytes + wordBytes)
      [.lw .t2 0 .sp, .lw .t0 wordBytes .sp] (a + wordBytes + wordBytes) :=
    cons (load (by decide) (by omega) (by omega)) (load (by decide) (by omega) (by omega))
  have hstores : Fragment around (a + wordBytes + wordBytes)
      [.sw .t2 0 .t0, .sw .t2 wordBytes .sp] (a + wordBytes + wordBytes) :=
    cons (still ha' rfl) (store (by omega) (by omega))
  exact ((hloads.append (address h h')).append hstores).append (release (nonneg_push ha) hw)

theorem shortcut {isAnd : Bool} {decided : Label} (h : (decided, a) ∈ around) (ha : 0 ≤ a) :
    Fragment around a [shortcut isAnd decided] a := by
  cases isAnd <;> exact branch h ha ⟨rfl, by simp [Lowering.shortcut, Line.destination?]⟩ rfl

theorem branchZero {op : ZeroBranchOp} {rs : Register} {t : Label} (h : (t, a) ∈ around)
    (ha : 0 ≤ a) : Fragment around a [.instruction (.branchZero op rs t)] a :=
  branch h ha ⟨rfl, by simp [Line.destination?]⟩ rfl

theorem guard {t : Label} (hcond : Fragment around a c (a + wordBytes)) (ht : (t, a) ∈ around) (ha : 0 ≤ a) :
    Fragment around a (c ++ Assembly.pop .t0 ++ [.beqz .t0 t]) a :=
  (hcond.append (.pop ha (by decide))).append (.branchZero ht ha)

end Fragment

/--
The code of an expression pushes one word.
-/
theorem ExprCode.fragment {n n' : Nat} {want : Option SlotKind} {e : Expr} {kind : SlotKind}
    {len : Option Nat} {c : List Line} (h : ExprCode f n want e kind len c n') :
    ∀ {around : List (Label × Int)}, f.Nested →
      Fragment around f.bytes c (f.bytes + wordBytes) := by
  have hw : (0 : Int) ≤ wordBytes := by decide
  induction h with
  | literal hl => exact fun hf => .literal hf.bytes_nonneg hl
  | @logical f n n₁ n₂ _ op _ _ _ _ c₁ c₂ _ _ _ ih₁ ih₂ =>
    intro around hf
    have ha := hf.bytes_nonneg
    have htests : Fragment ((.numbered n, f.bytes) :: (.numbered (n + 1), f.bytes) :: around) f.bytes
        (c₁ ++ pop .t0 ++ [shortcut (op == .and) (.numbered n)] ++ c₂ ++ pop .t0
          ++ [shortcut (op == .and) (.numbered n)]) f.bytes :=
      (((((ih₁ hf).append (.pop ha (by decide))).append (.shortcut (by simp) ha)).append
        (ih₂ hf)).append (.pop ha (by decide))).append (.shortcut (by simp) ha)
    have hundecided : Fragment ((.numbered n, f.bytes) :: (.numbered (n + 1), f.bytes) :: around)
        f.bytes [.li .t0 (boolWord (op == .and)), .j (.numbered (n + 1))] f.bytes :=
      .cons (.still ha rfl) (.jump (by simp) ha ha)
    have hdecided := ((htests.append hundecided).place (d := [.li .t0 (boolWord !(op == .and))])
      (.still ha rfl)).place_end ha
    have := hdecided.append (.push (r := .t0) ha)
    simpa using this
  | binary _ _ _ hop ih₁ ih₂ =>
    intro around hf
    have h₂ : Fragment around _ _ _ := ih₂ hf.push
    rw [Frame.bytes_push] at h₂
    exact ((ih₁ hf).append h₂).append (.binary hf.bytes_nonneg hop)
  | unary _ hop ih => exact fun hf => (ih hf).append (.unary hf.bytes_nonneg hop)
  | grouping _ ih => exact ih
  | var hslot =>
    intro around hf
    obtain ⟨hlow, hhigh⟩ := hf.resolve_bounds hslot
    exact .cons (.load (by decide) hlow hhigh) (.push hf.bytes_nonneg)
  | assign hslot _ _ ih =>
    intro around hf
    obtain ⟨hlow, hhigh⟩ := hf.resolve_bounds hslot
    have ha := hf.bytes_nonneg
    exact (ih hf).append (.cons (.load (by decide) (by omega) (by omega))
      (.store (by omega) (by omega)))
  | compound hslot _ _ _ hop hconvert ih =>
    intro around hf
    obtain ⟨hlow, hhigh⟩ := hf.resolve_bounds hslot
    have ha := hf.bytes_nonneg
    have he : Fragment around _ _ _ := ih hf.push
    rw [Frame.bytes_push] at he
    have hload : Fragment around _ _ _ :=
      .cons (.load (r := .t0) (by decide) hlow hhigh) (.push (r := .t0) ha)
    exact (((hload.append he).append (.binary ha hop)).append (.convert ha hconvert)).append
      (.cons (.load (by decide) (by omega) (by omega)) (.store (by omega) (by omega)))
  | @step f _ _ _ op _ slot lines hslot hlines =>
    intro around hf
    obtain ⟨hlow, hhigh⟩ := hf.resolve_bounds hslot
    have ha := hf.bytes_nonneg
    have hstep : Fragment around f.bytes lines f.bytes := by
      apply Fragment.still ha
      unfold stepLines at hlines
      split at hlines <;> cases hlines <;> rfl
    exact (((Fragment.load (by decide) hlow hhigh).cons hstep).append (.store hlow hhigh)).append
      (.push ha)
  | @ternary f n n₁ n₂ n₃ _ _ _ _ _ _ _ _ c₁ c₂ c₃ _ _ _ ih₁ ih₂ ih₃ =>
    intro around hf
    have ha := hf.bytes_nonneg
    have htest : Fragment ((.numbered n, f.bytes) :: (.numbered (n + 1), f.bytes + wordBytes) :: around)
        f.bytes (c₁ ++ pop .t0 ++ [.beqz .t0 (.numbered n)]) f.bytes :=
      ((ih₁ hf).append (.pop ha (by decide))).append (.branchZero (by simp) ha)
    have hjump : Fragment ((.numbered n, f.bytes) :: (.numbered (n + 1), f.bytes + wordBytes) :: around)
        (f.bytes + wordBytes) [.j (.numbered (n + 1))] f.bytes :=
      .jump (by simp) (by omega) ha
    have hplaced := ((((htest.append (ih₂ hf)).append hjump).place (ih₃ hf)).place_end (by omega))
    simpa using hplaced
  | index hslot _ _ ih =>
    intro around hf
    obtain ⟨hlow, hhigh⟩ := hf.resolve_bounds hslot
    have ha := hf.bytes_nonneg
    exact ((((ih hf).append (.pop ha (by decide))).append (.address hlow hhigh)).append
      (.still ha rfl)).append (.push ha)
  | indexAssign hslot _ _ _ ih₁ ih₂ =>
    intro around hf
    obtain ⟨hlow, hhigh⟩ := hf.resolve_bounds hslot
    have ha := hf.bytes_nonneg
    have h₂ : Fragment around _ _ _ := ih₂ hf.push
    rw [Frame.bytes_push] at h₂
    exact ((ih₁ hf).append h₂).append (.storeElement ha (by omega) (by omega))
  | @compoundIndexAssign f _ _ _ _ _ _ _ _ _ offset _ _ _ _ _ _ _ _ _ _ hslot _ _ _ _ hop hconvert ih₁ ih₂ =>
    intro around hf
    obtain ⟨hlow, hhigh⟩ := hf.resolve_bounds hslot
    have ha := hf.bytes_nonneg
    have h₂ : Fragment around _ _ _ := ih₂ hf.push.push
    rw [Frame.bytes_push, Frame.bytes_push] at h₂
    have h₁ : Fragment around _ _ _ := ih₁ hf
    have haddress : Fragment around (f.bytes + wordBytes) (addressCode (offset + wordBytes))
        (f.bytes + wordBytes) :=
      .address (by omega) (by omega)
    have hread := (((h₁.append (.load (r := .t0) (by decide) (Int.le_refl 0) (by omega))).append
      haddress).append (.still (by omega) (c := [.lw .t0 0 .t0]) rfl)).append
        (.push (r := .t0) (by omega))
    exact (((hread.append h₂).append (.binary (by omega) hop)).append
      (.convert (by omega) hconvert)).append
        (.storeElement ha (by omega) (by omega))
  | indexOf hslot _ _ ih =>
    intro around hf
    obtain ⟨hlow, hhigh⟩ := hf.resolve_bounds hslot
    have ha := hf.bytes_nonneg
    exact (((ih hf).append (.pop ha (by decide))).append
      (.cons (.load (by decide) hlow hhigh) (.still ha rfl))).append (.push ha)
  | length hslot | join hslot =>
    intro around hf
    obtain ⟨hlow, hhigh⟩ := hf.resolve_bounds hslot
    have ha := hf.bytes_nonneg
    exact (Fragment.cons (.load (by decide) hlow hhigh) (.still ha rfl)).append (.push ha)
  | call _ _ hfn ih => exact fun hf => (ih hf).append (.embedded hf.bytes_nonneg hfn)
  | narrowed => exact fun hf => .cons (.still hf.bytes_nonneg rfl) (.push hf.bytes_nonneg)
  | converted _ _ hconvert ih => exact fun hf => (ih hf).append (.convert hf.bytes_nonneg hconvert)

end Expressions

/-! Declarations and printing -/

section Statements

variable {around : List (Label × Int)} {a : Int} {limit : Nat} {j : JumpTargets} {f f' : Frame}
  {n n' : Nat} {d d' : DataSection} {c : List Line}

theorem ItemsCode.fragment {elem? : Option Scalar} {items : List Expr} {elem : Scalar}
    (h : ItemsCode f n elem? items elem c f' n') (hf : f.Nested) :
    Fragment around f.bytes c (f.bytes + items.length * wordBytes) := by
  have hbytes (b k : Int) : b + wordBytes + k * wordBytes = b + (k + 1) * wordBytes := by
    unfold wordBytes
    omega
  induction h with
  | nil =>
    simp only [List.length_nil, Int.natCast_zero, Int.zero_mul, Int.add_zero]
    exact .nil hf.bytes_nonneg
  | known he _ ih | first he _ ih =>
    have hrest := ih hf.push
    rw [Frame.bytes_push, hbytes] at hrest
    exact (he.fragment hf).append hrest

namespace Fragment

theorem collect {k : Nat} (ha : 0 ≤ a) :
    Fragment around (a + k * wordBytes) (collectCode k) a := by
  induction k with
  | zero =>
    simp only [Int.natCast_zero, Int.zero_mul, Int.add_zero]
    exact .nil ha
  | succ k ih =>
    have hlevel : a + ((k + 1 : Nat) : Int) * wordBytes = a + k * wordBytes + wordBytes := by
      unfold wordBytes
      omega
    have hk : 0 ≤ a + k * wordBytes := by
      unfold wordBytes
      omega
    rw [hlevel]
    exact ((pop hk (by decide)).append (still hk rfl)).append ih

theorem fillLoop {top done : Label} (ha : 0 ≤ a) : Fragment around a (fillLoop top done) a := by
  have hround : Fragment ((top, a) :: (done, a) :: around) a
      [.bge .t4 .t2 done, .sw .t1 0 .t3, .addi .t3 .t3 wordBytes, .addi .t4 .t4 1, .j top] a :=
    cons (branch (t := done) (by simp) ha ⟨rfl, by simp [Line.destination?]⟩ rfl)
      (append (c := [.sw .t1 0 .t3, .addi .t3 .t3 wordBytes, .addi .t4 .t4 1]) (still ha rfl)
        (jump (by simp) ha ha))
  have hstart : Fragment ((top, a) :: (done, a) :: around) a [.mv .t3 .t0, .li .t4 0] a :=
    still ha rfl
  exact (hstart.place hround).place_end ha

theorem copyLoop {top done : Label} (ha : 0 ≤ a) : Fragment around a (copyLoop top done) a := by
  have hround : Fragment ((top, a) :: (done, a) :: around) a
      [.bge .t4 .t2 done, .slli .t3 .t4 2, .add .t5 .t1 .t3, .lw .t5 0 .t5, .add .t3 .t0 .t3,
        .sw .t5 0 .t3, .addi .t4 .t4 1, .j top] a :=
    cons (branch (t := done) (by simp) ha ⟨rfl, by simp [Line.destination?]⟩ rfl)
      (append (c := [.slli .t3 .t4 2, .add .t5 .t1 .t3, .lw .t5 0 .t5, .add .t3 .t0 .t3,
        .sw .t5 0 .t3, .addi .t4 .t4 1]) (still ha rfl) (jump (by simp) ha ha))
  have hstart : Fragment ((top, a) :: (done, a) :: around) a [.li .t4 0] a := still ha rfl
  exact (hstart.place hround).place_end ha

theorem unrolledFill (length : Nat) (ha : 0 ≤ a) : Fragment around a (unrolledFill length) a := by
  apply still ha
  rw [List.all_eq_true]
  intro l hl
  obtain ⟨i, -, rfl⟩ := List.mem_map.mp hl
  rfl

theorem unrolledCopy (length : Nat) (ha : 0 ≤ a) : Fragment around a (unrolledCopy length) a := by
  apply still ha
  rw [List.all_eq_true]
  intro l hl
  obtain ⟨i, -, hl⟩ := List.mem_flatMap.mp hl
  simp only [List.mem_cons, List.not_mem_nil, or_false] at hl
  rcases hl with rfl | rfl <;> rfl

theorem upTo {length : Nat} {unrolled : Nat → List Line} {lines : Label → Label → List Line}
    (ha : 0 ≤ a) (hunrolled : Fragment around a (unrolled length) a)
    (hlines : ∀ top done, Fragment around a (lines top done) a) :
    Fragment around a (upToCode limit length n unrolled lines) a := by
  unfold upToCode
  split
  · exact hunrolled
  · exact cons (still ha rfl) (hlines _ _)

theorem loadZero {rd : Register} {s : Scalar} (ha : 0 ≤ a) (hrd : rd ≠ .sp) :
    Fragment around a [loadZero rd s] a := by
  apply still ha
  cases s <;> simp [Lowering.loadZero, Line.isStill, Line.stackOffset?, Line.destination?,
    Line.target?, hrd]

end Fragment

theorem ArrayCode.fragment {declared : Option Scalar} {init : ArrayInit} {elem : Scalar}
    {len : Option Nat} (h : ArrayCode limit f n d declared init elem len c n' d') (hf : f.Nested) :
    Fragment around f.bytes c (f.bytes + wordBytes) := by
  have ha := hf.bytes_nonneg
  cases h with
  | values hitems =>
    have hk (k : Nat) : 0 ≤ f.bytes + k * wordBytes := by
      unfold wordBytes
      omega
    exact (((hitems.fragment hf).append (.still (hk _) rfl)).append (.collect ha)).append (.push ha)
  | sized =>
    exact (((Fragment.still ha rfl).append (.loadZero ha (by decide))).append
      (.upTo ha (.unrolledFill _ ha) fun _ _ => .fillLoop ha)).append (.push ha)
  | computed _ hlength =>
    exact (((((hlength.fragment hf).append (.pop ha (by decide))).append (.still ha rfl)).append
      (.loadZero ha (by decide))).append (.fillLoop ha)).append (.push ha)
  | copied hslot =>
    obtain ⟨hlow, hhigh⟩ := hf.resolve_bounds hslot
    exact (((Fragment.load (by decide) hlow hhigh).append (.still ha rfl)).append
      (.upTo ha (.unrolledCopy _ ha) fun _ _ => .copyLoop ha)).append (.push ha)
  | copiedHeap hslot =>
    obtain ⟨hlow, hhigh⟩ := hf.resolve_bounds hslot
    exact (((Fragment.load (by decide) hlow hhigh).append (.still ha rfl)).append
      (.copyLoop ha)).append (.push ha)

theorem Fragment.shownCode {kind : SlotKind} (ha : 0 ≤ a) :
    Fragment around (a + wordBytes) (shownCode n kind) a := by
  cases kind with
  | array elem => exact (pop ha (by decide)).append (still ha rfl)
  | scalar s =>
    cases s with
    | bool =>
      have hchosen : Fragment ((.numbered n, a) :: around) a
          [.la .a0 FixedString.trueText.label, .bnez .t0 (.numbered n),
            .la .a0 FixedString.falseText.label] a :=
        cons (still ha rfl) (cons (branchZero (by simp) ha) (still ha rfl))
      exact (pop ha (by decide)).append (hchosen.place (.still ha rfl))
    | _ => exact (pop ha (by decide)).append (still ha rfl)

theorem PrintCode.fragment {separator : List Line} {args : List Expr}
    (h : PrintCode f n separator args c n') (hf : f.Nested)
    (hseparator : separator.all Line.isStill = true) : Fragment around f.bytes c f.bytes := by
  have ha := hf.bytes_nonneg
  induction h with
  | nil => exact .nil ha
  | cons he _ ih =>
    exact (((Fragment.still ha hseparator).append (he.fragment hf)).append (.shownCode ha)).append
      (ih rfl)

theorem TestCode.fragment {done : Label} {cond : Option Expr} (h : TestCode f n done cond c n')
    (hf : f.Nested) (hdone : (done, f.bytes) ∈ around) : Fragment around f.bytes c f.bytes := by
  have ha := hf.bytes_nonneg
  cases h with
  | none => exact .nil ha
  | some he => exact (he.fragment hf).guard hdone ha

theorem UpdateCode.fragment {update : Option Expr} (h : UpdateCode f n update c n') (hf : f.Nested) :
    Fragment around f.bytes c f.bytes := by
  have ha := hf.bytes_nonneg
  cases h with
  | none => exact .nil ha
  | some he => exact (he.fragment hf).append (.release ha (by decide))

theorem WordsCode.fragment {kind : SlotKind} {cases : List (Expr × Label)} (h : WordsCode kind cases c)
    (ha : 0 ≤ a) (hcases : ∀ entry ∈ cases, (entry.2, a) ∈ around) : Fragment around a c a := by
  induction h with
  | nil => exact .nil ha
  | @cons _ label _ _ _ _ _ ih =>
    rw [List.forall_mem_cons] at hcases
    have htest : Fragment around a [.beq .t0 .t1 label] a :=
      .branch hcases.1 ha ⟨rfl, by simp [Line.destination?]⟩ rfl
    exact (Fragment.cons (.still ha rfl) htest).append (ih hcases.2)

theorem StringsCode.fragment {cases : List (Expr × Label)} (h : StringsCode cases c)
    (ha : 0 ≤ a) (hcases : ∀ entry ∈ cases, (entry.2, a) ∈ around) : Fragment around a c a := by
  induction h with
  | nil => exact .nil ha
  | cons _ ih =>
    rw [List.forall_mem_cons] at hcases
    exact (((Fragment.string _ ha).append (.pop ha (by decide))).append
      (.cons (.still ha rfl) (.cons (.still ha rfl) (.branchZero hcases.1 ha)))).append (ih hcases.2)

theorem CasesCode.fragment {kind : SlotKind} {cases : List (Expr × Label)} (h : CasesCode kind cases c)
    (ha : 0 ≤ a) (hcases : ∀ entry ∈ cases, (entry.2, a) ∈ around) :
    Fragment around (a + wordBytes) c a := by
  cases h with
  | strings hcode => exact (Fragment.pop ha (by decide)).append (hcode.fragment ha hcases)
  | words _ hcode => exact (Fragment.pop ha (by decide)).append (hcode.fragment ha hcases)

end Statements

end Arbor.Lowering
