import Arbor.Proofs.Machine.ArrayContents
import Arbor.Proofs.Machine.Printing

/-!
This module contains the run of the routine that prints an array: the services that it asks for, what it does with one
element, and all rounds of its loop.
-/

namespace Arbor.Machine

open Assembly
open Lowering (elementCode labelCount)

structure Prints (rs : List Register) (core core' : Core) (xs : List UInt8) : Prop where
  registers : ∀ rd, rd ∉ rs → core'.get rd = core.get rd
  memory : core'.memory = core.memory
  output : core'.output = core.output ++ xs

namespace Prints

variable {rs rs' : List Register} {rd : Register} {core core' core'' : Core} {w : Word} {xs ys : List UInt8}

theorem refl (core : Core) : Prints rs core core [] :=
  ⟨fun _ _ => rfl, rfl, (List.append_nil _).symm⟩

theorem trans (h : Prints rs core core' xs) (h' : Prints rs core' core'' ys) : Prints rs core core'' (xs ++ ys) :=
  ⟨fun rd hrd => (h'.registers rd hrd).trans (h.registers rd hrd), h'.memory.trans h.memory,
    by rw [h'.output, h.output, List.append_assoc]⟩

theorem mono (h : Prints rs core core' xs) (hsubset : rs ⊆ rs') : Prints rs' core core' xs :=
  ⟨fun rd hrd => h.registers rd fun hmem => hrd (hsubset hmem), h.memory, h.output⟩

theorem set (h : Prints rs core core' xs) (hrd : rd ∈ rs) : Prints rs core (core'.set rd w) xs := by
  refine ⟨fun rd' hrd' => ?_, h.memory, h.output⟩
  have hne : rd' ≠ rd := fun heq => hrd' (heq ▸ hrd)
  rw [Core.get_set_of_ne hne, h.registers rd' hrd']

theorem write (h : Prints rs core core' xs) : Prints rs core (core'.write ys) (xs ++ ys) :=
  ⟨fun rd hrd => Core.get_write.trans (h.registers rd hrd), h.memory, by
    rw [← List.append_assoc, ← h.output]
    rfl⟩

theorem extended (h : Prints rs core core' xs) (hhp : .hp ∉ rs) : Extends core core' :=
  .of_memory h.memory (h.registers .hp hhp)

end Prints

def shownPlace : Scalar → Label
  | .int => Routine.printArray.place "int"
  | .float => Routine.printArray.place "float"
  | .bool => Routine.printArray.place "bool"
  | .char => Routine.printArray.place "char"
  | .string => Routine.printArray.place "text"

def printStart : List Line :=
  [.mv .t0 .a0, .mv .t1 .a1, .lw .t2 (-wordBytes) .t0, .li .t3 0]

def separatorLines (top elem done : Label) : List Line :=
  [.label top, .bge .t3 .t2 done, .beqz .t3 elem] ++ (Routine.printChar ',' ++ Routine.printChar ' ') ++
    [.label elem, .slli .t4 .t3 2, .add .t4 .t0 .t4, .lw .a0 0 .t4]

def dispatchLines : List Line :=
  [.li .t5 1, .beq .t1 .t5 (shownPlace .int), .li .t5 2, .beq .t1 .t5 (shownPlace .float),
    .li .t5 3, .beq .t1 .t5 (shownPlace .bool), .li .t5 4, .beq .t1 .t5 (shownPlace .char), .j (shownPlace .string)]

def askedLines (elem : Scalar) (n : Int) : List Line :=
  .label (shownPlace elem) :: syscall n

def boolLines (truthy : Label) : List Line :=
  [.label (shownPlace .bool), .bnez .a0 truthy, .la .a0 FixedString.falseText.label, .j (shownPlace .string),
    .label truthy, .la .a0 FixedString.trueText.label]

def shownLines (truthy next : Label) : List Line :=
  askedLines .int 1 ++ (([.j next, .label (shownPlace .float), .floatOfBits .fa0 .a0] ++ syscall 2 ++ [.j next]) ++
    (boolLines truthy ++ (askedLines .string 4 ++ (.j next :: askedLines .char 11))))

theorem printArrayBody_eq : Routine.printArrayBody =
    printStart ++ (Routine.printChar '[' ++
      (separatorLines (Routine.printArray.place "loop") (Routine.printArray.place "elem")
          (Routine.printArray.place "done") ++
        ((dispatchLines ++ shownLines (Routine.printArray.place "true") (Routine.printArray.place "next")) ++
          ([.label (Routine.printArray.place "next"), .addi .t3 .t3 1, .j (Routine.printArray.place "loop"),
            .label (Routine.printArray.place "done")] ++ Routine.printChar ']')))) :=
  rfl

/-! Services -/

section Output

variable {L : Layout} {lines : List Line} {start : Hart} {core core' core₀ : Core} {r : Region} {elem : Scalar}
  {items rest : List Value} {u v : Value} {c : Char} {n : Int} {w : Word} {i k k' m : Nat} {xs : List UInt8}
  {top place truthy next done : Label}

theorem service_text (ha₇ : core.get .a7 = 4) (hxs : stringAt core.memory (core.get .a0) (2 ^ 32) = xs) :
    service core = some (core.write xs) := by
  unfold service
  rw [ha₇]
  exact congrArg (fun xs => some (core.write xs)) hxs

theorem service_char (ha₇ : core.get .a7 = 11) :
    service core = some (core.write [⟨(core.get .a0).setWidth 8⟩]) := by
  unfold service
  rw [ha₇]
  rfl

theorem Reaches.asked (hc : CodeAt lines k (syscall n) k')
    (hservice : service (core.set .a7 (.ofInt 32 n)) = some ((core.set .a7 (.ofInt 32 n)).write xs))
    (hg : Reaches L lines start ⟨core, k⟩) : Reaches L lines start ⟨(core.set .a7 (.ofInt 32 n)).write xs, k'⟩ := by
  simp only [syscall, codeAt_instruction, codeAt_nil] at hc
  obtain ⟨hli, hecall, rfl⟩ := hc
  exact (hg.step (step_instruction hli rfl)).step (step_instruction hecall hservice)

theorem Reaches.printedChar (hc : CodeAt lines k (Routine.printChar c) k') (hspells : SpellsRight (.char c))
    (hg : Reaches L lines start ⟨core, k⟩) :
    ∃ core', Reaches L lines start ⟨core', k'⟩ ∧ Prints [.a0, .a7] core core' (bytes c.toString) := by
  have hc : CodeAt lines k (.li .a0 (charCode c) :: syscall 11) k' := hc
  obtain ⟨hli, hcall⟩ := codeAt_instruction.mp hc
  have hg₁ := (hg.step (step_instruction hli rfl)).asked hcall (service_char (Core.get_set (by decide)))
  rw [Core.get_set_of_ne (by decide), Core.get_set (by decide)] at hg₁
  refine ⟨_, hg₁, ?_⟩
  rw [← lowByte_eq hspells]
  exact (((Prints.refl core).set (by decide)).set (by decide)).write

/-! Elements -/

theorem Reaches.passKind (hli : lines[k]? = some (.li .t5 n)) (hbeq : lines[k + 1]? = some (.beq .t1 .t5 place))
    (hn : core.get .t1 ≠ .ofInt 32 n) (hg : Reaches L lines start ⟨core.set .t5 w, k⟩) :
    Reaches L lines start ⟨core.set .t5 (.ofInt 32 n), k + 2⟩ := by
  have hg₁ := hg.step (step_instruction hli rfl)
  rw [Core.set_set] at hg₁
  apply hg₁.step
  have hcode : (core.set .t5 (.ofInt 32 n)).get .t1 = core.get .t1 := Core.get_set_of_ne (by decide)
  simp [Machine.step, hbeq, branchTaken, hcode, Core.get_set, hn]

theorem Reaches.takeKind (hunique : ∀ l, labelCount l lines ≤ 1) (hli : lines[k]? = some (.li .t5 n))
    (hbeq : lines[k + 1]? = some (.beq .t1 .t5 place)) (hplace : lines[m]? = some (.label place))
    (hn : core.get .t1 = .ofInt 32 n) (hg : Reaches L lines start ⟨core.set .t5 w, k⟩) :
    ∃ w, Reaches L lines start ⟨core.set .t5 w, m⟩ := by
  have hg₁ := (hg.step (step_instruction hli rfl)).branch hbeq hplace (hunique _)
  rw [Core.set_set, Core.get_set_of_ne (by decide), Core.get_set (by decide), hn, branchTaken, if_pos (by simp)] at hg₁
  exact ⟨_, hg₁⟩

theorem Reaches.dispatch (hunique : ∀ l, labelCount l lines ≤ 1) (hc : CodeAt lines k dispatchLines k')
    (hplace : lines[m]? = some (.label (shownPlace elem))) (hcode : core.get .t1 = .ofInt 32 (elementCode elem))
    (hg : Reaches L lines start ⟨core, k⟩) : ∃ w, Reaches L lines start ⟨core.set .t5 w, m⟩ := by
  simp only [dispatchLines, codeAt_instruction, codeAt_nil] at hc
  obtain ⟨hint, hint', hfloat, hfloat', hbool, hbool', hchar, hchar', hj, rfl⟩ := hc
  rw [← Core.set_get (c := core) (r := .t5) (by decide)] at hg
  have hne {n : Int} (hn : BitVec.ofInt 32 (elementCode elem) ≠ .ofInt 32 n) : core.get .t1 ≠ .ofInt 32 n := by
    rwa [hcode]
  cases elem with
  | int => exact hg.takeKind hunique hint hint' hplace hcode
  | float => exact (hg.passKind hint hint' (hne (by decide))).takeKind hunique hfloat hfloat' hplace hcode
  | bool =>
    have hg₂ := (hg.passKind hint hint' (hne (by decide))).passKind hfloat hfloat' (hne (by decide))
    exact hg₂.takeKind hunique hbool hbool' hplace hcode
  | char =>
    have hg₂ := (hg.passKind hint hint' (hne (by decide))).passKind hfloat hfloat' (hne (by decide))
    exact (hg₂.passKind hbool hbool' (hne (by decide))).takeKind hunique hchar hchar' hplace hcode
  | string =>
    have hg₂ := (hg.passKind hint hint' (hne (by decide))).passKind hfloat hfloat' (hne (by decide))
    have hg₄ := (hg₂.passKind hbool hbool' (hne (by decide))).passKind hchar hchar' (hne (by decide))
    exact ⟨_, hg₄.jump hj hplace (hunique _)⟩

theorem Reaches.shown (hunique : ∀ l, labelCount l lines ≤ 1)
    (hc : CodeAt lines k (dispatchLines ++ shownLines truthy next) k') (hnext : lines[k']? = some (.label next))
    (hcode : core.get .t1 = .ofInt 32 (elementCode elem)) (hfixed : FixedTexts L core)
    (hu : ElementAt core (core.get .a0) elem u) (hspells : SpellsRight u) (hg : Reaches L lines start ⟨core, k⟩) :
    ∃ core', Reaches L lines start ⟨core', k'⟩ ∧ Prints [.t5, .a0, .a7] core core' (bytes u.display) := by
  obtain ⟨j, hdispatch, hc⟩ := codeAt_append.mp hc
  obtain ⟨j₁, hint, hc⟩ := codeAt_append.mp hc
  obtain ⟨j₂, hfloat, hc⟩ := codeAt_append.mp hc
  obtain ⟨j₃, hbool, hc⟩ := codeAt_append.mp hc
  obtain ⟨j₄, htext, hc⟩ := codeAt_append.mp hc
  obtain ⟨hj, hchar⟩ := codeAt_instruction.mp hc
  obtain ⟨hlabel, hint⟩ := codeAt_label.mp hint
  simp only [List.cons_append, codeAt_instruction] at hfloat
  obtain ⟨hj', -⟩ := hfloat
  simp only [boolLines, codeAt_instruction, codeAt_label, codeAt_nil] at hbool
  obtain ⟨hboolPlace, hbnez, hfalse, hj'', htruthy, htrue, rfl⟩ := hbool
  obtain ⟨htextPlace, htext⟩ := codeAt_label.mp htext
  obtain ⟨hcharPlace, hchar⟩ := codeAt_label.mp hchar
  -- A text is printed in the same way, be it an element or the text of a bool.
  have hprint {core₁ : Core} {xs : List UInt8} (h₁ : Prints [.t5, .a0, .a7] core core₁ [])
      (hxs : stringAt core.memory (core₁.get .a0) (2 ^ 32) = xs)
      (hg : Reaches L lines start ⟨core₁, j₂ + 1 + 1 + 1 + 1 + 1 + 1⟩) :
      ∃ core', Reaches L lines start ⟨core', k'⟩ ∧ Prints [.t5, .a0, .a7] core core' xs := by
    rw [← h₁.memory] at hxs
    have hservice : service (core₁.set .a7 4) = some ((core₁.set .a7 4).write xs) :=
      service_text (Core.get_set (by decide)) hxs
    exact ⟨_, ((hg.label htextPlace).asked htext hservice).jump hj hnext (hunique _), (h₁.set (by decide)).write⟩
  have hset (w : Word) : Prints [.t5, .a0, .a7] core (core.set .t5 w) [] := (Prints.refl core).set (by decide)
  have hload (w : Word) (string : FixedString) :
      Prints [.t5, .a0, .a7] core ((core.set .t5 w).set .a0 (L.data string.label)) [] :=
    (hset w).set (by decide)
  cases hu with
  | @int n hw =>
    obtain ⟨w, hg₁⟩ := hg.dispatch hunique hdispatch hlabel hcode
    have hservice : service ((core.set .t5 w).set .a7 1) =
        some (((core.set .t5 w).set .a7 1).write (bytes (Value.int n).display)) :=
      Process.service_int (Core.get_set (by decide)) hw
    have hg₂ := ((hg₁.label hlabel).asked hint hservice).jump hj' hnext (hunique _)
    exact ⟨_, hg₂, ((hset w).set (by decide)).write⟩
  | @bool b hw =>
    obtain ⟨w, hg₁⟩ := hg.dispatch hunique hdispatch hboolPlace hcode
    have hg₂ := (hg₁.label hboolPlace).branchZero hbnez htruthy (hunique _)
    rw [Core.get_set_of_ne (by decide), hw] at hg₂
    cases b with
    | true =>
      have hdisplay : (Value.bool true).display = content .trueText := by decide +kernel
      rw [if_pos (by decide)] at hg₂
      rw [hdisplay]
      exact hprint (hload w .trueText) (textAt_iff.mp (hfixed .trueText)).stringAt_eq
        ((hg₂.label htruthy).step (step_instruction htrue rfl))
    | false =>
      have hdisplay : (Value.bool false).display = content .falseText := by decide +kernel
      rw [if_neg (by decide)] at hg₂
      rw [hdisplay]
      exact hprint (hload w .falseText) (textAt_iff.mp (hfixed .falseText)).stringAt_eq
        ((hg₂.step (step_instruction hfalse rfl)).jump hj'' htextPlace (hunique _))
  | @char c hw =>
    obtain ⟨w, hg₁⟩ := hg.dispatch hunique hdispatch hcharPlace hcode
    have hg₂ := (hg₁.label hcharPlace).asked hchar (service_char (Core.get_set (by decide)))
    rw [Core.get_set_of_ne (by decide), Core.get_set_of_ne (by decide), hw, lowByte_eq hspells] at hg₂
    exact ⟨_, hg₂, ((hset w).set (by decide)).write⟩
  | @text s hs =>
    obtain ⟨w, hg₁⟩ := hg.dispatch hunique hdispatch htextPlace hcode
    exact hprint (hset w) (textAt_iff.mp hs).stringAt_eq hg₁

/-! The loop -/

structure Printing (core : Core) (r : Region) (elem : Scalar) (i : Nat) : Prop where
  address : core.get .t0 = r.address
  code : core.get .t1 = .ofInt 32 (elementCode elem)
  length : core.get .t2 = .ofNat 32 r.length
  position : core.get .t3 = .ofNat 32 i

theorem Printing.of_prints (h : Printing core r elem i) (hprints : Prints [.t4, .t5, .a0, .a7] core core' xs) :
    Printing core' r elem i where
  address := (hprints.registers .t0 (by decide)).trans h.address
  code := (hprints.registers .t1 (by decide)).trans h.code
  length := (hprints.registers .t2 (by decide)).trans h.length
  position := (hprints.registers .t3 (by decide)).trans h.position

theorem runLines_loadElement (ht₀ : core.get .t0 = r.address) (ht₃ : core.get .t3 = .ofNat 32 i) :
    runLines L core [.slli .t4 .t3 2, .add .t4 .t0 .t4, .lw .a0 0 .t4] =
      some ((core.set .t4 (r.element i)).set .a0 (core.loadWord (r.element i))) := by
  simp [runLine, effect, immediateOp, registerOp, Core.get_set, Core.get_set_of_ne, Core.loadWord_set, ht₀, ht₃,
    r.address_add_shift]

theorem runLines_printStart (ha₀ : core.get .a0 = r.address) (ha₁ : core.get .a1 = w)
    (hheader : core.loadWord r.header = .ofNat 32 r.length) :
    runLines L core printStart =
      some ((((core.set .t0 r.address).set .t1 w).set .t2 (.ofNat 32 r.length)).set .t3 0) := by
  simp [printStart, runLine, effect, moveOp, Core.get_set, Core.get_set_of_ne, Core.loadWord_set, Region.header_eq, ha₀,
    ha₁, hheader]

/--
Behind the last element the loop is left. Before it a separator is printed, but for the first element, and the element
is loaded.
-/
theorem Reaches.separated (hunique : ∀ l, labelCount l lines ≤ 1)
    (hc : CodeAt lines k (separatorLines top place done) k') (hdone : lines[m]? = some (.label done)) (hfits : r.Fits)
    (h : Printing core r elem i) (hi : i ≤ r.length) (hg : Reaches L lines start ⟨core, k⟩) :
    if i < r.length then
      ∃ core', Reaches L lines start ⟨core', k'⟩ ∧
        Prints [.t4, .a0, .a7] core core' (if i = 0 then [] else bytes ", ") ∧
        core'.get .a0 = core.loadWord (r.element i)
    else Reaches L lines start ⟨core, m⟩ := by
  obtain ⟨j, hc, helement⟩ := codeAt_append.mp hc
  obtain ⟨j', hhead, hseparator⟩ := codeAt_append.mp hc
  obtain ⟨j'', hcomma, hspace⟩ := codeAt_append.mp hseparator
  simp only [codeAt_instruction, codeAt_label, codeAt_nil] at hhead
  obtain ⟨htop, hbge, hbeqz, rfl⟩ := hhead
  obtain ⟨hplace, helement⟩ := codeAt_label.mp helement
  have hg₁ := (hg.label htop).branch hbge hdone (hunique _)
  rw [h.length, h.position, branchTaken, hfits.slt_length hi] at hg₁
  split
  · next hlt =>
    -- The element is loaded in the same way, be there a separator before it or not.
    have hload {core₁ : Core} {xs : List UInt8} (h₁ : Prints [.t4, .a0, .a7] core core₁ xs)
        (hg : Reaches L lines start ⟨core₁, j⟩) :
        ∃ core', Reaches L lines start ⟨core', k'⟩ ∧ Prints [.t4, .a0, .a7] core core' xs ∧
          core'.get .a0 = core.loadWord (r.element i) := by
      have hprinting := h.of_prints (h₁.mono (by decide))
      refine ⟨_, (hg.label hplace).straight helement (runLines_loadElement hprinting.address hprinting.position),
        (h₁.set (by decide)).set (by decide), ?_⟩
      rw [Core.get_set (by decide)]
      exact Core.loadWord_congr h₁.memory
    rw [decide_eq_true hlt, if_neg (by decide)] at hg₁
    have hg₂ := hg₁.branchZero hbeqz hplace (hunique _)
    simp only [h.position, zeroBranchTaken, hfits.ofNat_eq_zero hi, decide_eq_true_eq] at hg₂
    split
    · next hfirst =>
      rw [if_pos hfirst] at hg₂
      exact hload (.refl core) hg₂
    · next hfirst =>
      rw [if_neg hfirst] at hg₂
      obtain ⟨core₁, hg₃, h₁⟩ := hg₂.printedChar hcomma ⟨by decide, by decide⟩
      obtain ⟨core₂, hg₄, h₂⟩ := hg₃.printedChar hspace ⟨by decide, by decide⟩
      exact hload ((h₁.trans h₂).mono (by decide)) hg₄
  · next hge =>
    rw [decide_eq_false hge, if_pos (by decide)] at hg₁
    exact hg₁

theorem Reaches.printedItems {k₁ k₂ : Nat} (hunique : ∀ l, labelCount l lines ≤ 1)
    (hhead : CodeAt lines k (separatorLines top place done) k₁)
    (hshow : CodeAt lines k₁ (dispatchLines ++ shownLines truthy next) k₂)
    (htail : CodeAt lines k₂ [.label next, .addi .t3 .t3 1, .j top, .label done] k') (hfixed : FixedTexts L core)
    (harray : ArrayAt core r elem items) (hspells : ∀ v ∈ items, SpellsRight v) (hi : i ≤ r.length)
    (hrest : items.drop i = rest) (h : Printing core r elem i)
    (h₀ : Prints [.t3, .t4, .t5, .a0, .a7] core₀ core (bytes (joinedText ", " items i)))
    (hg : Reaches L lines start ⟨core, k⟩) :
    ∃ core', Reaches L lines start ⟨core', k'⟩ ∧
      Prints [.t3, .t4, .t5, .a0, .a7] core₀ core' (bytes (", ".intercalate (items.map Value.display))) := by
  have htop : lines[k]? = some (.label top) := by
    unfold separatorLines at hhead
    exact (codeAt_label.mp hhead).1
  simp only [codeAt_instruction, codeAt_label, codeAt_nil] at htail
  obtain ⟨hnext, haddi, hj, hdone, rfl⟩ := htail
  have hg₁ := hg.separated hunique hhead hdone harray.fits h hi
  induction rest generalizing core i with
  | nil =>
    have hge : items.length ≤ i := List.drop_eq_nil_iff.mp hrest
    rw [harray.length] at hge
    rw [if_neg (Nat.not_lt.mpr hge)] at hg₁
    obtain rfl : i = items.length := Nat.le_antisymm (harray.length ▸ hi) (harray.length ▸ hge)
    rw [joinedText_length] at h₀
    exact ⟨core, hg₁.label hdone, h₀⟩
  | cons u rest ih =>
    obtain ⟨hlt, hu, hrest'⟩ := harray.of_drop hrest
    rw [if_pos hlt] at hg₁
    obtain ⟨core₁, hg₁, h₁, ha₀⟩ := hg₁
    have hprinting := h.of_prints (h₁.mono (by decide))
    have hu₁ : ElementAt core₁ (core₁.get .a0) elem u := by
      rw [ha₀]
      exact (h₁.extended (by decide)).elementAt (harray.elements i u hu)
    obtain ⟨core₂, hg₂, h₂⟩ := hg₁.shown hunique hshow hnext hprinting.code
      (hfixed.of_extends (h₁.extended (by decide))) hu₁ (hspells u (List.mem_of_getElem? hu))
    have hprinting := hprinting.of_prints (h₂.mono (by decide))
    let core₃ := core₂.set .t3 (core₂.get .t3 + 1)
    have hg₃ : Reaches L lines start ⟨core₃, k⟩ :=
      ((hg₂.label hnext).step (step_instruction haddi rfl)).jump hj htop (hunique _)
    have hprinting : Printing core₃ r elem (i + 1) :=
      ⟨hprinting.address, hprinting.code, hprinting.length, position_succ hprinting.position⟩
    have hround : Prints [.t3, .t4, .t5, .a0, .a7] core core₃
        ((if i = 0 then [] else bytes ", ") ++ bytes u.display) :=
      ((h₁.mono (by decide)).trans (h₂.mono (by decide))).set (by decide)
    have hgrown : Extends core core₃ := hround.extended (by decide)
    have hprinted : Prints [.t3, .t4, .t5, .a0, .a7] core₀ core₃ (bytes (joinedText ", " items (i + 1))) := by
      have hseparator : bytes (if i = 0 then "" else ", ") = if i = 0 then [] else bytes ", " := apply_ite ..
      rw [joinedText_succ hu, bytes_append, bytes_append, hseparator, List.append_assoc]
      exact h₀.trans hround
    exact ih (hfixed.of_extends hgrown) (harray.of_extends hgrown) (Nat.succ_le_of_lt hlt) hrest' hprinting hprinted hg₃
      (hg₃.separated hunique hhead hdone harray.fits hprinting (Nat.succ_le_of_lt hlt))

theorem prints_printArray {k : Kind} (hlinked : Linked L lines)
    (hcall : lines[m]? = some (.jal Routine.printArray.label)) (hlength : m + 1 < lines.length)
    (hg : Reaches L lines start ⟨core, m⟩) (haddress : core.get .a0 = r.address)
    (hcode : core.get .a1 = .ofInt 32 (elementCode elem)) (hfixed : FixedTexts L core)
    (harray : ArrayAt core r elem items) (hspells : ∀ v ∈ items, SpellsRight v) :
    ∃ core', Reaches L lines start ⟨core', m + 1⟩ ∧
      Prints (.ra :: scratch) core core' (bytes (Value.array k items).display) := by
  apply hlinked.returns hcall hlength hg
  intro i j hc hret hg
  have hc : CodeAt lines i Routine.printArrayBody j := hc
  rw [printArrayBody_eq] at hc
  obtain ⟨i₁, hstart, hc⟩ := codeAt_append.mp hc
  obtain ⟨i₂, hopen, hc⟩ := codeAt_append.mp hc
  obtain ⟨i₃, hhead, hc⟩ := codeAt_append.mp hc
  obtain ⟨i₄, hshow, hc⟩ := codeAt_append.mp hc
  obtain ⟨i₅, htail, hclose⟩ := codeAt_append.mp hc
  let core₀ := core.set .ra (L.code (m + 1))
  let core₁ := (((core₀.set .t0 r.address).set .t1 (.ofInt 32 (elementCode elem))).set .t2 (.ofNat 32 r.length)).set
    .t3 0
  have h₁ : Prints (.ra :: scratch) core core₁ [] :=
    (((((Prints.refl core).set (by decide)).set (by decide)).set (by decide)).set (by decide)).set (by decide)
  have hg₁ : Reaches L lines start ⟨core₁, i₁⟩ :=
    hg.straight hstart (runLines_printStart haddress hcode harray.header)
  obtain ⟨core₂, hg₂, h₂⟩ := hg₁.printedChar hopen ⟨by decide, by decide⟩
  have hprinting : Printing core₁ r elem 0 := ⟨rfl, rfl, rfl, rfl⟩
  have h₂' : Prints (.ra :: scratch) core core₂ (bytes '['.toString) := h₁.trans (h₂.mono (by decide))
  have hgrown₂ : Extends core core₂ := h₂'.extended (by decide)
  obtain ⟨core₃, hg₃, h₃⟩ := hg₂.printedItems hlinked.unique hhead hshow htail (hfixed.of_extends hgrown₂)
    (harray.of_extends hgrown₂) hspells (Nat.zero_le _) rfl
    (hprinting.of_prints (h₂.mono (by decide))) (.refl core₂)
  obtain ⟨core₄, hg₄, h₄⟩ := hg₃.printedChar hclose ⟨by decide, by decide⟩
  refine ⟨core₄, j, hg₄, hret, ?_, ?_⟩
  · rw [h₄.registers .ra (by decide), h₃.registers .ra (by decide), h₂.registers .ra (by decide)]
    rfl
  · rw [Value.display, Value.displayAll_eq, bytes_append, bytes_append]
    exact (h₂'.trans (h₃.mono (by decide))).trans (h₄.mono (by decide))

end Output

end Arbor.Machine
