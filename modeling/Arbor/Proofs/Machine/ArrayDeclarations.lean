import Arbor.Proofs.Evaluation.Refusals
import Arbor.Proofs.Machine.Construction
import Arbor.Proofs.Machine.Trace

/-!
This module contains the declarations of arrays. The code of a declaration makes the array that the evaluator binds, and
leaves the address of its first element in the new slot.
-/

namespace Arbor

open Lowering (Frame Slot SlotKind ArrayCode intLiteral? lowerStmt)

theorem Lowering.ArrayCode.elem_eq {limit n n' : Nat} {f : Frame} {d d' : Assembly.DataSection} {elem? : Option Scalar}
    {init : ArrayInit} {elem s : Scalar} {len : Option Nat} {c : List Assembly.Line}
    (h : ArrayCode limit f n d elem? init elem len c n' d') (hs : elem? = some s) : s = elem := by
  subst hs
  cases h with
  | values hitems => cases hitems <;> rfl
  | sized | computed => rfl
  | copied _ _ hdeclared | copiedHeap _ _ hdeclared => exact hdeclared s rfl

namespace Machine

open Assembly Agreement Evaluation

variable {cx : Context} {p : Workspace} {A : Arena} {f : Frame} {kept : Nat → Word} {s : State} {span : Span}
  {elem : Scalar} {name : String} {height n n' k k' count : Nat} {len : Option Nat} {c : List Line} {heap : Heap}

namespace Workspace

/--
What the initial array of a declaration asks of a workspace: the code of its parts keeps up with their evaluation,
its length is within the limit and not negative, and the heap has space for it if it goes there. What is known of
the heap may be something else after the parts.
-/
inductive Provides (p : Workspace) (cx : Context) (A : Arena) (f : Frame) (elem : Scalar) (s : State) :
    ArrayInit → Nat → Heap → Prop where
  | values {items : List Expr} {height : Nat} {heap : Heap} :
    SuppliesAll cx f elem height p items heap → Provides p cx A f elem s (.values items) (items.length + height) heap
  | sized {length : Expr} {size : Int64} :
    intLiteral? length = some size → size.toInt.toNat ≤ cx.maxArrayLength →
    Provides p cx A f elem s (.sized length) 0 p.heap
  | computed {length : Expr} {height : Nat} {heap : Heap} :
    intLiteral? length = none → p.Pushes cx f length .int height heap →
    (∀ m s', evaluate cx length s = .ok (.int m) s' →
      ¬m < 0 ∧ m.toInt.toNat ≤ cx.maxArrayLength ∧ (p.withHeap heap).HasHeap A m.toInt.toNat) →
    Provides p cx A f elem s (.sized length) height heap
  | copy {source : String} :
    Plain source →
    (∀ offset slot, f.resolve? source = some (offset, slot) → slot.length = none →
      ∀ kind vs, s.env.get source = .ok ⟨kind, .array (.scalar elem) vs⟩ → p.HasHeap A vs.length) →
    Provides p cx A f elem s (.copyOf source) 0 p.heap

/--
The code of the initial array of a declaration makes the array that the evaluator builds.
-/
theorem follows_initialArray {limit : Nat} {init : ArrayInit} {elem? : Option Scalar} {d d' : DataSection}
    (hcode : ArrayCode limit f n d elem? init elem len c n' d') (hinit : Provides p cx A f elem s init height heap)
    (hcell : elem.isCell = true) (harranged : (p.withHeap heap).Arranged A d.arrays.length f)
    (hdata : d'.arrays <+: A.lengths)
    (hroom : f.slots.length + height < p.limit) (hs : p.tracker.At k (p.Holds f kept) s)
    (hc : CodeAt p.lines k c k') :
    Triple (· = s) (initialArray cx span init elem 1)
      ((p.withHeap heap).Made A d'.arrays.length f kept elem len k') p.Halts := by
  have hnext {m : Nat} (h : (d.allocate m).2.arrays <+: A.lengths) :
      (d.allocate m).2.arrays.length = d.arrays.length + 1 ∧ A.lengths[d.arrays.length]? = some m := by
    refine ⟨List.length_append, ?_⟩
    obtain ⟨rest, hrest⟩ := h
    rw [← hrest, List.getElem?_append_left (by simp [DataSection.allocate])]
    exact List.getElem?_concat_length
  have hbegin : ∀ t, t = s → p.tracker.At k (p.Holds f kept) t := fun t ht => ht ▸ hs
  cases hcode with
  | values hitems =>
    cases hinit with
    | values hsupplies =>
      rw [(hnext hdata).1]
      exact (follows_values hsupplies (hitems.declared hcell) harranged (hnext hdata).2 (by omega) hc).pre hbegin
  | sized hliteral hpos hword =>
    cases hinit with
    | computed hnone => cases hliteral.symm.trans hnone
    | sized hliteral' hmax =>
      cases hliteral.symm.trans hliteral'
      rw [(hnext hdata).1]
      have hlength := (word_of_intWord hword).1 ▸ hmax
      exact (follows_sized hliteral hpos hword hlength hcell harranged (hnext hdata).2 hroom hc).pre hbegin
  | computed hnone hlength =>
    cases hinit with
    | sized hliteral => cases hnone.symm.trans hliteral
    | computed _ hpushes hsize => exact follows_computed hpushes hlength hcell harranged hroom hsize hs hc
  | copied hslot hkind _ hlength =>
    cases hinit with
    | copy hname =>
      rw [(hnext hdata).1]
      exact (follows_copied hname hslot hkind hcell hlength harranged (hnext hdata).2 hroom hc).pre hbegin
  | copiedHeap hslot hkind _ hlength =>
    cases hinit with
    | copy hname hheap =>
      exact follows_copiedHeap hname hslot hkind hcell harranged hroom (hheap _ _ hslot hlength) hs hc

/--
A declaration made an array. The word in the new slot, which is the newest one, is the address of a region apart
from the arrays that there were. The region has the array that the evaluator binds, and the machine agrees with the
evaluator. The pointer to the heap was moved over the region if it lies there.
-/
structure Gained (p : Workspace) (A : Arena) (count : Nat) (f : Frame) (kept : Nat → Word) (name : String)
    (elem : Scalar) (len : Option Nat) (s : State) (r : Region) (core : Core) : Prop where
  address : core.get .sp = slotAt p.base f.slots.length ∧ core.loadWord (slotAt p.base f.slots.length) = r.address
  array : ∃ vs, s.env.get name = .ok ⟨.array (.scalar elem), .array (.scalar elem) vs⟩ ∧
    HasArray core.loadWord r (.scalar elem) vs
  apart : ∀ n r', p.regions n = some r' → r.Apart r'
  agrees : ∃ heap hr, p.heap.After r heap ∧
    ((p.extended f.slots.length r hr).withHeap heap).Holds (f.pushNamed (.array elem) len name) kept s core ∧
    ((p.extended f.slots.length r hr).withHeap heap).Arranged A count (f.pushNamed (.array elem) len name)

theorem Made.gained {v : Value} (h : p.Made A count f kept elem len k v s)
    (hslots : ∀ n r, p.regions n = some r → n < f.slots.length) (hfree : f.isDeclared name = false)
    (hname : Declarable Plain name) (hcell : elem.isCell = true) :
    ∃ env, s.env.declare name (.array (.scalar elem)) v = .ok env ∧
      ∃ core r, Reaches p.layout p.lines p.start ⟨core, k⟩ ∧
        p.Gained A count f kept name elem len { s with env } r core := by
  obtain ⟨r, hr, heap, vs, core, rfl, hg, hmakes⟩ := h
  obtain ⟨env, hdeclare, hholds⟩ := hmakes.holds.named hslots hmakes.items hcell hfree hname
  refine ⟨env, hdeclare, core, r, hg, ?_⟩
  have hslot : (f.pushNamed (.array elem) len name).resolve? name =
      some (0, ⟨.array elem, wordBytes, f.depth, some name, len⟩) := by
    simp [Frame.resolve?, Frame.resolve?.go, Frame.pushNamed, Slot.isNamed]
  have hplace : (f.pushNamed (.array elem) len name).place? name =
      some (f.slots.length, ⟨.array elem, wordBytes, f.depth, some name, len⟩) := by
    simp [Frame.place?, Frame.place?.go, Frame.pushNamed, Slot.isNamed]
  obtain ⟨m, r', vs', hplace', hr', hget, hitems', -⟩ := hholds.array hname.visible hslot rfl hcell
  cases hplace.symm.trans hplace'
  cases (regions_extended hr).symm.trans hr'
  have htop := hmakes.holds.top
  rw [hmakes.holds.sp_push] at htop
  exact ⟨⟨hmakes.holds.sp_push, htop⟩, ⟨vs', hget, hitems'⟩, fun _ _ => hr.apart, heap, hr, hmakes.after, hholds,
    hmakes.arranged name⟩

theorem follows_declareArray {P : State → Prop} {ty : TypeName} {build : Scalar → Nat → Run Value}
    (hslots : ∀ n r, p.regions n = some r → n < f.slots.length) (hfree : f.isDeclared name = false)
    (hname : Declarable Plain name) (hty : ty.scalar? = some elem) (hcell : elem.isCell = true)
    (hbuild : Triple P (build elem 1) (p.Made A count f kept elem len k) p.Halts) :
    Triple P (declareArray span ty 1 name build) (fun _ s => ∃ core r, Reaches p.layout p.lines p.start ⟨core, k⟩ ∧
      p.Gained A count f kept name elem len s r core) p.Halts := by
  rw [declareArray, hty]
  have hchecked : Triple P (checkArray (build elem 1)) (fun checked s =>
      (∃ v, checked = .ok v ∧ p.Made A count f kept elem len k v s) ∨ ∃ why, checked = .error why ∧ p.Exits) p.Halts :=
    Triple.checkArray hbuild (fun v _ h => .inl ⟨v, rfl, h⟩) fun e _ h => .inr ⟨e.kind, rfl, h⟩
  apply Triple.bind hchecked
  rintro checked s (⟨v, rfl, hs⟩ | ⟨why, rfl, hs⟩)
  · obtain ⟨env, hdeclare, hgained⟩ := hs.gained hslots hfree hname hcell
    have hrun : bindChecked span name (.array (.scalar elem)) (.ok v) s = .ok () { s with env } := by
      change EStateM.bind (liftAt span (s.env.declare name (.array (.scalar elem)) v)) setEnvironment s = _
      rw [hdeclare]
      rfl
    exact hrun ▸ hgained
  · obtain ⟨e, t, -, hrun⟩ := exists_leavesNull_of_bindChecked span name (.array (.scalar elem)) s why
    exact hrun ▸ hs

end Workspace

/--
A declaration of an array in the generated code and in the evaluator. If the kind of the elements is declared, they
are ints, bools or chars, and what the initial array asks is provided (the code of each element, or of a computed
length, keeps up with its evaluation, and a computed length is not negative), the code makes the array that the
evaluator binds, in a region apart from all other arrays, and exits with an error if the evaluation fails. If it is
not declared, the evaluator refuses the declaration at once, and the code is that of a declaration with the kind of
the first element or of the source.
-/
theorem arrayDeclaration_of_lowerStmt {limit : Nat} {ty : TypeName} {dims : UInt32} {init : ArrayInit}
    {g g' : Lowering.State} (haccepted : lowerStmt limit (.arrayDecl span ty dims name init) g = .ok () g') :
    ∃ elem len c, g'.assembler = g.assembler.write c ∧ g'.frame = g.frame.pushNamed (.array elem) len name ∧
      (∀ declared, ty.scalar? = some declared → declared = elem) ∧
      (ty.scalar? = none → ty = .var ∧ ∀ cx s, execute cx (.arrayDecl span ty dims name init) s =
        .error (.error ⟨.typeMismatch "an array element type" TypeName.var.text, span⟩) s) ∧
      ∀ {cx : Context} {p : Workspace} {A : Arena} {kind : TypeName} {height k k' : Nat} {kept : Nat → Word}
        {s : State} {heap : Heap},
        kind.scalar? = some elem → elem.isCell = true → Declarable Plain name →
        (p.withHeap heap).Arranged A g.data.arrays.length g.frame → g'.data.arrays <+: A.lengths →
        p.Provides cx A g.frame elem s init height heap → g.frame.slots.length + height < p.limit →
        CodeAt p.lines k c k' →
        p.tracker.At k (p.Holds g.frame kept) s →
        match execute cx (.arrayDecl span kind dims name init) s with
        | .error halt s' => p.Halts halt s'
        | .ok flow s' => flow = .normal ∧ ∃ core r, Reaches p.layout p.lines p.start ⟨core, k'⟩ ∧
            (p.withHeap heap).Gained A g'.data.arrays.length g.frame kept name elem len s' r core := by
  unfold lowerStmt at haccepted
  obtain ⟨elem, len, c, n, d, hdims, hfree, hty, hcode, rfl⟩ := Lowering.arrayCode_of_lowerArrayDecl haccepted
  subst hdims
  refine ⟨elem, len, c, Lowering.State.assembler_write, rfl, fun declared hdeclared => ?_, fun hnone => ?_, ?_⟩
  · exact hcode.elem_eq hdeclared
  · have hvar : ty = .var := hty.resolve_left fun hsome => hsome hnone
    refine ⟨hvar, fun cx s => ?_⟩
    rw [execute, declareArray, hnone, hvar]
    rfl
  · intro cx p A kind height k k' kept s heap hkind hcell hname harranged hdata hprovides hroom hc hs
    have hinit : Triple (· = s) (initialArray cx span init elem 1) _ _ :=
      Workspace.follows_initialArray hcode hprovides hcell harranged hdata hroom hs hc
    have hdeclared : Triple (· = s) (declareArray span kind 1 name (initialArray cx span init)) _ _ :=
      Workspace.follows_declareArray (p := p.withHeap heap) harranged.slots hfree hname hkind hcell hinit
    have hexecuted : Triple (· = s) (execute cx (.arrayDecl span kind 1 name init)) (fun flow s' => flow = .normal ∧
        ∃ core r, Reaches p.layout p.lines p.start ⟨core, k'⟩ ∧
          (p.withHeap heap).Gained A d.arrays.length g.frame kept name elem len s' r core) p.Halts := by
      rw [execute]
      exact hdeclared.bind fun _ => Triple.pure fun _ hs => ⟨rfl, hs⟩
    have hresult := hexecuted s rfl
    cases hrun : execute cx (.arrayDecl span kind 1 name init) s with
    | ok flow s' | error halt s' =>
      rw [hrun] at hresult
      exact hresult

/-! Declarations after a row -/

def rowArena : Arena :=
  ⟨0x10020000, [2, 1], 64⟩

def rowLayout (lines : List Line) : Layout where
  data
    | .array i => rowArena.base + .ofNat 32 (rowArena.start i)
    | l => (Layout.usual lines).data l
  code := (Layout.usual lines).code

def rowPlace (a : Word) : Prop :=
  0x10020014 ≤ a.toNat

/--
The machine before a run through some lines, with room for 16 words and an arena. The words for strings are the
addresses of their texts.
-/
def arenaWorkspace (lines : List Line) (h : Linked (.usual lines) lines) : Workspace :=
  { rowWorkspace lines h with
    layout := rowLayout lines
    linked := ⟨h.unique, h.routine, h.fits.marks, h.fits.distinct⟩
    spared := fun a => 12 ≤ rowArena.offset a ∧ rowArena.offset a < 16
    heap := ⟨rowPlace, fun w _ => w = 0x10020014,
      fun w memory _ a v => ∃ t, v = .text t ∧ TextIn rowPlace memory w a t⟩ }

theorem holds_arena {lines : List Line} (h : Linked (.usual lines) lines) :
    (arenaWorkspace lines h).Holds rowGenerator.frame (fun n => rowCore.loadWord (slotAt 0x7fffeffc n)) rowState
      rowCore := by
  refine (holds_rowCore h).moved (q := arenaWorkspace lines h) rfl rfl rfl (fun _ _ => rfl) ?_ ?_
  · exact ⟨rowCore.memory, Core.get_set (by decide), fun _ _ => rfl⟩
  · rintro _ _ _ ⟨_, ⟨⟩, _⟩

theorem regions_arena {lines : List Line} {h : Linked (.usual lines) lines} {n : Nat} {r : Region}
    (hr : (arenaWorkspace lines h).regions n = some r) : n = 1 ∧ r = ⟨0x10020004, 2⟩ := by
  change (if n = 1 then some _ else none) = some r at hr
  split at hr
  · next hn => exact ⟨hn, (Option.some.inj hr).symm⟩
  · cases hr

theorem arranged_arena {lines : List Line} (h : Linked (.usual lines) lines) :
    (arenaWorkspace lines h).Arranged rowArena 1 rowGenerator.frame := by
  have hframe : rowGenerator.frame.slots.length = 2 ∧
      (rowGenerator.frame.slots.reverse[1]?).bind Slot.length = some 2 := by
    decide +kernel
  refine ⟨by decide, by decide, fun _ _ => rfl, fun i n hi hn => ?_, fun a ha => ?_, ?_, fun n r hr => ?_,
    fun n r hr => ?_, fun n slot m r hslot hm hr => ?_⟩
  · have hi' : i = 1 := by
      have hlt : i < 2 := (List.getElem?_eq_some_iff.mp hn).1
      omega
    subst hi'
    cases hn
    refine ⟨fun j hj => ?_, show rowCore.loadWord 0x1002000c = 1 by decide +kernel⟩
    change 12 ≤ (0x10020000 + BitVec.ofNat 32 12 + BitVec.ofNat 32 j - 0x10020000#32).toNat ∧
      (0x10020000 + BitVec.ofNat 32 12 + BitVec.ofNat 32 j - 0x10020000#32).toNat < 16
    bv_omega
  · change (a - 0x10020000#32).toNat < 64 at ha
    change ¬(0x7fffeffc#32 - 1 - a).toNat < 4 * 16
    bv_omega
  · rintro w ⟨-, rfl⟩
    decide
  · obtain ⟨rfl, -⟩ := regions_arena hr
    omega
  · obtain ⟨-, rfl⟩ := regions_arena hr
    exact ⟨by decide, .inl (by decide)⟩
  · obtain ⟨rfl, rfl⟩ := regions_arena hr
    rw [hslot] at hframe
    exact Option.some.inj (hframe.2.symm.trans hm)

theorem clear_arena {lines : List Line} {n : Nat} (h : Linked (.usual lines) lines) (hn : n ≤ 64) :
    (arenaWorkspace lines h).Clear n where
  half := show (0x7fffeffc#32).toNat ≤ 2 ^ 31 by decide
  aligned := by
    rintro w memory rfl
    decide
  room := by
    rintro w memory rfl
    change 0x10020014 + n + 4 * 16 ≤ 0x7fffeffc
    omega
  spares := by
    rintro w memory a rfl ⟨⟨-, ha⟩, -, -⟩
    left
    change (a - 0x10020000#32).toNat < 16 at ha
    bv_omega
  regions := by
    rintro w memory m r a rfl hr ha
    obtain ⟨-, rfl⟩ := regions_arena hr
    unfold Region.Covers Region.header at ha
    bv_omega
  places m r a hr ha := by
    obtain ⟨-, rfl⟩ := regions_arena hr
    unfold Region.Covers Region.header at ha
    change ¬0x10020014 ≤ a.toNat
    bv_omega
  fresh := by
    rintro w memory a rfl hlow -
    exact hlow
  texts _ _ _ _ := Iff.rfl

def declarationCode (stmt : Stmt) : List Line :=
  match lowerStmt 0 stmt rowGenerator with
  | .ok _ g => g.assembler.lines.toList.drop rowGenerator.assembler.lines.size
  | .error .. => []

def declarationLines (stmt : Stmt) : List Line :=
  declarationCode stmt ++ Routine.parseInt.lines

def parsedLength : Expr :=
  .call .unplaced (.var .unplaced "parseInt") [.literal .unplaced (.string "1")]

/--
A computed length that takes bytes from the heap: `int w[parseInt("1")];`.
-/
def computedLength : Stmt :=
  .arrayDecl .unplaced .int 1 "w" (.sized parsedLength)

theorem arrayDeclaration_computedLength :
    ∃ cx s' core r, execute cx computedLength rowState = .ok .normal s' ∧
      Reaches (rowLayout (declarationLines computedLength)) (declarationLines computedLength) ⟨rowCore, 0⟩
        ⟨core, (declarationCode computedLength).length⟩ ∧
      core.loadWord (core.get .sp) = r.address ∧ HasArray core.loadWord r .int [.int 0] ∧
      r.Apart ⟨0x10020004, 2⟩ := by
  let cx : Context := ⟨1, 0, fun _ _ _ => throw .outOfFuel⟩
  have hlinked : Linked (.usual (declarationLines computedLength)) (declarationLines computedLength) :=
    linked_usual (by decide +kernel) (by decide +kernel) (by decide +kernel)
  have hevaluated : (finished? (execute cx computedLength rowState)).map (fun r => intArray? r.2.env "w") =
      some (some [0]) := by
    decide +kernel
  have hlength : (finished? (evaluate cx parsedLength rowState)).map (fun r => intValue? r.1) = some (some 1) := by
    decide +kernel
  have hlowered : (finished? (lowerStmt 0 computedLength rowGenerator)).map (fun r => r.2.data) =
      some rowGenerator.data := by
    decide +kernel
  obtain ⟨⟨flow, s'⟩, hfinished, hget⟩ := Option.map_eq_some_iff.mp hevaluated
  have hexecute := eq_ok_of_finished? hfinished
  have hget := get_of_intArray? hget
  obtain ⟨⟨_, g⟩, hfinished, hdata⟩ := Option.map_eq_some_iff.mp hlowered
  have haccepted := eq_ok_of_finished? hfinished
  obtain ⟨elem, len, c, hcode, -, hdeclared, -, hmakes⟩ := arrayDeclaration_of_lowerStmt haccepted
  cases hdeclared .int rfl
  have hlines : declarationLines computedLength = c ++ Routine.parseInt.lines := by
    simp [declarationLines, declarationCode, haccepted, hcode, comments_rowGenerator, ← Array.length_toList]
  have hend : (declarationCode computedLength).length = c.length := by
    simp [declarationCode, haccepted, hcode, comments_rowGenerator, ← Array.length_toList]
  have hc : CodeAt (declarationLines computedLength) 0 c c.length := by
    rw [hlines]
    exact codeAt_start _
  let p := arenaWorkspace _ hlinked
  have hclear : p.Clear 4 := clear_arena hlinked (by decide)
  have htakes : Takes cx rowGenerator.frame parsedLength .int 1 4 :=
    .parsed rfl (by decide) (.literal (by decide)) fun t ht => ⟨1, by rw [ht]; exact ⟨by decide, by decide, by decide⟩⟩
  -- The text takes a word of the heap, and the array the two after it.
  have hpointer {w : Word} (hw : (p.heap.grown 4).Pointer w) :
      0x10020014 ≤ w.toNat ∧ w.toNat ≤ 0x10020018 := by
    obtain ⟨_, ⟨_, _, rfl, hle, hgrown, -⟩, -⟩ := hw
    exact ⟨hle, hgrown⟩
  have hprovides : p.Provides cx rowArena rowGenerator.frame .int rowState (.sized parsedLength) 1
    (p.heap.grown 4) := by
    refine .computed rfl (htakes hclear) fun m t ht => ?_
    rw [ht] at hlength
    cases hlength
    refine ⟨by decide, by decide, fun w hw => ?_⟩
    have hw := hpointer hw
    change (w - 0x10020000#32).toNat + 4 * (1 + 1) ≤ 64
    bv_omega
  have harranged : (p.withHeap (p.heap.grown 4)).Arranged rowArena 1 rowGenerator.frame := by
    refine (arranged_arena hlinked).widened fun w hw => ⟨0x10020014, ⟨rowCore.memory, rfl⟩, ?_⟩
    have hw := hpointer hw
    change (0x10020014#32 - 0x10020000#32).toNat ≤ (w - 0x10020000#32).toNat ∧ (w - 0x10020000#32).toNat ≤ 64
    bv_omega
  have hdata : g.data.arrays <+: rowArena.lengths := by
    rw [hdata]
    decide +kernel
  have hmade := @hmakes cx p rowArena .int 1 0 c.length _ rowState _ rfl rfl ⟨by decide, by decide⟩ harranged hdata
    hprovides (show _ < 16 by decide +kernel) hc ⟨rowCore, .refl _, holds_arena hlinked⟩
  unfold computedLength at hexecute
  rw [hexecute] at hmade
  obtain ⟨rfl, core, r, hg, hgained⟩ := hmade
  obtain ⟨vs, hget', hitems⟩ := hgained.array
  cases hget.symm.trans hget'
  refine ⟨cx, s', core, r, hexecute, hend ▸ hg, ?_, hitems, hgained.apart 1 _ rfl⟩
  rw [hgained.address.1, hgained.address.2]

def inferredKind : Stmt :=
  .arrayDecl .unplaced .var 1 "w" (.values [.literal .unplaced (.int 1)])

def negativeLength : Stmt :=
  .arrayDecl .unplaced .int 1 "w"
    (.sized (.binary .unplaced .sub (.var .unplaced "i") (.literal .unplaced (.int 1))))

def embeddedName : Stmt :=
  .arrayDecl .unplaced .int 1 "toString" (.values [.literal .unplaced (.int 1)])

/--
An element whose code does not keep up with its evaluation: `int w = {i += (i = 5)};`.
-/
def assigningElement : Stmt :=
  .arrayDecl .unplaced .int 1 "w"
    (.values [.assign .unplaced "i" .add (.assign .unplaced "i" .set (.literal .unplaced (.int 5)))])

/--
From states that agree the code of a declaration comes to its end with an address in the new slot.
-/
structure Arrives (stmt : Stmt) (address : Word) (core : Core) : Prop where
  accepted : ∃ g, lowerStmt 0 stmt rowGenerator = .ok () g
  agrees : ∃ hlinked kept,
    (arenaWorkspace (declarationLines stmt) hlinked).Holds rowGenerator.frame kept rowState rowCore ∧
    (arenaWorkspace (declarationLines stmt) hlinked).Arranged rowArena 1 rowGenerator.frame
  reaches : Reaches (rowLayout (declarationLines stmt)) (declarationLines stmt) ⟨rowCore, 0⟩
    ⟨core, (declarationCode stmt).length⟩
  slot : core.get .sp = slotAt 0x7fffeffc 2 ∧ core.loadWord (slotAt 0x7fffeffc 2) = address

theorem arrives_of_passing {stmt : Stmt} {address : Word} {n : Nat} {m : Hart}
    (hlinked : Linked (.usual (declarationLines stmt)) (declarationLines stmt))
    (haccepted : (finished? (lowerStmt 0 stmt rowGenerator)).isSome = true)
    (hm : (passing (rowLayout (declarationLines stmt)) (declarationLines stmt) 0 .t0 n ⟨rowCore, 0⟩).2 = m)
    (hpassing : m.pc = (declarationCode stmt).length ∧ m.core.get .sp = slotAt 0x7fffeffc 2 ∧
      m.core.loadWord (slotAt 0x7fffeffc 2) = address) :
    Arrives stmt address m.core := by
  obtain ⟨hpc, hslot⟩ := hpassing
  obtain ⟨_, g, haccepted⟩ := ok_of_isSome_finished? haccepted
  refine ⟨⟨g, haccepted⟩, ⟨hlinked, _, holds_arena hlinked, arranged_arena hlinked⟩, ?_, hslot⟩
  have hpasses : Passes (rowLayout (declarationLines stmt)) (declarationLines stmt) 0 .t0 ⟨rowCore, 0⟩ _ _ :=
    passes_passing n _
  rw [hm] at hpasses
  have hreaches := hpasses.reaches
  rwa [← hpc]

def Refused (cx : Context) (stmt : Stmt) : Prop :=
  ∃ e s', execute cx stmt rowState = .error (.error e) s'

def intsAfter? (x : EStateM.Result Halt State Flow) (name : String) : Option (List Int32) :=
  match x with
  | .ok .normal s => intArray? s.env name
  | _ => none

theorem exists_of_intsAfter? {x : EStateM.Result Halt State Flow} {ns : List Int32} (h : intsAfter? x name = some ns) :
    ∃ s, x = .ok .normal s ∧ s.env.get name = .ok ⟨.array (.scalar .int), .array (.scalar .int) (ns.map .int)⟩ := by
  unfold intsAfter? at h
  split at h
  · next s => exact ⟨s, rfl, get_of_intArray? h⟩
  · cases h

def isRefused : EStateM.Result Halt State Flow → Bool
  | .error (.error _) _ => true
  | _ => false

theorem refused_of_isRefused {cx : Context} {stmt : Stmt} (h : isRefused (execute cx stmt rowState) = true) :
    Refused cx stmt := by
  unfold isRefused at h
  split at h
  · next e s' hrun => exact ⟨e, s', hrun⟩
  · cases h

theorem arrayDeclaration_disagrees :
    ∃ cx core₁ core₂ core₃ core₄ s',
      (Refused cx inferredKind ∧ Arrives inferredKind 0x10020010 core₁ ∧
        HasArray core₁.loadWord ⟨0x10020010, 1⟩ .int [.int 1]) ∧
      (Refused cx negativeLength ∧ Arrives negativeLength 0x10020018 core₂) ∧
      (Refused cx embeddedName ∧ Arrives embeddedName 0x10020010 core₃) ∧
      execute cx assigningElement rowState = .ok .normal s' ∧
        s'.env.get "w" = .ok ⟨.array (.scalar .int), .array (.scalar .int) [.int 10]⟩ ∧
        Arrives assigningElement 0x10020010 core₄ ∧ core₄.loadWord 0x10020010 = 5 := by
  let cx : Context := ⟨1, 0, fun _ _ _ => throw .outOfFuel⟩
  have hlinked₁ : Linked (.usual (declarationLines inferredKind)) (declarationLines inferredKind) :=
    linked_usual (by decide +kernel) (by decide +kernel) (by decide +kernel)
  have hlinked₂ : Linked (.usual (declarationLines negativeLength)) (declarationLines negativeLength) :=
    linked_usual (by decide +kernel) (by decide +kernel) (by decide +kernel)
  have hlinked₃ : Linked (.usual (declarationLines embeddedName)) (declarationLines embeddedName) :=
    linked_usual (by decide +kernel) (by decide +kernel) (by decide +kernel)
  have hlinked₄ : Linked (.usual (declarationLines assigningElement)) (declarationLines assigningElement) :=
    linked_usual (by decide +kernel) (by decide +kernel) (by decide +kernel)
  have hevaluated : intsAfter? (execute cx assigningElement rowState) "w" = some [10] := by decide +kernel
  obtain ⟨s', hexecute, hget⟩ := exists_of_intsAfter? hevaluated
  refine ⟨cx, _, _, _, _, s', ⟨refused_of_isRefused (by decide +kernel),
      arrives_of_passing (n := 10) hlinked₁ (by decide +kernel) rfl (by decide +kernel), ?_⟩,
    ⟨refused_of_isRefused (by decide +kernel),
      arrives_of_passing (n := 27) hlinked₂ (by decide +kernel) rfl (by decide +kernel)⟩,
    ⟨refused_of_isRefused (by decide +kernel),
      arrives_of_passing (n := 10) hlinked₃ (by decide +kernel) rfl (by decide +kernel)⟩,
    hexecute, hget,
    arrives_of_passing (n := 24) hlinked₄ (by decide +kernel) rfl (by decide +kernel), by decide +kernel⟩
  refine ⟨rfl, by decide +kernel, by simpa using HasCell.int 1, fun i v hv => ?_⟩
  match i, hv with
  | 0, hv =>
    cases hv
    decide +kernel

end Machine

end Arbor
