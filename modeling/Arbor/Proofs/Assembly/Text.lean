import Arbor.Assembly.File
import Arbor.Proofs.Assembly.Symbols
import Arbor.Proofs.Json.Number

/-!
This module contains the text of assembly as lines: each line of code is one line of the text, and the lines of the
text that show a comment are those of comments.
-/

namespace Arbor.Assembly

/-! Texts -/

def OneLine (text : String) : Prop :=
  '\n' ∉ text.toList

instance (text : String) : Decidable (OneLine text) :=
  inferInstanceAs (Decidable ('\n' ∉ text.toList))

def showsComment (text : String) : Bool :=
  "    # ".toList.isPrefixOf text.toList

def withoutComments (text : String) : String :=
  let rows := (text.toList.splitOn '\n').filter fun row => !showsComment (.ofList row)
  .ofList (['\n'].intercalate rows)

def unlines (rows : List String) : String :=
  String.join (rows.map (· ++ "\n"))

section Texts

variable {s t : String} {rows rows' : List String}

theorem OneLine.append (hs : OneLine s) (ht : OneLine t) : OneLine (s ++ t) := by
  unfold OneLine at hs ht ⊢
  rw [String.toList_append, List.mem_append]
  exact not_or.mpr ⟨hs, ht⟩

theorem OneLine.of_numeric (h : Json.Numeric s) : OneLine s := by
  intro hmem
  have := h '\n' hmem
  exact absurd this (by decide)

theorem OneLine.nat (n : Nat) : OneLine (toString n) :=
  .of_numeric (.nat n)

theorem OneLine.int (n : Int) : OneLine (toString n) :=
  .of_numeric (.int n)

theorem newline_notMem_toDigits {b : Nat} (hb : 1 < b) (n : Nat) : '\n' ∉ Nat.toDigits b n := by
  induction n using Nat.strongRecOn with
  | ind n ih =>
    rw [Nat.toDigits_eq_if hb]
    split
    · rw [List.mem_singleton]
      exact (Nat.digitChar_ne '\n' (by decide)).symm
    · next hle =>
      rw [List.mem_append, List.mem_singleton]
      exact not_or.mpr ⟨ih (n / b) (Nat.div_lt_self (by omega) hb), (Nat.digitChar_ne '\n' (by decide)).symm⟩

theorem newline_notMem_quoteChar (c : Char) : '\n' ∉ Text.quoteChar '"' c := by
  unfold Text.quoteChar
  by_cases hc : c = '\n'
  · subst hc
    decide
  · have hkept : '\n' ∉ [c] := by simpa using Ne.symm hc
    have hescape : '\n' ∉ Text.codePointEscape c := by
      simp [Text.codePointEscape, newline_notMem_toDigits]
    repeat' split
    all_goals first | exact hkept | exact hescape | decide

theorem OneLine.quoted (s : String) : OneLine (Text.quoted s) := by
  unfold OneLine Text.quoted
  simp [newline_notMem_quoteChar]

theorem OneLine.float (x : Float) : OneLine (Decimal.FloatForm.printed.text x) := by
  cases hx : Decimal.Parts.of x with
  | nan =>
    rw [Decimal.FloatForm.text, hx]
    decide
  | infinite negative =>
    rw [Decimal.FloatForm.text, hx]
    cases negative <;> decide
  | finite negative m q => exact .of_numeric (.finite .printed hx)

theorem OneLine.intercalate (hs : OneLine s) (hrows : ∀ row ∈ rows, OneLine row) :
    OneLine (s.intercalate rows) := by
  unfold OneLine at hs hrows ⊢
  rw [String.toList_intercalate]
  induction rows with
  | nil => simp
  | cons row rest ih =>
    rw [List.forall_mem_cons] at hrows
    cases rest with
    | nil => simpa using hrows.1
    | cons row' rest =>
      rw [List.map_cons, List.map_cons, List.intercalate_cons_cons, List.mem_append, List.mem_append]
      exact not_or.mpr ⟨not_or.mpr ⟨hrows.1, hs⟩, ih hrows.2⟩

theorem unlines_append : unlines (rows ++ rows') = unlines rows ++ unlines rows' := by
  rw [unlines, List.map_append, String.join_append]
  rfl

theorem toList_unlines_cons : (unlines (s :: rows)).toList = s.toList ++ '\n' :: (unlines rows).toList := by
  simp [unlines]

theorem splitOn_unlines (hrows : ∀ row ∈ rows, OneLine row) :
    (unlines rows).toList.splitOn '\n' = rows.map String.toList ++ [[]] := by
  induction rows with
  | nil => rfl
  | cons row rest ih =>
    rw [List.forall_mem_cons] at hrows
    rw [toList_unlines_cons, List.splitOn_append_cons_self_of_not_mem hrows.1, ih hrows.2, List.map_cons,
      List.cons_append]

theorem intercalate_toList (rows : List String) :
    ['\n'].intercalate (rows.map String.toList ++ [[]]) = (unlines rows).toList := by
  induction rows with
  | nil => rfl
  | cons row rest ih =>
    have hne : rest.map String.toList ++ [[]] ≠ [] := List.append_ne_nil_of_right_ne_nil _ (List.cons_ne_nil _ _)
    rw [toList_unlines_cons, ← ih, List.map_cons, List.cons_append, List.intercalate_cons_of_ne_nil hne,
      List.append_assoc, List.singleton_append]

theorem withoutComments_unlines (hrows : ∀ row ∈ rows, OneLine row) :
    withoutComments (unlines rows) = unlines (rows.filter fun row => !showsComment row) := by
  have hkept : (rows.map String.toList ++ [[]]).filter (fun row => !showsComment (.ofList row)) =
      (rows.filter fun row => !showsComment row).map String.toList ++ [[]] := by
    rw [List.filter_append, List.filter_map]
    congr 1
    simp [Function.comp_def]
  rw [withoutComments, splitOn_unlines hrows, hkept, intercalate_toList, String.ofList_toList]

end Texts

/-! Lines -/

def Label.IsWord (l : Label) : Prop :=
  ∀ c ∈ l.text.toList, c ≠ '\n' ∧ c ≠ ' '

instance (l : Label) : Decidable l.IsWord :=
  List.decidableBAll _ _

theorem Label.isWord_numbered (n : Nat) : (numbered n).IsWord := by
  intro c hc
  rw [toList_numbered, List.mem_cons] at hc
  rcases hc with rfl | hc
  · decide
  · have hdigit := Nat.isDigit_of_mem_toDigits (by decide) (by decide) hc
    constructor <;> rintro rfl <;> exact absurd hdigit (by decide)

theorem Label.isWord_array (n : Nat) : (array n).IsWord := by
  intro c hc
  rw [toList_array, List.mem_append] at hc
  rcases hc with hc | hc
  · constructor <;> rintro rfl <;> exact absurd hc (by decide)
  · have hdigit := Nat.isDigit_of_mem_toDigits (by decide) (by decide) hc
    constructor <;> rintro rfl <;> exact absurd hdigit (by decide)

theorem Label.IsWord.oneLine {l : Label} (h : l.IsWord) : OneLine l.text :=
  fun hmem => (h '\n' hmem).1 rfl

def Line.labels (l : Line) : List Label :=
  l.label?.toList ++ l.target?.toList ++ l.callee?.toList ++ l.address?.toList

/--
A comment of one line, or a line that names labels by words.
-/
def Line.Clean : Line → Prop
  | .comment text => OneLine text
  | l => ∀ t ∈ l.labels, t.IsWord

instance (l : Line) : Decidable l.Clean :=
  match l with
  | .comment text => inferInstanceAs (Decidable (OneLine text))
  | .instruction i => List.decidableBAll _ (Line.instruction i).labels
  | .label t => List.decidableBAll _ (Line.label t).labels

def StartsCode (text : String) : Prop :=
  OneLine text ∧ text.toList.head? ≠ none ∧ text.toList.head? ≠ some '#'

instance (text : String) : Decidable (StartsCode text) :=
  inferInstanceAs (Decidable (_ ∧ _ ∧ _))

theorem Instruction.startsCode_mnemonic (i : Instruction) : StartsCode i.mnemonic := by
  cases i with
  | register op => exact (by cases op <;> decide : StartsCode op.mnemonic)
  | immediate op => exact (by cases op <;> decide : StartsCode op.mnemonic)
  | move op => exact (by cases op <;> decide : StartsCode op.mnemonic)
  | load width => exact (by cases width <;> decide : StartsCode width.loadMnemonic)
  | store width => exact (by cases width <;> decide : StartsCode width.storeMnemonic)
  | branch op => exact (by cases op <;> decide : StartsCode op.mnemonic)
  | branchZero op => exact (by cases op <;> decide : StartsCode op.mnemonic)
  | float op => exact (by cases op <;> decide : StartsCode op.mnemonic)
  | floatMove op => exact (by cases op <;> decide : StartsCode op.mnemonic)
  | floatCompare op => exact (by cases op <;> decide : StartsCode op.mnemonic)
  | li | la | j | jal | ret | ecall | floatOfBits | bitsOfFloat | floatOfInt | intOfFloat =>
    dsimp only [mnemonic]
    decide

theorem Register.oneLine_name (r : Register) : OneLine r.name := by
  cases r <;> decide

theorem FloatRegister.oneLine_name (r : FloatRegister) : OneLine r.name := by
  cases r <;> decide

theorem oneLine_address (offset : Int) (base : Register) : OneLine s!"{offset}({base.name})" :=
  (((OneLine.int offset).append (by decide)).append base.oneLine_name).append (by decide)

theorem Instruction.oneLine_operands {i : Instruction} (h : ∀ t ∈ (Line.instruction i).labels, t.IsWord) :
    ∀ operand ∈ i.operands, OneLine operand := by
  cases i with
  | la rd address | branch op rs1 rs2 address | branchZero op rs address | j address | jal address =>
    have haddress : OneLine address.text := (h address (by simp [Line.labels, Line.label?, Line.target?,
      Line.callee?, Line.address?])).oneLine
    simp only [operands, List.forall_mem_cons, Register.oneLine_name, haddress, true_and]
    exact List.forall_mem_nil _
  | intOfFloat rd fs =>
    exact List.forall_mem_cons.mpr ⟨rd.oneLine_name, List.forall_mem_cons.mpr ⟨fs.oneLine_name, by decide⟩⟩
  | _ =>
    simp only [operands, List.forall_mem_cons, Register.oneLine_name, FloatRegister.oneLine_name, OneLine.int,
      oneLine_address, true_and]
    exact List.forall_mem_nil _

theorem Instruction.oneLine_text {i : Instruction} (h : ∀ t ∈ (Line.instruction i).labels, t.IsWord) :
    OneLine i.text := by
  have hmnemonic := i.startsCode_mnemonic.1
  unfold text
  split
  · exact hmnemonic
  · exact (hmnemonic.append (by decide)).append (.intercalate (by decide) (oneLine_operands h))

theorem Line.Clean.oneLine {l : Line} (h : l.Clean) : OneLine l.text := by
  cases l with
  | comment text => exact OneLine.append (by decide) h
  | label t =>
    have ht : t.IsWord := h t (by simp [labels, label?])
    exact ht.oneLine.append (by decide)
  | instruction i => exact OneLine.append (by decide) (Instruction.oneLine_text h)

theorem showsComment_of_head? {text : String} (h : text.toList.head? ≠ some ' ') :
    showsComment text = false := by
  unfold showsComment
  cases htext : text.toList with
  | nil => rfl
  | cons c cs =>
    rw [htext, List.head?_cons] at h
    have hc : (' ' == c) = false := beq_eq_false_iff_ne.mpr fun heq => h (congrArg some heq.symm)
    simp [List.isPrefixOf, hc]

theorem showsComment_indented {text : String} (h : StartsCode text) (rest : String) :
    showsComment ("    " ++ (text ++ rest)) = false := by
  unfold showsComment
  obtain ⟨-, hnil, hhash⟩ := h
  cases htext : text.toList with
  | nil => simp [htext] at hnil
  | cons c cs =>
    rw [htext, List.head?_cons] at hhash
    have hc : ('#' == c) = false := beq_eq_false_iff_ne.mpr fun heq => hhash (congrArg some heq.symm)
    simp [htext, List.isPrefixOf, hc]

theorem Line.Clean.showsComment {l : Line} (h : l.Clean) : showsComment l.text = l.isComment := by
  cases l with
  | comment text => simp [Assembly.showsComment, Line.text, isComment]
  | label t =>
    apply showsComment_of_head?
    intro hhead
    have ht : t.IsWord := h t (by simp [labels, label?])
    rw [Line.text, String.toList_append, List.head?_append] at hhead
    cases htext : t.text.toList with
    | nil => simp [htext] at hhead
    | cons c cs =>
      rw [htext] at hhead
      exact (ht ' ' (by rw [htext, Option.some.inj hhead]; exact List.mem_cons_self)).2 rfl
  | instruction i =>
    have hmnemonic := i.startsCode_mnemonic
    rw [Line.text, Instruction.text]
    split
    · have hindented := showsComment_indented hmnemonic ""
      rwa [String.append_empty] at hindented
    · rw [String.append_assoc]
      exact showsComment_indented hmnemonic _

theorem filter_showsComment {c : List Line} (h : ∀ l ∈ c, l.Clean) :
    (c.map Line.text).filter (fun row => !showsComment row) = (Line.shown false c).map Line.text := by
  rw [List.filter_map, Line.shown, if_neg Bool.false_ne_true]
  congr 1
  apply List.filter_congr
  intro l hl
  rw [Function.comp_apply, (h l hl).showsComment]

/-! Files -/

def Commentless (text : String) : Prop :=
  ∃ rows, text = unlines rows ∧ ∀ row ∈ rows, OneLine row ∧ showsComment row = false

namespace Commentless

variable {s t : String}

theorem row (hrow : OneLine s) (hshows : showsComment s = false) : Commentless (s ++ "\n") :=
  ⟨[s], by simp [unlines], by simpa using ⟨hrow, hshows⟩⟩

theorem append (hs : Commentless s) (ht : Commentless t) : Commentless (s ++ t) := by
  obtain ⟨rows, rfl, hrows⟩ := hs
  obtain ⟨rows', rfl, hrows'⟩ := ht
  refine ⟨rows ++ rows', unlines_append.symm, ?_⟩
  rw [List.forall_mem_append]
  exact ⟨hrows, hrows'⟩

theorem join {texts : List String} (h : ∀ text ∈ texts, Commentless text) :
    Commentless (String.join texts) := by
  induction texts with
  | nil => exact ⟨[], rfl, by simp⟩
  | cons text rest ih =>
    rw [List.forall_mem_cons] at h
    rw [String.join_cons]
    exact h.1.append (ih h.2)

theorem withoutComments_append {rows : List String} (hs : Commentless s)
    (hrows : ∀ row ∈ rows, OneLine row) :
    withoutComments (s ++ unlines rows) = s ++ unlines (rows.filter fun row => !showsComment row) := by
  obtain ⟨rows', rfl, hrows'⟩ := hs
  have hkept : rows'.filter (fun row => !showsComment row) = rows' := by
    rw [List.filter_eq_self]
    intro row hrow
    rw [(hrows' row hrow).2]
    rfl
  have hall : ∀ row ∈ rows' ++ rows, OneLine row := by
    rw [List.forall_mem_append]
    exact ⟨fun row hrow => (hrows' row hrow).1, hrows⟩
  rw [← unlines_append, withoutComments_unlines hall, List.filter_append, hkept, unlines_append]

end Commentless

theorem FixedString.commentless_text (s : FixedString) : Commentless s.text := by
  have hrow : s.text = (s.label.text ++ ": .asciz \"" ++ s.quoted ++ "\"") ++ "\n" := by
    rw [FixedString.text, ← String.toList_inj]
    simp
  rw [hrow]
  apply Commentless.row
  · cases s <;> decide
  · cases s <;> decide

theorem DataSection.commentless_regionText (k length : Nat) :
    Commentless (regionText (.array k) length) := by
  have hword : Commentless (((Label.array k).text ++ s!": .word {length}") ++ "\n") := by
    apply Commentless.row
    · exact (Label.isWord_array k).oneLine.append (OneLine.append (by decide) (.nat length))
    · apply showsComment_of_head?
      rw [String.toList_append, Label.toList_array]
      simp
  by_cases hlength : length = 0
  · rw [regionText, if_pos hlength, String.append_empty]
    exact hword
  · have hspace : Commentless (("    " ++ (".space" ++ s!" {length * wordBytes}")) ++ "\n") := by
      apply Commentless.row
      · exact OneLine.append (by decide) (OneLine.append (by decide) (OneLine.append (by decide) (.int _)))
      · exact showsComment_indented (by decide) _
    have htext : regionText (.array k) length =
        (((Label.array k).text ++ s!": .word {length}") ++ "\n") ++
          (("    " ++ (".space" ++ s!" {length * wordBytes}")) ++ "\n") := by
      rw [regionText, if_neg hlength, ← String.toList_inj]
      simp [toString]
    rw [htext]
    exact hword.append hspace

theorem DataSection.commentless_text (d : DataSection) : Commentless (d.text ++ "\n") := by
  have hregions : Commentless (String.join (d.labels.zipWith regionText d.arrays)) := by
    apply Commentless.join
    intro text htext
    obtain ⟨k, hk, rfl⟩ := List.getElem_of_mem htext
    have hbound : k < d.arrays.length := by
      rw [List.length_zipWith] at hk
      omega
    have hlabel : (List.zipWith regionText d.labels d.arrays)[k] = regionText (.array k) d.arrays[k] := by
      simp [labels]
    rw [hlabel]
    exact commentless_regionText k _
  have hfixed : Commentless (String.join (FixedString.all.map FixedString.text)) := by
    apply Commentless.join
    intro text htext
    obtain ⟨s, -, rfl⟩ := List.mem_map.mp htext
    exact s.commentless_text
  have hdata : Commentless (".data" ++ "\n") := .row (by decide) (by decide)
  have halign : Commentless (".align 2" ++ "\n") := .row (by decide) (by decide)
  have hheap : Commentless ("heap:" ++ "\n") := .row (by decide) (by decide)
  have hall := (((hdata.append hfixed).append halign).append hregions).append hheap
  rwa [← String.append_assoc] at hall

def File.uncommented (f : File) : File :=
  { f with main := Line.shown false f.main, runtime := Line.shown false f.runtime }

theorem File.linesText_eq (c : List Line) : linesText c = unlines (c.map Line.text) := by
  rw [linesText, unlines, List.map_map]
  rfl

theorem File.withoutComments_text {f : File} (h : ∀ l ∈ f.main ++ f.runtime, l.Clean) :
    withoutComments f.text = f.uncommented.text := by
  have hblank : Commentless ("" ++ "\n") := .row (by decide) (by decide)
  have htext : Commentless (".text" ++ "\n") := .row (by decide) (by decide)
  have hglobal : Commentless (".globl main" ++ "\n") := .row (by decide) (by decide)
  have hhead : Commentless (f.data.text ++ "\n\n.text\n.globl main\n") := by
    have hall := f.data.commentless_text.append ((hblank.append htext).append hglobal)
    rwa [String.append_assoc] at hall
  have hclean : ∀ l ∈ entry ++ f.main ++ exit ++ f.runtime, l.Clean := by
    have hentry : ∀ l ∈ entry, l.Clean := by decide
    have hexit : ∀ l ∈ exit, l.Clean := by decide
    rw [List.forall_mem_append] at h
    simp only [List.forall_mem_append]
    exact ⟨⟨⟨hentry, h.1⟩, hexit⟩, h.2⟩
  have hshown : Line.shown false (entry ++ f.main ++ exit ++ f.runtime) =
      entry ++ Line.shown false f.main ++ exit ++ Line.shown false f.runtime := by
    simp only [Line.shown_append]
    rfl
  have hrows : ∀ row ∈ (entry ++ f.main ++ exit ++ f.runtime).map Line.text, OneLine row := by
    rw [List.forall_mem_map]
    exact fun l hl => (hclean l hl).oneLine
  rw [text, linesText_eq, hhead.withoutComments_append hrows, filter_showsComment hclean, hshown, text,
    linesText_eq]
  rfl

end Arbor.Assembly
