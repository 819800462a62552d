import Arbor.Proofs.Json.Text
import Arbor.Proofs.Syntax.Decode

/-!
This module contains the proof that a tree is read back from the text of its JSON form. The reading of floats from
their texts is taken as exact; everything else about the text is proved.
-/

namespace Arbor

open Json (Usable)

namespace Json

section HasReal

variable {x : Float}

@[simp]
theorem hasReal_array (xs : List Json) : HasReal x (.array xs) ↔ ∃ y ∈ xs, HasReal x y := by
  constructor
  · rintro (_ | ⟨hmem, h⟩)
    exact ⟨_, hmem, h⟩
  · rintro ⟨y, hmem, h⟩
    exact .item hmem h

@[simp]
theorem hasReal_object (fields : List (String × Json)) :
    HasReal x (.object fields) ↔ ∃ f ∈ fields, HasReal x f.2 := by
  constructor
  · rintro (_ | _ | ⟨hmem, h⟩)
    exact ⟨_, hmem, h⟩
  · rintro ⟨f, hmem, h⟩
    exact .field hmem h

@[simp]
theorem not_hasReal_string (s : String) : ¬ HasReal x (.string s) := by
  rintro ⟨⟩

@[simp]
theorem not_hasReal_integer (n : Int) : ¬ HasReal x (.number (.integer n)) := by
  rintro ⟨⟩

end HasReal

section Usable

theorem usable_nil : ∀ f ∈ ([] : List (String × Json)), Usable f.2 := by
  intro f h
  cases h

theorem usable_cons {name : String} {x : Json} {fields : List (String × Json)} (hx : Usable x)
    (hfields : ∀ f ∈ fields, Usable f.2) : ∀ f ∈ (name, x) :: fields, Usable f.2 :=
  List.forall_mem_cons.mpr ⟨hx, hfields⟩

theorem usable_tagged {tag : String} {payload : Json} (h : Usable payload) : Usable (tagged tag payload) :=
  .object (usable_cons h usable_nil)

theorem usable_ofNat (n : UInt32) : Usable (ofNat n.toNat) := by
  have := n.toNat_lt
  exact .integer (by omega) (by omega)

theorem usable_ofOption {α : Type} {encode : α → Json} (h : ∀ a, Usable (encode a)) (a? : Option α) :
    Usable (ofOption (a?.map encode)) := by
  cases a? with
  | none => exact .null
  | some a => exact h a

theorem usable_map {α : Type} {encode : α → Json} (h : ∀ a, Usable (encode a)) (l : List α) :
    Usable (.array (l.map encode)) := by
  apply Usable.array
  intro x hx
  obtain ⟨a, -, rfl⟩ := List.mem_map.mp hx
  exact h a

end Usable

end Json

open Json

theorem Position.usable_toJson (p : Position) : Usable p.toJson :=
  .object (usable_cons (usable_ofNat _) (usable_cons (usable_ofNat _) (usable_cons (usable_ofNat _) usable_nil)))

theorem Span.usable_toJson (s : Span) : Usable s.toJson :=
  .object (usable_cons (.string _) (usable_cons s.start.usable_toJson
    (usable_cons s.stop.usable_toJson usable_nil)))

theorem usable_nodeToJson (s : Span) {kind : Json} (h : Usable kind) : Usable (nodeToJson s kind) :=
  .object (usable_cons h (usable_cons s.usable_toJson usable_nil))

theorem Literal.usable_toJson (v : Literal) : Usable v.toJson := by
  cases v with
  | int n => exact usable_tagged (.integer n.le_toInt (Int.lt_trans n.toInt_lt (by decide)))
  | float x => exact usable_tagged (.real x)
  | bool b => exact usable_tagged (.bool b)
  | char c => exact usable_tagged (.string _)
  | string raw => exact usable_tagged (.string raw)

theorem Param.usable_toJson (p : Param) : Usable p.toJson :=
  .object (usable_cons (.string _) (usable_cons (usable_ofNat _) (usable_cons (.string _) usable_nil)))

attribute [simp] Usable.string Usable.null usable_ofNat usable_ofOption Span.usable_toJson

@[simp]
theorem TypeName.usable_toJson (t : TypeName) : Usable t.toJson :=
  .string t.text

theorem usable_record (s : Span) {tag : String} {fields : List (String × Json)}
    (h : ∀ f ∈ fields, Usable f.2) : Usable (nodeToJson s (.tagged tag (.object fields))) :=
  usable_nodeToJson s (usable_tagged (.object h))

section Expressions

mutual

theorem Expr.usable_toJson : ∀ e : Expr, Usable e.toJson
  | .literal s v => usable_nodeToJson s (usable_tagged v.usable_toJson)
  | .grouping s e => usable_nodeToJson s (usable_tagged e.usable_toJson)
  | .var s name => usable_nodeToJson s (usable_tagged (.string name))
  | .arrayLiteral s items => usable_nodeToJson s (usable_tagged (.array (usable_exprsToJson items)))
  | .binary s op l r => usable_record s (by simp [l.usable_toJson, r.usable_toJson])
  | .unary s op e => usable_record s (by simp [e.usable_toJson])
  | .assign s name op e => usable_record s (by simp [e.usable_toJson])
  | .step s name op => usable_record s (by simp)
  | .ternary s c t f => usable_record s (by simp [c.usable_toJson, t.usable_toJson, f.usable_toJson])
  | .index s name i => usable_record s (by simp [i.usable_toJson])
  | .indexAssign s name i op e => usable_record s (by simp [i.usable_toJson, e.usable_toJson])
  | .indexOf s name e => usable_record s (by simp [e.usable_toJson])
  | .length s name => usable_record s (by simp)
  | .join s name => usable_record s (by simp)
  | .call s callee args =>
    usable_record s (by simp [callee.usable_toJson, Usable.array (usable_exprsToJson args)])

theorem usable_exprsToJson : ∀ es : List Expr, ∀ j ∈ exprsToJson es, Usable j
  | [] => by simp [exprsToJson]
  | e :: es => List.forall_mem_cons.mpr ⟨e.usable_toJson, usable_exprsToJson es⟩

end

@[simp]
theorem ArrayInit.usable_toJson (init : ArrayInit) : Usable init.toJson := by
  cases init with
  | values items => exact usable_tagged (.array (usable_exprsToJson items))
  | sized length => exact usable_tagged length.usable_toJson
  | copyOf source => exact usable_tagged (.string source)

end Expressions

section Statements

attribute [simp] Expr.usable_toJson

mutual

theorem Stmt.usable_toJson : ∀ s : Stmt, Usable s.toJson
  | .varDecl s ty name init => usable_record s (by simp)
  | .arrayDecl s elem dims name init => usable_record s (by simp)
  | .funcDecl s returns name params body =>
    usable_record s (by simp [usable_map Param.usable_toJson, Usable.array (usable_stmtsToJson body)])
  | .expr s e => usable_nodeToJson s (usable_tagged e.usable_toJson)
  | .print s args => usable_nodeToJson s (usable_tagged (.array (usable_exprsToJson args)))
  | .block s body => usable_nodeToJson s (usable_tagged (.array (usable_stmtsToJson body)))
  | .conditional s c t none => usable_record s (by simp [t.usable_toJson])
  | .conditional s c t (some f) => usable_record s (by simp [t.usable_toJson, f.usable_toJson])
  | .whileLoop s c body => usable_record s (by simp [body.usable_toJson])
  | .forLoop s none c u body => usable_record s (by simp [body.usable_toJson])
  | .forLoop s (some init) c u body => usable_record s (by simp [init.usable_toJson, body.usable_toJson])
  | .forEach s elem name iterable body => usable_record s (by simp [body.usable_toJson])
  | .switch s subject cases none => usable_record s (by simp [Usable.array (usable_casesToJson cases)])
  | .switch s subject cases (some default) =>
    usable_record s (by
      simp [Usable.array (usable_casesToJson cases), Usable.array (usable_stmtsToJson default)])
  | .breakStmt s => usable_nodeToJson s (.string _)
  | .continueStmt s => usable_nodeToJson s (.string _)
  | .returnStmt s value => usable_nodeToJson s (usable_tagged (usable_ofOption Expr.usable_toJson value))

theorem usable_stmtsToJson : ∀ ss : List Stmt, ∀ j ∈ stmtsToJson ss, Usable j
  | [] => by simp [stmtsToJson]
  | s :: ss => List.forall_mem_cons.mpr ⟨s.usable_toJson, usable_stmtsToJson ss⟩

theorem usable_casesToJson : ∀ cs : List SwitchCase, ∀ j ∈ casesToJson cs, Usable j
  | [] => by simp [casesToJson]
  | .mk span value body :: cs => by
    refine List.forall_mem_cons.mpr ⟨?_, usable_casesToJson cs⟩
    exact .object (by simp [Usable.array (usable_stmtsToJson body)])

end

theorem Program.usable_toJson (p : Program) : Usable p.toJson :=
  .object (by simp [Usable.array (usable_stmtsToJson p.statements)])

end Statements

section RoundTrip

/--
The program that a text holds. A reader goes as deep as the first number says; whether the parts of variants may
be listed by position is up to the flag.
-/
def Program.ofText? (depth : Nat) (listed : Bool) (text : String) : Option Program :=
  (Json.read? depth text).bind (Program.ofJson? listed)

def Program.toText (p : Program) : String :=
  p.toJson.render

def Program.ExactFloats (p : Program) : Prop :=
  ∀ x, Json.HasReal x p.toJson → (Json.Number.real x).Exact

theorem Program.ofText?_toText {p : Program} (hfloats : p.ExactFloats) {depth : Nat}
    (hdepth : p.toJson.nesting ≤ depth) (listed : Bool) : Program.ofText? depth listed p.toText = some p := by
  rw [Program.ofText?, Program.toText, Json.read?_render p.usable_toJson hfloats hdepth]
  exact Program.ofJson?_toJson listed p

/--
The JSON form of a program loses nothing, and neither does its text: what was read is read again as it was, with
everything filled in that the first text had left out.
-/
theorem Program.roundTrip (listed listed' : Bool) :
    (∀ p : Program, Program.ofJson? listed p.toJson = some p) ∧
    ∀ (depth : Nat) (text : String) (p : Program), Program.ofText? depth listed text = some p →
      Program.ofJson? listed' p.toJson = some p ∧
      (p.ExactFloats → ∀ depth', p.toJson.nesting ≤ depth' →
        Program.ofText? depth' listed' p.toText = some p) := by
  refine ⟨Program.ofJson?_toJson listed, ?_⟩
  intro depth text p _
  refine ⟨Program.ofJson?_toJson listed' p, ?_⟩
  intro hfloats depth' hdepth
  exact Program.ofText?_toText hfloats hdepth listed'

def sparseText : String :=
  "\x7b\"statements\":[\x7b\"kind\":\x7b\"print\":[\x7b\"kind\":\x7b\"call\":" ++
    "\x7b\"callee\":\x7b\"kind\":\x7b\"variable\":\"f\"\x7d\x7d\x7d\x7d\x7d]\x7d\x7d]\x7d"

def sparseProgram : Program :=
  ⟨[.print .unplaced [.call .unplaced (.var .unplaced "f") []]]⟩

theorem sparseProgram_exactFloats : sparseProgram.ExactFloats := by
  intro x h
  simp [sparseProgram, Program.toJson, stmtsToJson, Stmt.toJson, exprsToJson, Expr.toJson, nodeToJson,
    Json.tagged, Span.toJson, Position.toJson, Span.unplaced, Position.zero, Json.ofNat] at h

theorem roundTrip_sparseProgram :
    Program.ofText? 127 true sparseText = some sparseProgram ∧
      Program.ofText? 127 false sparseProgram.toText = some sparseProgram := by
  have hread : Program.ofText? 127 true sparseText = some sparseProgram := by
    cbv
  refine ⟨hread, ?_⟩
  exact ((Program.roundTrip true false).2 127 sparseText sparseProgram hread).2 sparseProgram_exactFloats 127
    (by decide)

end RoundTrip

end Arbor
