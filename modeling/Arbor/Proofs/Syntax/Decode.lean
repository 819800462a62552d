import Arbor.Syntax.Encode
import Arbor.Syntax.Decode

/-!
This module contains the proof that the JSON form of a tree loses nothing: reading it gives the tree back,
whether or not the parts of variants may be listed by position.
-/

namespace Arbor

namespace Json

/--
One step of a reader: what it looks at is there, and it goes on well from what it found.
-/
theorem bind_eq_some_of {α β : Type} {x : Option α} {f : α → Option β} {a : α} {b : β} (hx : x = some a)
    (hf : f a = some b) : (do let a ← x; f a) = some b := by
  rw [hx]
  exact hf

section Scalars

theorem uint32?_ofNat (n : UInt32) : (ofNat n.toNat).uint32? = some n := by
  have h : 0 ≤ (n.toNat : Int) ∧ (n.toNat : Int) < 2 ^ 32 :=
    ⟨Int.natCast_nonneg _, by exact_mod_cast n.toNat_lt⟩
  rw [ofNat, uint32?, int?, Option.bind_some, if_pos h, Int.toNat_natCast, UInt32.ofNat_toNat]

theorem int64?_integer (n : Int64) : (number (.integer n.toInt)).int64? = some n := by
  have h : -2 ^ 63 ≤ n.toInt ∧ n.toInt < 2 ^ 63 := ⟨n.le_toInt, n.toInt_lt⟩
  rw [int64?, int?, Option.bind_some, if_pos h, Int64.ofInt_toInt]

theorem char?_singleton (c : Char) : (string (String.singleton c)).char? = some c := by
  simp [char?]

end Scalars

section Parts

variable {α : Type} {whole : Json}

theorem tagged?_tagged (tag : String) (payload : Json) :
    (tagged tag payload).tagged? =
      some (tag, ⟨payload, sizeOf_lt_of_mem_object (List.mem_singleton_self (tag, payload))⟩) := by
  rfl

theorem unitTag?_tagged {tag : String} {payload : Json} (h : payload.isNull = false) :
    (tagged tag payload).unitTag? = none := by
  cases payload with
  | null => cases h
  | _ => rfl

@[simp]
theorem required_some (decode : Json → Option α) (part : whole.Part) :
    required decode (some part) = decode part.val := rfl

@[simp]
theorem withDefault_some (absent : α) (decode : Json → Option α) (part : whole.Part) :
    withDefault absent decode (some part) = decode part.val := rfl

@[simp]
theorem record?_object (names : List String) (fields : List (String × Json)) :
    (object fields).record? names = (object fields).fields? names := rfl

@[simp]
theorem parts?_object (listed : Bool) (names : List String) (fields : List (String × Json)) :
    (object fields).parts? listed names = (object fields).fields? names := by
  cases listed <;> rfl

@[simp]
theorem string?_string (s : String) : (string s).string? = some s := rfl

@[simp]
theorem unitTag?_string (s : String) : (string s).unitTag? = some s := rfl

theorem items?_array (items : List Json) :
    ∃ parts, (array items).items? = some parts ∧ parts.map Subtype.val = items := by
  refine ⟨_, rfl, ?_⟩
  rw [List.map_map]
  exact List.attach_map_subtype_val items

theorem list?_array {encode : α → Json} {decode : Json → Option α} (h : ∀ a, decode (encode a) = some a)
    (l : List α) : list? decode (.array (l.map encode)) = some l := by
  have h : decode ∘ encode = fun a => Pure.pure (id a) := funext h
  rw [list?, List.mapM_map, h, List.mapM_pure, List.map_id]
  rfl

theorem present?_null (lt : sizeOf Json.null < sizeOf whole) :
    present? (some ⟨.null, lt⟩) = none := rfl

theorem present?_array (items : List Json) (lt : sizeOf (array items) < sizeOf whole) :
    present? (some ⟨.array items, lt⟩) = some ⟨.array items, lt⟩ := rfl

theorem present?_of_not_null {part : whole.Part} (h : part.val.isNull = false) :
    present? (some part) = some part := by
  rw [present?, h]
  rfl

theorem optional_ofOption {encode : α → Json} {decode : Json → Option α}
    (h : ∀ a, decode (encode a) = some a) (hnull : ∀ a, (encode a).isNull = false) (a? : Option α)
    (lt : sizeOf (ofOption (a?.map encode)) < sizeOf whole) :
    optional decode (some ⟨ofOption (a?.map encode), lt⟩) = some a? := by
  cases a? with
  | none => rfl
  | some a =>
    rw [optional, present?_of_not_null (hnull a)]
    show (decode (encode a)).map some = _
    rw [h]
    rfl

end Parts

end Json

open Json

section Spans

theorem Position.ofJson?_toJson (p : Position) : Position.ofJson? p.toJson = some p := by
  simp [Position.ofJson?, Position.toJson, fields?, findField, uint32?_ofNat]

theorem Span.ofJson?_toJson (s : Span) : Span.ofJson? s.toJson = some s := by
  simp [Span.ofJson?, Span.toJson, fields?, findField, Position.ofJson?_toJson]

theorem sizeOf_kind_lt (s : Span) (kind : Json) : sizeOf kind < sizeOf (nodeToJson s kind) :=
  sizeOf_lt_of_mem_object (List.mem_cons_self (a := ("kind", kind)))

theorem node?_nodeToJson (s : Span) (kind : Json) :
    (nodeToJson s kind).node? = some (⟨kind, sizeOf_kind_lt s kind⟩, s) := by
  simp [node?, nodeToJson, fields?, findField, Span.ofJson?_toJson]

end Spans

section Leaves

theorem TypeName.ofJson?_toJson (t : TypeName) : TypeName.ofJson? t.toJson = some t := by
  simp [TypeName.ofJson?, TypeName.toJson]

theorem BinaryOp.ofJson?_symbol (op : BinaryOp) : BinaryOp.ofJson? (.string op.symbol) = some op := by
  simp [BinaryOp.ofJson?]

theorem UnaryOp.ofJson?_symbol (op : UnaryOp) : UnaryOp.ofJson? (.string op.symbol) = some op := by
  simp [UnaryOp.ofJson?]

theorem AssignOp.ofJson?_symbol (op : AssignOp) : AssignOp.ofJson? (.string op.symbol) = some op := by
  simp [AssignOp.ofJson?]

theorem StepOp.ofJson?_symbol (op : StepOp) : StepOp.ofJson? (.string op.symbol) = some op := by
  simp [StepOp.ofJson?]

theorem Literal.ofJson?_toJson (v : Literal) : Literal.ofJson? v.toJson = some v := by
  cases v with
  | int n => simp [Literal.ofJson?, Literal.toJson, tagged?_tagged, int64?_integer]
  | float x => simp [Literal.ofJson?, Literal.toJson, tagged?_tagged, float?]
  | bool b => simp [Literal.ofJson?, Literal.toJson, tagged?_tagged, bool?]
  | char c => simp [Literal.ofJson?, Literal.toJson, tagged?_tagged, char?_singleton]
  | string raw => simp [Literal.ofJson?, Literal.toJson, tagged?_tagged]

theorem Param.ofJson?_toJson (p : Param) : Param.ofJson? p.toJson = some p := by
  simp [Param.ofJson?, Param.toJson, fields?, findField, TypeName.ofJson?_toJson, uint32?_ofNat]

end Leaves

section Expressions

variable (listed : Bool)

theorem Expr.isNull_toJson (e : Expr) : e.toJson.isNull = false := by
  cases e <;> rfl

mutual

theorem Expr.ofJson?_toJson : ∀ e : Expr, Expr.ofJson? listed e.toJson = some e
  | .literal s v => by
    -- The span and the tag are read off in the same way in every form, and then the parts.
    rw [Expr.toJson, Expr.ofJson?]
    refine bind_eq_some_of (node?_nodeToJson _ _) ?_
    refine bind_eq_some_of (tagged?_tagged _ _) ?_
    simp [Literal.ofJson?_toJson]
  | .grouping s e => by
    have ih := Expr.ofJson?_toJson e
    rw [Expr.toJson, Expr.ofJson?]
    refine bind_eq_some_of (node?_nodeToJson _ _) ?_
    refine bind_eq_some_of (tagged?_tagged _ _) ?_
    simp [ih]
  | .var s name => by
    rw [Expr.toJson, Expr.ofJson?]
    refine bind_eq_some_of (node?_nodeToJson _ _) ?_
    refine bind_eq_some_of (tagged?_tagged _ _) ?_
    simp
  | .arrayLiteral s items => by
    obtain ⟨parts, hitems, hparts⟩ := items?_array (exprsToJson items)
    have ih := exprsOfJson?_toJson items parts hparts
    rw [Expr.toJson, Expr.ofJson?]
    refine bind_eq_some_of (node?_nodeToJson _ _) ?_
    refine bind_eq_some_of (tagged?_tagged _ _) ?_
    simp [hitems, ih]
  | .binary s op l r => by
    have ihl := Expr.ofJson?_toJson l
    have ihr := Expr.ofJson?_toJson r
    rw [Expr.toJson, Expr.ofJson?]
    refine bind_eq_some_of (node?_nodeToJson _ _) ?_
    refine bind_eq_some_of (tagged?_tagged _ _) ?_
    simp [fields?, findField, BinaryOp.ofJson?_symbol, ihl, ihr]
  | .unary s op e => by
    have ih := Expr.ofJson?_toJson e
    rw [Expr.toJson, Expr.ofJson?]
    refine bind_eq_some_of (node?_nodeToJson _ _) ?_
    refine bind_eq_some_of (tagged?_tagged _ _) ?_
    simp [fields?, findField, UnaryOp.ofJson?_symbol, ih]
  | .assign s name op e => by
    have ih := Expr.ofJson?_toJson e
    rw [Expr.toJson, Expr.ofJson?]
    refine bind_eq_some_of (node?_nodeToJson _ _) ?_
    refine bind_eq_some_of (tagged?_tagged _ _) ?_
    simp [fields?, findField, AssignOp.ofJson?_symbol, ih]
  | .step s name op => by
    rw [Expr.toJson, Expr.ofJson?]
    refine bind_eq_some_of (node?_nodeToJson _ _) ?_
    refine bind_eq_some_of (tagged?_tagged _ _) ?_
    simp [fields?, findField, StepOp.ofJson?_symbol]
  | .ternary s c t f => by
    have ihc := Expr.ofJson?_toJson c
    have iht := Expr.ofJson?_toJson t
    have ihf := Expr.ofJson?_toJson f
    rw [Expr.toJson, Expr.ofJson?]
    refine bind_eq_some_of (node?_nodeToJson _ _) ?_
    refine bind_eq_some_of (tagged?_tagged _ _) ?_
    simp [fields?, findField, ihc, iht, ihf]
  | .index s name i => by
    have ih := Expr.ofJson?_toJson i
    rw [Expr.toJson, Expr.ofJson?]
    refine bind_eq_some_of (node?_nodeToJson _ _) ?_
    refine bind_eq_some_of (tagged?_tagged _ _) ?_
    simp [fields?, findField, ih]
  | .indexAssign s name i op e => by
    have ihi := Expr.ofJson?_toJson i
    have ihe := Expr.ofJson?_toJson e
    rw [Expr.toJson, Expr.ofJson?]
    refine bind_eq_some_of (node?_nodeToJson _ _) ?_
    refine bind_eq_some_of (tagged?_tagged _ _) ?_
    simp [fields?, findField, AssignOp.ofJson?_symbol, ihi, ihe]
  | .indexOf s name e => by
    have ih := Expr.ofJson?_toJson e
    rw [Expr.toJson, Expr.ofJson?]
    refine bind_eq_some_of (node?_nodeToJson _ _) ?_
    refine bind_eq_some_of (tagged?_tagged _ _) ?_
    simp [fields?, findField, ih]
  | .length s name => by
    rw [Expr.toJson, Expr.ofJson?]
    refine bind_eq_some_of (node?_nodeToJson _ _) ?_
    refine bind_eq_some_of (tagged?_tagged _ _) ?_
    simp [fields?, findField]
  | .join s name => by
    rw [Expr.toJson, Expr.ofJson?]
    refine bind_eq_some_of (node?_nodeToJson _ _) ?_
    refine bind_eq_some_of (tagged?_tagged _ _) ?_
    simp [fields?, findField]
  | .call s callee args => by
    obtain ⟨parts, hitems, hparts⟩ := items?_array (exprsToJson args)
    have ihc := Expr.ofJson?_toJson callee
    have iha := exprsOfJson?_toJson args parts hparts
    rw [Expr.toJson, Expr.ofJson?]
    refine bind_eq_some_of (node?_nodeToJson _ _) ?_
    refine bind_eq_some_of (tagged?_tagged _ _) ?_
    simp [fields?, findField, hitems, ihc, iha]

theorem exprsOfJson?_toJson {whole : Json} : ∀ (es : List Expr) (parts : List whole.Part),
    parts.map Subtype.val = exprsToJson es → exprsOfJson? listed parts = some es
  | [], parts, h => by
    rw [exprsToJson, List.map_eq_nil_iff] at h
    rw [h, exprsOfJson?]
  | e :: es, parts, h => by
    have ih := Expr.ofJson?_toJson e
    rw [exprsToJson, List.map_eq_cons_iff] at h
    obtain ⟨part, parts, rfl, he, hes⟩ := h
    rw [exprsOfJson?, he, ih, exprsOfJson?_toJson es parts hes]
    rfl

end

theorem exprs?_array (es : List Expr) : Json.exprs? listed (.array (exprsToJson es)) = some es := by
  obtain ⟨parts, hitems, hparts⟩ := items?_array (exprsToJson es)
  rw [exprs?, hitems]
  exact exprsOfJson?_toJson listed es parts hparts

theorem ArrayInit.ofJson?_toJson (init : ArrayInit) : ArrayInit.ofJson? listed init.toJson = some init := by
  cases init with
  | values items => simp [ArrayInit.ofJson?, ArrayInit.toJson, tagged?_tagged, exprs?_array]
  | sized length => simp [ArrayInit.ofJson?, ArrayInit.toJson, tagged?_tagged, Expr.ofJson?_toJson]
  | copyOf source => simp [ArrayInit.ofJson?, ArrayInit.toJson, tagged?_tagged]

end Expressions

section Statements

variable (listed : Bool)

theorem Stmt.isNull_toJson (s : Stmt) : s.toJson.isNull = false := by
  cases s with
  | conditional _ _ _ f => cases f <;> rfl
  | forLoop _ init _ _ _ => cases init <;> rfl
  | switch _ _ _ default => cases default <;> rfl
  | _ => rfl

mutual

theorem Stmt.ofJson?_toJson : ∀ s : Stmt, Stmt.ofJson? listed s.toJson = some s
  | .varDecl s ty name init => by
    rw [Stmt.toJson, Stmt.ofJson?]
    refine bind_eq_some_of (node?_nodeToJson _ _) ?_
    refine bind_eq_some_of (tagged?_tagged _ _) ?_
    simp [fields?, findField, TypeName.ofJson?_toJson,
      optional_ofOption (Expr.ofJson?_toJson listed) Expr.isNull_toJson]
  | .arrayDecl s elem dims name init => by
    rw [Stmt.toJson, Stmt.ofJson?]
    refine bind_eq_some_of (node?_nodeToJson _ _) ?_
    refine bind_eq_some_of (tagged?_tagged _ _) ?_
    simp [fields?, findField, TypeName.ofJson?_toJson, uint32?_ofNat, ArrayInit.ofJson?_toJson]
  | .funcDecl s returns name params body => by
    have ih := Json.stmts?_array body
    rw [Stmt.toJson, Stmt.ofJson?]
    refine bind_eq_some_of (node?_nodeToJson _ _) ?_
    refine bind_eq_some_of (tagged?_tagged _ _) ?_
    simp [fields?, findField, TypeName.ofJson?_toJson, list?_array Param.ofJson?_toJson, ih]
  | .expr s e => by
    rw [Stmt.toJson, Stmt.ofJson?]
    refine bind_eq_some_of (node?_nodeToJson _ _) ?_
    dsimp only
    rw [unitTag?_tagged (Expr.isNull_toJson e)]
    refine bind_eq_some_of (tagged?_tagged _ _) ?_
    simp [Expr.ofJson?_toJson]
  | .print s args => by
    rw [Stmt.toJson, Stmt.ofJson?]
    refine bind_eq_some_of (node?_nodeToJson _ _) ?_
    refine bind_eq_some_of (tagged?_tagged _ _) ?_
    simp [exprs?_array]
  | .block s body => by
    have ih := Json.stmts?_array body
    rw [Stmt.toJson, Stmt.ofJson?]
    refine bind_eq_some_of (node?_nodeToJson _ _) ?_
    refine bind_eq_some_of (tagged?_tagged _ _) ?_
    simp [ih]
  | .conditional s c t none => by
    have iht := Stmt.ofJson?_toJson t
    rw [Stmt.toJson, Stmt.ofJson?]
    refine bind_eq_some_of (node?_nodeToJson _ _) ?_
    refine bind_eq_some_of (tagged?_tagged _ _) ?_
    simp [fields?, findField, present?_null, Expr.ofJson?_toJson, iht]
  | .conditional s c t (some f) => by
    have iht := Stmt.ofJson?_toJson t
    have ihf := Stmt.ofJson?_toJson f
    rw [Stmt.toJson, Stmt.ofJson?]
    refine bind_eq_some_of (node?_nodeToJson _ _) ?_
    refine bind_eq_some_of (tagged?_tagged _ _) ?_
    simp [fields?, findField, present?_of_not_null, Stmt.isNull_toJson, Expr.ofJson?_toJson, iht, ihf]
  | .whileLoop s c body => by
    have ih := Stmt.ofJson?_toJson body
    rw [Stmt.toJson, Stmt.ofJson?]
    refine bind_eq_some_of (node?_nodeToJson _ _) ?_
    refine bind_eq_some_of (tagged?_tagged _ _) ?_
    simp [fields?, findField, Expr.ofJson?_toJson, ih]
  | .forLoop s none c u body => by
    have ih := Stmt.ofJson?_toJson body
    rw [Stmt.toJson, Stmt.ofJson?]
    refine bind_eq_some_of (node?_nodeToJson _ _) ?_
    refine bind_eq_some_of (tagged?_tagged _ _) ?_
    simp [fields?, findField, present?_null,
      optional_ofOption (Expr.ofJson?_toJson listed) Expr.isNull_toJson, ih]
  | .forLoop s (some init) c u body => by
    have ihi := Stmt.ofJson?_toJson init
    have ih := Stmt.ofJson?_toJson body
    rw [Stmt.toJson, Stmt.ofJson?]
    refine bind_eq_some_of (node?_nodeToJson _ _) ?_
    refine bind_eq_some_of (tagged?_tagged _ _) ?_
    simp [fields?, findField, present?_of_not_null, Stmt.isNull_toJson,
      optional_ofOption (Expr.ofJson?_toJson listed) Expr.isNull_toJson, ihi, ih]
  | .forEach s elem name iterable body => by
    have ih := Stmt.ofJson?_toJson body
    rw [Stmt.toJson, Stmt.ofJson?]
    refine bind_eq_some_of (node?_nodeToJson _ _) ?_
    refine bind_eq_some_of (tagged?_tagged _ _) ?_
    simp [fields?, findField, TypeName.ofJson?_toJson, ih]
  | .switch s subject cases none => by
    have ih := Json.cases?_array cases
    rw [Stmt.toJson, Stmt.ofJson?]
    refine bind_eq_some_of (node?_nodeToJson _ _) ?_
    refine bind_eq_some_of (tagged?_tagged _ _) ?_
    simp [fields?, findField, present?_null, Expr.ofJson?_toJson, ih]
  | .switch s subject cases (some default) => by
    have ih := Json.cases?_array cases
    have ihd := Json.stmts?_array default
    rw [Stmt.toJson, Stmt.ofJson?]
    refine bind_eq_some_of (node?_nodeToJson _ _) ?_
    refine bind_eq_some_of (tagged?_tagged _ _) ?_
    simp [fields?, findField, present?_array, Expr.ofJson?_toJson, ih, ihd]
  | .breakStmt s => by
    rw [Stmt.toJson, Stmt.ofJson?]
    refine bind_eq_some_of (node?_nodeToJson _ _) ?_
    rfl
  | .continueStmt s => by
    rw [Stmt.toJson, Stmt.ofJson?]
    refine bind_eq_some_of (node?_nodeToJson _ _) ?_
    rfl
  | .returnStmt s none => by
    rw [Stmt.toJson, Stmt.ofJson?]
    refine bind_eq_some_of (node?_nodeToJson _ _) ?_
    refine bind_eq_some_of (tagged?_tagged _ _) ?_
    rfl
  | .returnStmt s (some e) => by
    rw [Stmt.toJson, Stmt.ofJson?]
    refine bind_eq_some_of (node?_nodeToJson _ _) ?_
    dsimp only [Option.map_some, ofOption, Option.getD_some]
    rw [unitTag?_tagged (Expr.isNull_toJson e)]
    refine bind_eq_some_of (tagged?_tagged _ _) ?_
    simp [Expr.isNull_toJson, Expr.ofJson?_toJson]

theorem Json.stmts?_array : ∀ ss : List Stmt, Json.stmts? listed (.array (stmtsToJson ss)) = some ss
  | ss => by
    obtain ⟨parts, hitems, hparts⟩ := items?_array (stmtsToJson ss)
    rw [Json.stmts?, hitems]
    exact stmtsOfJson?_toJson ss parts hparts

theorem stmtsOfJson?_toJson {whole : Json} : ∀ (ss : List Stmt) (parts : List whole.Part),
    parts.map Subtype.val = stmtsToJson ss → stmtsOfJson? listed parts = some ss
  | [], parts, h => by
    rw [stmtsToJson, List.map_eq_nil_iff] at h
    rw [h, stmtsOfJson?]
  | s :: ss, parts, h => by
    have ih := Stmt.ofJson?_toJson s
    rw [stmtsToJson, List.map_eq_cons_iff] at h
    obtain ⟨part, parts, rfl, hs, hss⟩ := h
    rw [stmtsOfJson?, hs, ih, stmtsOfJson?_toJson ss parts hss]
    rfl

theorem Json.cases?_array : ∀ cs : List SwitchCase,
    Json.cases? listed (.array (casesToJson cs)) = some cs
  | cs => by
    obtain ⟨parts, hitems, hparts⟩ := items?_array (casesToJson cs)
    rw [Json.cases?, hitems]
    exact casesOfJson?_toJson cs parts hparts

theorem casesOfJson?_toJson {whole : Json} : ∀ (cs : List SwitchCase) (parts : List whole.Part),
    parts.map Subtype.val = casesToJson cs → casesOfJson? listed parts = some cs
  | [], parts, h => by
    rw [casesToJson, List.map_eq_nil_iff] at h
    rw [h, casesOfJson?]
  | .mk span value body :: cs, parts, h => by
    have ih := Json.stmts?_array body
    rw [casesToJson, List.map_eq_cons_iff] at h
    obtain ⟨⟨j, lt⟩, parts, rfl, hc, hcs⟩ := h
    have ihs := casesOfJson?_toJson cs parts hcs
    subst hc
    rw [casesOfJson?]
    simp [fields?, findField, Expr.ofJson?_toJson, Span.ofJson?_toJson, ih, ihs]

end

end Statements

theorem Program.ofJson?_toJson (listed : Bool) (p : Program) :
    Program.ofJson? listed p.toJson = some p := by
  simp [Program.ofJson?, Program.toJson, fields?, findField, Json.stmts?_array]

end Arbor
