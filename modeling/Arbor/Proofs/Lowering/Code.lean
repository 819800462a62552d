import Arbor.Lowering.Statement
import Arbor.Proofs.Evaluation.Moment
import Arbor.Proofs.Lowering.Frame

/-!
This module contains the code of trees as rules: which lines stand for a tree in a frame, given the number of the
next label. The rules say what lowering writes without saying how it goes about it.
-/

namespace Arbor

def Stmt.bodyOf : Stmt → List Stmt
  | .block _ body => body
  | s => [s]

namespace Lowering

open Assembly

/-! Operators -/

def promotion (n : Nat) : List Line :=
  [.comment "int -> float", .lw .t0 (n * wordBytes) .sp, .floatOfInt .ft0 .t0,
    .bitsOfFloat .t0 .ft0, .sw .t0 (n * wordBytes) .sp]

def spelling (n : Nat) : List Line :=
  [.lw .a0 (n * wordBytes) .sp, .jal Routine.charToString.label, .sw .a0 (n * wordBytes) .sp]

def promotions : SlotKind → SlotKind → List Line
  | .int, .int => []
  | .int, _ => promotion 1
  | _, .int => promotion 0
  | _, _ => []

def spellings (left right : SlotKind) : List Line :=
  (if left = .char then spelling 1 else []) ++ (if right = .char then spelling 0 else [])

inductive ConvertCode : SlotKind → SlotKind → List Line → Prop where
  | same (kind : SlotKind) : ConvertCode kind kind []
  | widen : ConvertCode .int .float (promotion 0)

def divisorCheck (op : BinaryOp) : List Line :=
  if isDivision op then [.mv .a0 .t1, .jal Routine.checkDivZero.label] else []

def comparesWords : BinaryOp → SlotKind → Bool
  | .lt | .gt | .le | .ge => fun kind => kind = .int ∨ kind = .char
  | .eq | .ne => fun kind => kind = .int ∨ kind = .char ∨ kind = .bool
  | _ => fun _ => false

inductive BinaryCode : BinaryOp → SlotKind → SlotKind → SlotKind → List Line → Prop where
  | concatenation {left right : SlotKind} :
    left.isText = true → right.isText = true →
    BinaryCode .add left right .string
      (spellings left right ++ pop .a1 ++ pop .a0 ++ [.jal Routine.concatString.label] ++ push .a0)
  | ints {op : BinaryOp} :
    op.cls = .arithmetic →
    BinaryCode op .int .int .int
      (pop .t1 ++ pop .t0 ++ divisorCheck op ++ intOperation op ++ push .t0)
  | floats {op : BinaryOp} {left right : SlotKind} :
    op.cls = .arithmetic → left.isNumeric = true → right.isNumeric = true →
    ¬(left = .int ∧ right = .int) →
    BinaryCode op left right .float
      (promotions left right ++ pop .t1 ++ pop .t0 ++ [.floatOfBits .ft1 .t1, .floatOfBits .ft0 .t0]
        ++ floatOperation op ++ [.bitsOfFloat .t0 .ft0] ++ push .t0)
  | words {op : BinaryOp} {kind : SlotKind} :
    comparesWords op kind = true →
    BinaryCode op kind kind .bool (pop .t1 ++ pop .t0 ++ intComparison op ++ push .t0)
  | comparedFloats {op : BinaryOp} {left right : SlotKind} :
    op.cls = .relational ∨ op.cls = .equality → left.isNumeric = true → right.isNumeric = true →
    ¬(left = .int ∧ right = .int) →
    BinaryCode op left right .bool
      (promotions left right ++ pop .t1 ++ pop .t0 ++ [.floatOfBits .ft1 .t1, .floatOfBits .ft0 .t0]
        ++ floatComparison op ++ push .t0)
  | texts {op : BinaryOp} {left right : SlotKind} :
    op.cls = .equality → left.isText = true → right.isText = true →
    ¬(left = .char ∧ right = .char) →
    BinaryCode op left right .bool
      (spellings left right ++ pop .a1 ++ pop .a0 ++ [.jal Routine.strEquals.label]
        ++ (if op = .ne then [.xori .a0 .a0 1] else []) ++ push .a0)

inductive UnaryCode : UnaryOp → SlotKind → List Line → Prop where
  | negInt : UnaryCode .neg .int (pop .t0 ++ [.neg .t0 .t0] ++ push .t0)
  | negFloat :
    UnaryCode .neg .float
      (pop .t0 ++ [.floatOfBits .ft0 .t0, .fneg .ft0 .ft0, .bitsOfFloat .t0 .ft0] ++ push .t0)
  | not : UnaryCode .not .bool (pop .t0 ++ [.xori .t0 .t0 1] ++ push .t0)

/-! Expressions -/

def stringCode (s : String) : List Line :=
  [.comment ("string " ++ Text.quoted s), .mv .t0 .hp] ++ push .t0
    ++ (packString s).flatMap appendWord

inductive LiteralCode : Literal → SlotKind → List Line → Prop where
  | int {n : Int64} {word : Int} :
    intWord n = .ok word → LiteralCode (.int n) .int (.li .t0 word :: push .t0)
  | float (x : Float) :
    LiteralCode (.float x) .float
      (.comment ("float " ++ Decimal.FloatForm.printed.text x) :: .li .t0 (floatWord x) :: push .t0)
  | bool (b : Bool) : LiteralCode (.bool b) .bool (.li .t0 (boolWord b) :: push .t0)
  | char (c : Char) : LiteralCode (.char c) .char (.li .t0 (charCode c) :: push .t0)
  | string (raw : String) : LiteralCode (.string raw) .string (stringCode (Text.unescape raw))

/--
The code of an embedded function on a value of a kind, and the kind of what it returns. What it leaves in place
of the value has the given length.
-/
inductive EmbeddedCode : Embedded → SlotKind → Option Nat → SlotKind → Option Nat → List Line → Prop where
  | typeOf (kind : SlotKind) (length : Option Nat) :
    EmbeddedCode .typeOf kind length .string none (release wordBytes ++ stringCode kind.text)
  | spelled {s : Scalar} {r : Routine} {length : Option Nat} :
    conversion? s = some r →
    EmbeddedCode .toText (.scalar s) length .string none (pop .a0 ++ [.jal r.label] ++ push .a0)
  | text (length : Option Nat) : EmbeddedCode .toText .string length .string length []
  | parseInt (length : Option Nat) :
    EmbeddedCode .parseInt .string length .int none
      (pop .a0 ++ [.jal Routine.parseInt.label] ++ push .a0)
  | parseFloat (length : Option Nat) :
    EmbeddedCode .parseFloat .string length .float none
      (pop .a0 ++ [.jal Routine.parseFloat.label] ++ push .a0)
  | toLowerCase (length : Option Nat) :
    EmbeddedCode .toLowerCase .string length .string none
      (pop .a0 ++ [.jal Routine.toLowerCase.label] ++ push .a0)
  | toUpperCase (length : Option Nat) :
    EmbeddedCode .toUpperCase .string length .string none
      (pop .a0 ++ [.jal Routine.toUpperCase.label] ++ push .a0)

def addressCode (offset : Int) : List Line :=
  [.lw .t1 offset .sp, .mv .a0 .t0, .lw .a1 (-wordBytes) .t1, .jal Routine.checkBounds.label,
    .slli .t0 .t0 2, .add .t0 .t1 .t0]

def storeElementCode (offset : Int) : List Line :=
  [.lw .t2 0 .sp, .lw .t0 wordBytes .sp] ++ addressCode offset
    ++ [.sw .t2 0 .t0, .sw .t2 wordBytes .sp] ++ release wordBytes

/--
The code of an expression in a frame, where the next label has a number: the kind and the length of the slot that
it pushes, and the number of the next label after it. The expression may stand where a kind is asked for; then
its value is converted.
-/
inductive ExprCode : Frame → Nat → Option SlotKind → Expr → SlotKind → Option Nat → List Line → Nat →
    Prop where
  | literal {f : Frame} {n : Nat} {span : Span} {l : Literal} {kind : SlotKind} {c : List Line} :
    LiteralCode l kind c → ExprCode f n none (.literal span l) kind none c n
  | logical {f : Frame} {n n₁ n₂ : Nat} {span : Span} {op : BinaryOp} {l r : Expr}
      {len₁ len₂ : Option Nat} {c₁ c₂ : List Line} :
    op.cls = .logical →
    ExprCode f (n + 2) none l .bool len₁ c₁ n₁ → ExprCode f n₁ none r .bool len₂ c₂ n₂ →
    ExprCode f n none (.binary span op l r) .bool none
      (c₁ ++ pop .t0 ++ [shortcut (op == .and) (.numbered n)] ++ c₂ ++ pop .t0
        ++ [shortcut (op == .and) (.numbered n), .li .t0 (boolWord (op == .and)), .j (.numbered (n + 1)),
          .label (.numbered n), .li .t0 (boolWord !(op == .and)), .label (.numbered (n + 1))]
        ++ push .t0)
      n₂
  | binary {f : Frame} {n n₁ n₂ : Nat} {span : Span} {op : BinaryOp} {l r : Expr}
      {left right kind : SlotKind} {len₁ len₂ : Option Nat} {c₁ c₂ c : List Line} :
    op.cls ≠ .logical →
    ExprCode f n none l left len₁ c₁ n₁ → ExprCode (f.push left len₁) n₁ none r right len₂ c₂ n₂ →
    BinaryCode op left right kind c →
    ExprCode f n none (.binary span op l r) kind none (c₁ ++ c₂ ++ c) n₂
  | unary {f : Frame} {n n₁ : Nat} {span : Span} {op : UnaryOp} {e : Expr} {kind : SlotKind}
      {len : Option Nat} {c₁ c : List Line} :
    ExprCode f n none e kind len c₁ n₁ → UnaryCode op kind c →
    ExprCode f n none (.unary span op e) kind none (c₁ ++ c) n₁
  | grouping {f : Frame} {n n₁ : Nat} {span : Span} {e : Expr} {kind : SlotKind} {len : Option Nat}
      {c : List Line} :
    ExprCode f n none e kind len c n₁ → ExprCode f n none (.grouping span e) kind len c n₁
  | var {f : Frame} {n : Nat} {span : Span} {name : String} {offset : Int} {slot : Slot} :
    f.resolve? name = some (offset, slot) →
    ExprCode f n none (.var span name) slot.kind slot.length (.lw .t0 offset .sp :: push .t0) n
  | assign {f : Frame} {n n₁ : Nat} {span : Span} {name : String} {e : Expr} {offset : Int} {slot : Slot}
      {s : Scalar} {len : Option Nat} {c : List Line} :
    f.resolve? name = some (offset, slot) → slot.kind = .scalar s →
    ExprCode f n (some (.scalar s)) e (.scalar s) len c n₁ →
    ExprCode f n none (.assign span name .set e) (.scalar s) len
      (c ++ [.lw .t0 0 .sp, .sw .t0 (offset + wordBytes) .sp]) n₁
  | compound {f : Frame} {n n₁ : Nat} {span : Span} {name : String} {op : AssignOp} {b : BinaryOp}
      {e : Expr} {offset : Int} {slot : Slot} {s : Scalar} {right kind : SlotKind} {len : Option Nat}
      {c₁ c₂ c₃ : List Line} :
    f.resolve? name = some (offset, slot) → slot.kind = .scalar s → op.combine? = some b →
    ExprCode (f.push (.scalar s) slot.length) n none e right len c₁ n₁ →
    BinaryCode b (.scalar s) right kind c₂ → ConvertCode kind (.scalar s) c₃ →
    ExprCode f n none (.assign span name op e) (.scalar s) none
      (.lw .t0 offset .sp :: push .t0 ++ c₁ ++ c₂ ++ c₃
        ++ [.lw .t0 0 .sp, .sw .t0 (offset + wordBytes) .sp]) n₁
  | step {f : Frame} {n : Nat} {span : Span} {name : String} {op : StepOp} {offset : Int} {slot : Slot}
      {lines : List Line} :
    f.resolve? name = some (offset, slot) → stepLines op slot.kind = some lines →
    ExprCode f n none (.step span name op) slot.kind none
      (.lw .t0 offset .sp :: lines ++ [.sw .t0 offset .sp] ++ push .t0) n
  | ternary {f : Frame} {n n₁ n₂ n₃ : Nat} {span : Span} {c t e : Expr} {kind : SlotKind}
      {len len₁ len₂ : Option Nat} {c₁ c₂ c₃ : List Line} :
    ExprCode f (n + 2) none c .bool len c₁ n₁ → ExprCode f n₁ none t kind len₁ c₂ n₂ →
    ExprCode f n₂ none e kind len₂ c₃ n₃ →
    ExprCode f n none (.ternary span c t e) kind len₂
      (c₁ ++ pop .t0 ++ [.beqz .t0 (.numbered n)] ++ c₂ ++ [.j (.numbered (n + 1)), .label (.numbered n)]
        ++ c₃ ++ [.label (.numbered (n + 1))]) n₃
  | index {f : Frame} {n n₁ : Nat} {span : Span} {array : String} {i : Expr} {offset : Int} {slot : Slot}
      {elem : Scalar} {len : Option Nat} {c : List Line} :
    f.resolve? array = some (offset, slot) → slot.kind = .array elem →
    ExprCode f n (some .int) i .int len c n₁ →
    ExprCode f n none (.index span array i) (.scalar elem) none
      (c ++ pop .t0 ++ addressCode offset ++ [.lw .t0 0 .t0] ++ push .t0) n₁
  | indexAssign {f : Frame} {n n₁ n₂ : Nat} {span : Span} {array : String} {i e : Expr} {offset : Int}
      {slot : Slot} {elem : Scalar} {len₁ len₂ : Option Nat} {c₁ c₂ : List Line} :
    f.resolve? array = some (offset, slot) → slot.kind = .array elem →
    ExprCode f n (some .int) i .int len₁ c₁ n₁ →
    ExprCode (f.push .int len₁) n₁ (some (.scalar elem)) e (.scalar elem) len₂ c₂ n₂ →
    ExprCode f n none (.indexAssign span array i .set e) (.scalar elem) len₁
      (c₁ ++ c₂ ++ storeElementCode (offset + wordBytes + wordBytes)) n₂
  | compoundIndexAssign {f : Frame} {n n₁ n₂ : Nat} {span : Span} {array : String} {i e : Expr}
      {op : AssignOp} {b : BinaryOp} {offset : Int} {slot : Slot} {elem : Scalar}
      {right kind : SlotKind} {len₁ len₂ : Option Nat} {c₁ c₂ c₃ c₄ : List Line} :
    f.resolve? array = some (offset, slot) → slot.kind = .array elem → op.combine? = some b →
    ExprCode f n (some .int) i .int len₁ c₁ n₁ →
    ExprCode ((f.push .int len₁).push (.scalar elem) none) n₁ none e right len₂ c₂ n₂ →
    BinaryCode b (.scalar elem) right kind c₃ → ConvertCode kind (.scalar elem) c₄ →
    ExprCode f n none (.indexAssign span array i op e) (.scalar elem) len₁
      (c₁ ++ [.lw .t0 0 .sp] ++ addressCode (offset + wordBytes) ++ [.lw .t0 0 .t0] ++ push .t0
        ++ c₂ ++ c₃ ++ c₄ ++ storeElementCode (offset + wordBytes + wordBytes)) n₂
  | indexOf {f : Frame} {n n₁ : Nat} {span : Span} {array : String} {e : Expr} {offset : Int}
      {slot : Slot} {elem : Scalar} {len : Option Nat} {c : List Line} :
    f.resolve? array = some (offset, slot) → slot.kind = .array elem →
    ExprCode f n (some (.scalar elem)) e (.scalar elem) len c n₁ →
    ExprCode f n none (.indexOf span array e) .int none
      (c ++ pop .a1 ++ [.lw .a0 offset .sp, .li .a2 (elementCode elem),
        .jal Routine.arrayIndexOf.label] ++ push .a0) n₁
  | length {f : Frame} {n : Nat} {span : Span} {array : String} {offset : Int} {slot : Slot}
      {elem : Scalar} :
    f.resolve? array = some (offset, slot) → slot.kind = .array elem →
    ExprCode f n none (.length span array) .int none
      ([.lw .t0 offset .sp, .lw .t0 (-wordBytes) .t0] ++ push .t0) n
  | join {f : Frame} {n : Nat} {span : Span} {array : String} {offset : Int} {slot : Slot}
      {elem : Scalar} :
    f.resolve? array = some (offset, slot) → slot.kind = .array elem →
    ExprCode f n none (.join span array) .string none
      ([.lw .a0 offset .sp, .li .a1 (elementCode elem), .jal Routine.arrayJoin.label] ++ push .a0) n
  | call {f : Frame} {n n₁ : Nat} {span : Span} {callee arg : Expr} {fn : Embedded}
      {kind result : SlotKind} {len len' : Option Nat} {c₁ c : List Line} :
    embeddedCallee callee = .ok fn → ExprCode f n none arg kind len c₁ n₁ →
    EmbeddedCode fn kind len result len' c →
    ExprCode f n none (.call span callee [arg]) result len' (c₁ ++ c) n₁
  | narrowed {f : Frame} {n : Nat} {e : Expr} {c : Char} :
    singleChar? e = some c →
    ExprCode f n (some .char) e .char none (.li .t0 (charCode c) :: push .t0) n
  | converted {f : Frame} {n n₁ : Nat} {e : Expr} {kind target : SlotKind} {len : Option Nat}
      {c₁ c : List Line} :
    (target = .char → singleChar? e = none) → ExprCode f n none e kind len c₁ n₁ →
    ConvertCode kind target c → ExprCode f n (some target) e target len (c₁ ++ c) n₁

/-! Declarations -/

inductive ItemsCode : Frame → Nat → Option Scalar → List Expr → Scalar → List Line → Frame → Nat →
    Prop where
  | nil {f : Frame} {n : Nat} {elem : Scalar} : ItemsCode f n (some elem) [] elem [] f n
  | known {f f' : Frame} {n n₁ n₂ : Nat} {elem : Scalar} {e : Expr} {rest : List Expr}
      {len : Option Nat} {c₁ c₂ : List Line} :
    ExprCode f n (some (.scalar elem)) e (.scalar elem) len c₁ n₁ →
    ItemsCode (f.push (.scalar elem) len) n₁ (some elem) rest elem c₂ f' n₂ →
    ItemsCode f n (some elem) (e :: rest) elem (c₁ ++ c₂) f' n₂
  | first {f f' : Frame} {n n₁ n₂ : Nat} {elem : Scalar} {e : Expr} {rest : List Expr}
      {len : Option Nat} {c₁ c₂ : List Line} :
    ExprCode f n none e (.scalar elem) len c₁ n₁ →
    ItemsCode (f.push (.scalar elem) len) n₁ (some elem) rest elem c₂ f' n₂ →
    ItemsCode f n none (e :: rest) elem (c₁ ++ c₂) f' n₂

def collectCode : Nat → List Line
  | 0 => []
  | n + 1 => pop .t1 ++ [.sw .t1 (n * wordBytes) .t0] ++ collectCode n

def upToCode (limit length n : Nat) (unrolled : Nat → List Line) (lines : Label → Label → List Line) :
    List Line :=
  if length ≤ limit then unrolled length
  else .li .t2 length :: lines (.numbered n) (.numbered (n + 1))

def upToLabels (limit length : Nat) : Nat :=
  if length ≤ limit then 0 else 2

def regionCode (d : DataSection) (length : Nat) : List Line :=
  [.la .t0 (d.allocate length).1, .addi .t0 .t0 wordBytes]

inductive ArrayCode (limit : Nat) (f : Frame) (n : Nat) (d : DataSection) :
    Option Scalar → ArrayInit → Scalar → Option Nat → List Line → Nat → DataSection → Prop where
  | values {declared : Option Scalar} {items : List Expr} {elem : Scalar} {f' : Frame} {n₁ : Nat}
      {c : List Line} :
    ItemsCode f n declared items elem c f' n₁ →
    ArrayCode limit f n d declared (.values items) elem (some items.length)
      (c ++ regionCode d items.length ++ collectCode items.length ++ push .t0) n₁
      (d.allocate items.length).2
  | sized {elem : Scalar} {length : Expr} {k : Int64} {word : Int} :
    intLiteral? length = some k → ¬k < 0 → intWord k = .ok word →
    ArrayCode limit f n d (some elem) (.sized length) elem (some word.toNat)
      (regionCode d word.toNat ++ [loadZero .t1 elem]
        ++ upToCode limit word.toNat n unrolledFill fillLoop ++ push .t0)
      (n + upToLabels limit word.toNat) (d.allocate word.toNat).2
  | computed {elem : Scalar} {length : Expr} {len : Option Nat} {n₁ : Nat} {c : List Line} :
    intLiteral? length = none → ExprCode f n (some .int) length .int len c n₁ →
    ArrayCode limit f n d (some elem) (.sized length) elem none
      (c ++ pop .t2 ++ heapRegion ++ [loadZero .t1 elem]
        ++ fillLoop (.numbered n₁) (.numbered (n₁ + 1)) ++ push .t0) (n₁ + 2) d
  | copied {declared : Option Scalar} {source : String} {offset : Int} {slot : Slot} {elem : Scalar}
      {length : Nat} :
    f.resolve? source = some (offset, slot) → slot.kind = .array elem →
    (∀ s, declared = some s → s = elem) → slot.length = some length →
    ArrayCode limit f n d declared (.copyOf source) elem (some length)
      ([.lw .t1 offset .sp] ++ regionCode d length
        ++ upToCode limit length n unrolledCopy copyLoop ++ push .t0)
      (n + upToLabels limit length) (d.allocate length).2
  | copiedHeap {declared : Option Scalar} {source : String} {offset : Int} {slot : Slot}
      {elem : Scalar} :
    f.resolve? source = some (offset, slot) → slot.kind = .array elem →
    (∀ s, declared = some s → s = elem) → slot.length = none →
    ArrayCode limit f n d declared (.copyOf source) elem none
      ([.lw .t1 offset .sp] ++ .lw .t2 (-wordBytes) .t1 :: heapRegion
        ++ copyLoop (.numbered n) (.numbered (n + 1)) ++ push .t0) (n + 2) d

/-! Statements -/

def shownCode (n : Nat) : SlotKind → List Line
  | .int => pop .a0 ++ syscall 1
  | .float => pop .t0 ++ .floatOfBits .fa0 .t0 :: syscall 2
  | .string => pop .a0 ++ syscall 4
  | .char => pop .a0 ++ syscall 11
  | .bool =>
    pop .t0 ++ .la .a0 FixedString.trueText.label :: .bnez .t0 (.numbered n)
      :: .la .a0 FixedString.falseText.label :: .label (.numbered n) :: syscall 4
  | .array elem => pop .a0 ++ [.li .a1 (elementCode elem), .jal Routine.printArray.label]

def shownLabels : SlotKind → Nat
  | .bool => 1
  | _ => 0

inductive PrintCode (f : Frame) : Nat → List Line → List Expr → List Line → Nat → Prop where
  | nil {n : Nat} {separator : List Line} : PrintCode f n separator [] [] n
  | cons {n n₁ n₂ : Nat} {separator : List Line} {e : Expr} {rest : List Expr} {kind : SlotKind}
      {len : Option Nat} {c₁ c₂ : List Line} :
    ExprCode f n none e kind len c₁ n₁ →
    PrintCode f (n₁ + shownLabels kind) (printCode ' ') rest c₂ n₂ →
    PrintCode f n separator (e :: rest) (separator ++ c₁ ++ shownCode n₁ kind ++ c₂) n₂

inductive TestCode (f : Frame) (n : Nat) (done : Label) : Option Expr → List Line → Nat → Prop where
  | none : TestCode f n done none [] n
  | some {e : Expr} {len : Option Nat} {c : List Line} {n₁ : Nat} :
    ExprCode f n none e .bool len c n₁ →
    TestCode f n done (some e) (c ++ pop .t0 ++ [.beqz .t0 done]) n₁

inductive UpdateCode (f : Frame) (n : Nat) : Option Expr → List Line → Nat → Prop where
  | none : UpdateCode f n none [] n
  | some {e : Expr} {kind : SlotKind} {len : Option Nat} {c : List Line} {n₁ : Nat} :
    ExprCode f n none e kind len c n₁ → UpdateCode f n (some e) (c ++ release wordBytes) n₁

inductive CaseWord : SlotKind → Expr → Int → Prop where
  | grouping {kind : SlotKind} {span : Span} {e : Expr} {word : Int} :
    CaseWord kind e word → CaseWord kind (.grouping span e) word
  | int {span : Span} {n : Int64} {word : Int} :
    intWord n = .ok word → CaseWord .int (.literal span (.int n)) word
  | char (span : Span) (c : Char) : CaseWord .char (.literal span (.char c)) (charCode c)
  | bool (span : Span) (b : Bool) : CaseWord .bool (.literal span (.bool b)) (boolWord b)
  | negative {span place : Span} {n : Int64} {word : Int} :
    intWord n = .ok word → CaseWord .int (.unary span .neg (.literal place (.int n))) (-word)

inductive WordsCode (kind : SlotKind) : List (Expr × Label) → List Line → Prop where
  | nil : WordsCode kind [] []
  | cons {e : Expr} {label : Label} {rest : List (Expr × Label)} {word : Int} {c : List Line} :
    CaseWord kind e word → WordsCode kind rest c →
    WordsCode kind ((e, label) :: rest) ([.li .t1 word, .beq .t0 .t1 label] ++ c)

inductive StringsCode : List (Expr × Label) → List Line → Prop where
  | nil : StringsCode [] []
  | cons {span : Span} {raw : String} {label : Label} {rest : List (Expr × Label)} {c : List Line} :
    StringsCode rest c →
    StringsCode ((.literal span (.string raw), label) :: rest)
      (stringCode (Text.unescape raw) ++ pop .a1
        ++ [.mv .a0 .s1, .jal Routine.strEquals.label, .bnez .a0 label] ++ c)

inductive CasesCode : SlotKind → List (Expr × Label) → List Line → Prop where
  | strings {cases : List (Expr × Label)} {c : List Line} :
    StringsCode cases c → CasesCode .string cases (pop .s1 ++ c)
  | words {kind : SlotKind} {cases : List (Expr × Label)} {c : List Line} :
    kind = .int ∨ kind = .char ∨ kind = .bool → WordsCode kind cases c →
    CasesCode kind cases (pop .t0 ++ c)

def labelsFrom (n count : Nat) : List Label :=
  (List.range' n count).map .numbered

/--
What code stands for: a statement, statements in the current scope, statements in a scope of their own, or the
bodies of a switch with the labels they are at.
-/
inductive Part where
  | stmt (s : Stmt)
  | seq (body : List Stmt)
  | scope (body : List Stmt)
  | bodies (bodies : List (Label × List Stmt))

def JumpTargets.inLoop (j : JumpTargets) (done next : Label) (level : Int) : JumpTargets :=
  (j.pushBreak ⟨done, level⟩).pushContinue ⟨next, level⟩

/--
The bodies of a switch, the default last, with consecutive labels.
-/
def switchBodies (n : Nat) (cases : List SwitchCase) (default : Option (List Stmt)) :
    List (Label × List Stmt) :=
  (labelsFrom n (cases.length + default.toList.length)).zip
    (cases.map SwitchCase.body ++ default.toList)

/--
Where a switch jumps to when no case matches.
-/
def switchDefault (n : Nat) (cases : List SwitchCase) (default : Option (List Stmt)) (done : Label) :
    Label :=
  (labelsFrom (n + cases.length) default.toList.length).headD done

/--
The code of a part of a program in a frame, where jumps have targets and the next label has a number: the frame
that is left, the number of the next label and the data section after it.
-/
inductive StmtCode (limit : Nat) : JumpTargets → Frame → Nat → DataSection → Part → List Line → Frame →
    Nat → DataSection → Prop where
  | declared {j : JumpTargets} {f : Frame} {n n₁ : Nat} {d : DataSection} {span : Span} {ty : TypeName}
      {name : String} {e : Expr} {s : Scalar} {len : Option Nat} {c : List Line} :
    f.isDeclared name = false → ty.scalar? = some s →
    ExprCode f n (some (.scalar s)) e (.scalar s) len c n₁ →
    StmtCode limit j f n d (.stmt (.varDecl span ty name (some e))) c
      (f.pushNamed (.scalar s) len name) n₁ d
  | zeroed {j : JumpTargets} {f : Frame} {n : Nat} {d : DataSection} {span : Span} {ty : TypeName}
      {name : String} {s : Scalar} :
    f.isDeclared name = false → ty.scalar? = some s →
    StmtCode limit j f n d (.stmt (.varDecl span ty name none)) (loadZero .t0 s :: push .t0)
      (f.pushNamed (.scalar s) none name) n d
  | inferred {j : JumpTargets} {f : Frame} {n n₁ : Nat} {d : DataSection} {span : Span} {name : String}
      {e : Expr} {s : Scalar} {len : Option Nat} {c : List Line} :
    f.isDeclared name = false → ExprCode f n none e (.scalar s) len c n₁ →
    StmtCode limit j f n d (.stmt (.varDecl span .var name (some e))) c
      (f.pushNamed (.scalar s) len name) n₁ d
  | arrayDecl {j : JumpTargets} {f : Frame} {n n₁ : Nat} {d d₁ : DataSection} {span : Span}
      {elem : TypeName} {name : String} {init : ArrayInit} {s : Scalar} {len : Option Nat}
      {c : List Line} :
    f.isDeclared name = false → elem.scalar? ≠ none ∨ elem = .var →
    ArrayCode limit f n d elem.scalar? init s len c n₁ d₁ →
    StmtCode limit j f n d (.stmt (.arrayDecl span elem 1 name init)) c
      (f.pushNamed (.array s) len name) n₁ d₁
  | expr {j : JumpTargets} {f : Frame} {n n₁ : Nat} {d : DataSection} {span : Span} {e : Expr}
      {kind : SlotKind} {len : Option Nat} {c : List Line} :
    ExprCode f n none e kind len c n₁ →
    StmtCode limit j f n d (.stmt (.expr span e)) (c ++ release wordBytes) f n₁ d
  | print {j : JumpTargets} {f : Frame} {n n₁ : Nat} {d : DataSection} {span : Span}
      {args : List Expr} {c : List Line} :
    PrintCode f n [] args c n₁ →
    StmtCode limit j f n d (.stmt (.print span args))
      (.comment "print" :: c ++ printCode '\n') f n₁ d
  | block {j : JumpTargets} {f f₁ : Frame} {n n₁ : Nat} {d d₁ : DataSection} {span : Span}
      {body : List Stmt} {c : List Line} :
    StmtCode limit j f n d (.scope body) c f₁ n₁ d₁ →
    StmtCode limit j f n d (.stmt (.block span body)) c f₁ n₁ d₁
  | ifElse {j : JumpTargets} {f : Frame} {n n₁ n₂ n₃ : Nat} {d d₁ d₂ : DataSection} {span : Span}
      {cond : Expr} {t e : Stmt} {len : Option Nat} {c₁ c₂ c₃ : List Line} :
    ExprCode f (n + 1) none cond .bool len c₁ n₁ →
    StmtCode limit j f (n₁ + 1) d (.scope t.bodyOf) c₂ f n₂ d₁ →
    StmtCode limit j f n₂ d₁ (.scope e.bodyOf) c₃ f n₃ d₂ →
    StmtCode limit j f n d (.stmt (.conditional span cond t (some e)))
      (c₁ ++ pop .t0 ++ [.beqz .t0 (.numbered n₁)] ++ c₂ ++ [.j (.numbered n), .label (.numbered n₁)]
        ++ c₃ ++ [.label (.numbered n)]) f n₃ d₂
  | ifThen {j : JumpTargets} {f : Frame} {n n₁ n₂ : Nat} {d d₁ : DataSection} {span : Span}
      {cond : Expr} {t : Stmt} {len : Option Nat} {c₁ c₂ : List Line} :
    ExprCode f (n + 1) none cond .bool len c₁ n₁ →
    StmtCode limit j f n₁ d (.scope t.bodyOf) c₂ f n₂ d₁ →
    StmtCode limit j f n d (.stmt (.conditional span cond t none))
      (c₁ ++ pop .t0 ++ [.beqz .t0 (.numbered n)] ++ c₂ ++ [.label (.numbered n)]) f n₂ d₁
  | whileLoop {j : JumpTargets} {f : Frame} {n n₁ n₂ : Nat} {d d₁ : DataSection} {span : Span}
      {cond : Expr} {body : Stmt} {len : Option Nat} {c₁ c₂ : List Line} :
    ExprCode f (n + 2) none cond .bool len c₁ n₁ →
    StmtCode limit (j.inLoop (.numbered (n + 1)) (.numbered n) f.bytes) f n₁ d (.scope body.bodyOf) c₂
      f n₂ d₁ →
    StmtCode limit j f n d (.stmt (.whileLoop span cond body))
      ([.label (.numbered n)] ++ c₁ ++ pop .t0 ++ [.beqz .t0 (.numbered (n + 1))] ++ c₂
        ++ [.j (.numbered n), .label (.numbered (n + 1))]) f n₂ d₁
  | forLoop {j : JumpTargets} {f f₁ : Frame} {n n₁ n₂ n₃ n₄ : Nat} {d d₁ d₂ : DataSection} {span : Span}
      {init : Option Stmt} {cond update : Option Expr} {body : Stmt} {c₁ c₂ c₃ c₄ : List Line} :
    StmtCode limit j f.openScope (n + 3) d (.seq init.toList) c₁ f₁ n₁ d₁ →
    TestCode f₁ n₁ (.numbered (n + 2)) cond c₂ n₂ →
    StmtCode limit (j.inLoop (.numbered (n + 2)) (.numbered (n + 1)) f₁.bytes) f₁ n₂ d₁
      (.scope body.bodyOf) c₃ f₁ n₃ d₂ →
    UpdateCode f₁ n₃ update c₄ n₄ →
    StmtCode limit j f n d (.stmt (.forLoop span init cond update body))
      (c₁ ++ [.label (.numbered n)] ++ c₂ ++ c₃ ++ [.label (.numbered (n + 1))] ++ c₄
        ++ [.j (.numbered n), .label (.numbered (n + 2))] ++ release (f₁.bytes - f.bytes)) f n₄ d₂
  | forEach {j : JumpTargets} {f f₁ f₂ : Frame} {n n₁ : Nat} {d d₁ : DataSection} {span : Span}
      {declared : TypeName} {name iterable : String} {body : Stmt} {offset : Int} {slot : Slot}
      {elem : Scalar} {c : List Line} :
    f.resolve? iterable = some (offset, slot) → slot.kind = .array elem →
    declared = .var ∨ declared.scalar? = some elem →
    f₁ = (f.openScope.pushNamed slot.kind slot.length "#base").pushNamed .int none "#idx" →
    f₂ = f₁.openScope.pushNamed (.scalar elem) none name →
    StmtCode limit (j.inLoop (.numbered (n + 2)) (.numbered (n + 1)) f₁.bytes) f₂ (n + 3) d
      (.scope body.bodyOf) c f₂ n₁ d₁ →
    StmtCode limit j f n d (.stmt (.forEach span declared name iterable body))
      (.lw .t0 offset .sp :: push .t0 ++ .li .t0 0 :: push .t0
        ++ [.label (.numbered n), .lw .t0 0 .sp, .lw .t1 wordBytes .sp, .lw .t2 (-wordBytes) .t1,
          .bge .t0 .t2 (.numbered (n + 2)), .slli .t0 .t0 2, .add .t0 .t1 .t0, .lw .t0 0 .t0]
        ++ push .t0 ++ c ++ release wordBytes
        ++ [.label (.numbered (n + 1)), .lw .t0 0 .sp, .addi .t0 .t0 1, .sw .t0 0 .sp,
          .j (.numbered n), .label (.numbered (n + 2))]
        ++ release (wordBytes + wordBytes)) f n₁ d₁
  | switch {j : JumpTargets} {f : Frame} {n n₁ n₂ : Nat} {d d₁ : DataSection} {span : Span}
      {subject : Expr} {cases : List SwitchCase} {default : Option (List Stmt)} {kind : SlotKind}
      {len : Option Nat} {c₁ c₂ c₃ : List Line} :
    ExprCode f n none subject kind len c₁ n₁ →
    CasesCode kind ((cases.map SwitchCase.value).zip (labelsFrom (n₁ + 1) cases.length)) c₂ →
    StmtCode limit (j.pushBreak ⟨.numbered n₁, f.bytes⟩) f
      (n₁ + 1 + (cases.length + default.toList.length)) d
      (.bodies (switchBodies (n₁ + 1) cases default)) c₃ f n₂ d₁ →
    StmtCode limit j f n d (.stmt (.switch span subject cases default))
      (c₁ ++ c₂ ++ [.j (switchDefault (n₁ + 1) cases default (.numbered n₁))] ++ c₃
        ++ [.label (.numbered n₁)]) f n₂ d₁
  | breakStmt {j : JumpTargets} {f : Frame} {n : Nat} {d : DataSection} {span : Span}
      {target : JumpTarget} :
    j.break? = some target →
    StmtCode limit j f n d (.stmt (.breakStmt span))
      (release (f.bytes - target.level) ++ [.j target.label]) f n d
  | continueStmt {j : JumpTargets} {f : Frame} {n : Nat} {d : DataSection} {span : Span}
      {target : JumpTarget} :
    j.continue? = some target →
    StmtCode limit j f n d (.stmt (.continueStmt span))
      (release (f.bytes - target.level) ++ [.j target.label]) f n d
  | nil {j : JumpTargets} {f : Frame} {n : Nat} {d : DataSection} :
    StmtCode limit j f n d (.seq []) [] f n d
  | cons {j : JumpTargets} {f f₁ f₂ : Frame} {n n₁ n₂ : Nat} {d d₁ d₂ : DataSection} {s : Stmt}
      {rest : List Stmt} {c₁ c₂ : List Line} :
    StmtCode limit j f n d (.stmt s) c₁ f₁ n₁ d₁ → StmtCode limit j f₁ n₁ d₁ (.seq rest) c₂ f₂ n₂ d₂ →
    StmtCode limit j f n d (.seq (s :: rest)) (c₁ ++ c₂) f₂ n₂ d₂
  | scope {j : JumpTargets} {f f₁ : Frame} {n n₁ : Nat} {d d₁ : DataSection} {body : List Stmt}
      {c : List Line} :
    StmtCode limit j f.openScope n d (.seq body) c f₁ n₁ d₁ →
    StmtCode limit j f n d (.scope body) (c ++ release (f₁.bytes - f.bytes)) f n₁ d₁
  | noBody {j : JumpTargets} {f : Frame} {n : Nat} {d : DataSection} :
    StmtCode limit j f n d (.bodies []) [] f n d
  | body {j : JumpTargets} {f : Frame} {n n₁ n₂ : Nat} {d d₁ d₂ : DataSection} {label : Label}
      {body : List Stmt} {rest : List (Label × List Stmt)} {c₁ c₂ : List Line} :
    StmtCode limit j f n d (.scope body) c₁ f n₁ d₁ →
    StmtCode limit j f n₁ d₁ (.bodies rest) c₂ f n₂ d₂ →
    StmtCode limit j f n d (.bodies ((label, body) :: rest)) (.label label :: c₁ ++ c₂) f n₂ d₂

end Lowering

end Arbor
