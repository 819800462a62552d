import Arbor.Assembly.Register

/-!
This module contains the instructions of the assembly and the lines of its text.

Instructions are grouped by the shape of their operands; what an instruction computes is an operation of its
shape. The registers come destination first, except for stores, which name the register they read.
-/

namespace Arbor.Assembly

/--
A name for an address: one of the numbered jump targets of a program, one of its arrays, or the name that a
routine, a place inside a routine or a fixed string goes by.
-/
inductive Label where
  | numbered (n : Nat)
  | array (n : Nat)
  | named (name : String)
  deriving Repr, DecidableEq, Inhabited

inductive RegisterOp where
  | add
  | sub
  | mul
  | div
  | rem
  | divu
  | remu
  | xor
  | slt
  deriving Repr, DecidableEq

inductive ImmediateOp where
  | addi
  | andi
  | xori
  | slli
  deriving Repr, DecidableEq

inductive MoveOp where
  | neg
  | seqz
  | snez
  | mv
  deriving Repr, DecidableEq

inductive Width where
  | word
  | byte
  deriving Repr, DecidableEq

inductive BranchOp where
  | beq
  | bne
  | blt
  | bge
  | bgt
  deriving Repr, DecidableEq

inductive ZeroBranchOp where
  | beqz
  | bnez
  | bgez
  | bltz
  deriving Repr, DecidableEq

inductive FloatOp where
  | fadd
  | fsub
  | fmul
  | fdiv
  deriving Repr, DecidableEq

inductive FloatMoveOp where
  | fneg
  | fabs
  deriving Repr, DecidableEq

inductive FloatCompareOp where
  | feq
  | flt
  | fle
  deriving Repr, DecidableEq

inductive Instruction where
  | register (op : RegisterOp) (rd rs1 rs2 : Register)
  | immediate (op : ImmediateOp) (rd rs : Register) (value : Int)
  | move (op : MoveOp) (rd rs : Register)
  /-- Load a number. -/
  | li (rd : Register) (value : Int)
  /-- Load an address. -/
  | la (rd : Register) (address : Label)
  | load (width : Width) (rd : Register) (offset : Int) (base : Register)
  | store (width : Width) (rs : Register) (offset : Int) (base : Register)
  | branch (op : BranchOp) (rs1 rs2 : Register) (target : Label)
  | branchZero (op : ZeroBranchOp) (rs : Register) (target : Label)
  | j (target : Label)
  /-- Jump to a routine, with the address of the next instruction in `ra`. -/
  | jal (routine : Label)
  | ret
  | ecall
  | float (op : FloatOp) (fd fs1 fs2 : FloatRegister)
  | floatMove (op : FloatMoveOp) (fd fs : FloatRegister)
  | floatCompare (op : FloatCompareOp) (rd : Register) (fs1 fs2 : FloatRegister)
  /-- Take the bits of an integer register as a float. -/
  | floatOfBits (fd : FloatRegister) (rs : Register)
  /-- Take a float as its bits. -/
  | bitsOfFloat (rd : Register) (fs : FloatRegister)
  /-- Convert an integer to the nearest float. -/
  | floatOfInt (fd : FloatRegister) (rs : Register)
  /-- Convert a float to an integer, rounding toward zero. -/
  | intOfFloat (rd : Register) (fs : FloatRegister)
  deriving Repr, DecidableEq

inductive Line where
  | instruction (i : Instruction)
  | label (l : Label)
  | comment (text : String)
  deriving Repr, DecidableEq

def Label.text : Label → String
  | numbered n => s!"L{n}"
  | array n => s!"arr_{n}"
  | named name => name

namespace RegisterOp

def mnemonic : RegisterOp → String
  | add => "add"
  | sub => "sub"
  | mul => "mul"
  | div => "div"
  | rem => "rem"
  | divu => "divu"
  | remu => "remu"
  | xor => "xor"
  | slt => "slt"

end RegisterOp

namespace ImmediateOp

def mnemonic : ImmediateOp → String
  | addi => "addi"
  | andi => "andi"
  | xori => "xori"
  | slli => "slli"

end ImmediateOp

namespace MoveOp

def mnemonic : MoveOp → String
  | neg => "neg"
  | seqz => "seqz"
  | snez => "snez"
  | mv => "mv"

end MoveOp

namespace Width

def loadMnemonic : Width → String
  | word => "lw"
  | byte => "lb"

def storeMnemonic : Width → String
  | word => "sw"
  | byte => "sb"

end Width

namespace BranchOp

def mnemonic : BranchOp → String
  | beq => "beq"
  | bne => "bne"
  | blt => "blt"
  | bge => "bge"
  | bgt => "bgt"

end BranchOp

namespace ZeroBranchOp

def mnemonic : ZeroBranchOp → String
  | beqz => "beqz"
  | bnez => "bnez"
  | bgez => "bgez"
  | bltz => "bltz"

end ZeroBranchOp

namespace FloatOp

def mnemonic : FloatOp → String
  | fadd => "fadd.s"
  | fsub => "fsub.s"
  | fmul => "fmul.s"
  | fdiv => "fdiv.s"

end FloatOp

namespace FloatMoveOp

def mnemonic : FloatMoveOp → String
  | fneg => "fneg.s"
  | fabs => "fabs.s"

end FloatMoveOp

namespace FloatCompareOp

def mnemonic : FloatCompareOp → String
  | feq => "feq.s"
  | flt => "flt.s"
  | fle => "fle.s"

end FloatCompareOp

namespace Instruction

def mnemonic : Instruction → String
  | register op .. => op.mnemonic
  | immediate op .. => op.mnemonic
  | move op .. => op.mnemonic
  | li .. => "li"
  | la .. => "la"
  | load width .. => width.loadMnemonic
  | store width .. => width.storeMnemonic
  | branch op .. => op.mnemonic
  | branchZero op .. => op.mnemonic
  | j _ => "j"
  | jal _ => "jal"
  | ret => "ret"
  | ecall => "ecall"
  | float op .. => op.mnemonic
  | floatMove op .. => op.mnemonic
  | floatCompare op .. => op.mnemonic
  | floatOfBits .. => "fmv.w.x"
  | bitsOfFloat .. => "fmv.x.w"
  | floatOfInt .. => "fcvt.s.w"
  | intOfFloat .. => "fcvt.w.s"

def operands : Instruction → List String
  | register _ rd rs1 rs2 => [rd.name, rs1.name, rs2.name]
  | immediate _ rd rs value => [rd.name, rs.name, toString value]
  | move _ rd rs => [rd.name, rs.name]
  | li rd value => [rd.name, toString value]
  | la rd address => [rd.name, address.text]
  | load _ rd offset base => [rd.name, s!"{offset}({base.name})"]
  | store _ rs offset base => [rs.name, s!"{offset}({base.name})"]
  | branch _ rs1 rs2 target => [rs1.name, rs2.name, target.text]
  | branchZero _ rs target => [rs.name, target.text]
  | j target => [target.text]
  | jal routine => [routine.text]
  | ret => []
  | ecall => []
  | float _ fd fs1 fs2 => [fd.name, fs1.name, fs2.name]
  | floatMove _ fd fs => [fd.name, fs.name]
  | floatCompare _ rd fs1 fs2 => [rd.name, fs1.name, fs2.name]
  | floatOfBits fd rs => [fd.name, rs.name]
  | bitsOfFloat rd fs => [rd.name, fs.name]
  | floatOfInt fd rs => [fd.name, rs.name]
  | intOfFloat rd fs => [rd.name, fs.name, "rtz"]

def text (i : Instruction) : String :=
  match i.operands with
  | [] => i.mnemonic
  | operands => i.mnemonic ++ " " ++ ", ".intercalate operands

end Instruction

namespace Line

def text : Line → String
  | instruction i => "    " ++ i.text
  | label l => l.text ++ ":"
  | comment text => "    # " ++ text

def isComment : Line → Bool
  | comment _ => true
  | _ => false

/-! One line per mnemonic -/

@[match_pattern]
abbrev add (rd rs1 rs2 : Register) : Line := instruction (.register .add rd rs1 rs2)

@[match_pattern]
abbrev sub (rd rs1 rs2 : Register) : Line := instruction (.register .sub rd rs1 rs2)

@[match_pattern]
abbrev mul (rd rs1 rs2 : Register) : Line := instruction (.register .mul rd rs1 rs2)

@[match_pattern]
abbrev div (rd rs1 rs2 : Register) : Line := instruction (.register .div rd rs1 rs2)

@[match_pattern]
abbrev rem (rd rs1 rs2 : Register) : Line := instruction (.register .rem rd rs1 rs2)

@[match_pattern]
abbrev divu (rd rs1 rs2 : Register) : Line := instruction (.register .divu rd rs1 rs2)

@[match_pattern]
abbrev remu (rd rs1 rs2 : Register) : Line := instruction (.register .remu rd rs1 rs2)

@[match_pattern]
abbrev xor (rd rs1 rs2 : Register) : Line := instruction (.register .xor rd rs1 rs2)

@[match_pattern]
abbrev slt (rd rs1 rs2 : Register) : Line := instruction (.register .slt rd rs1 rs2)

@[match_pattern]
abbrev addi (rd rs : Register) (value : Int) : Line := instruction (.immediate .addi rd rs value)

@[match_pattern]
abbrev andi (rd rs : Register) (value : Int) : Line := instruction (.immediate .andi rd rs value)

@[match_pattern]
abbrev xori (rd rs : Register) (value : Int) : Line := instruction (.immediate .xori rd rs value)

@[match_pattern]
abbrev slli (rd rs : Register) (value : Int) : Line := instruction (.immediate .slli rd rs value)

@[match_pattern]
abbrev neg (rd rs : Register) : Line := instruction (.move .neg rd rs)

@[match_pattern]
abbrev seqz (rd rs : Register) : Line := instruction (.move .seqz rd rs)

@[match_pattern]
abbrev snez (rd rs : Register) : Line := instruction (.move .snez rd rs)

@[match_pattern]
abbrev mv (rd rs : Register) : Line := instruction (.move .mv rd rs)

@[match_pattern]
abbrev li (rd : Register) (value : Int) : Line := instruction (.li rd value)

@[match_pattern]
abbrev la (rd : Register) (address : Label) : Line := instruction (.la rd address)

@[match_pattern]
abbrev lw (rd : Register) (offset : Int) (base : Register) : Line :=
  instruction (.load .word rd offset base)

@[match_pattern]
abbrev sw (rs : Register) (offset : Int) (base : Register) : Line :=
  instruction (.store .word rs offset base)

@[match_pattern]
abbrev lb (rd : Register) (offset : Int) (base : Register) : Line :=
  instruction (.load .byte rd offset base)

@[match_pattern]
abbrev sb (rs : Register) (offset : Int) (base : Register) : Line :=
  instruction (.store .byte rs offset base)

@[match_pattern]
abbrev beq (rs1 rs2 : Register) (target : Label) : Line := instruction (.branch .beq rs1 rs2 target)

@[match_pattern]
abbrev bne (rs1 rs2 : Register) (target : Label) : Line := instruction (.branch .bne rs1 rs2 target)

@[match_pattern]
abbrev blt (rs1 rs2 : Register) (target : Label) : Line := instruction (.branch .blt rs1 rs2 target)

@[match_pattern]
abbrev bge (rs1 rs2 : Register) (target : Label) : Line := instruction (.branch .bge rs1 rs2 target)

@[match_pattern]
abbrev bgt (rs1 rs2 : Register) (target : Label) : Line := instruction (.branch .bgt rs1 rs2 target)

@[match_pattern]
abbrev beqz (rs : Register) (target : Label) : Line := instruction (.branchZero .beqz rs target)

@[match_pattern]
abbrev bnez (rs : Register) (target : Label) : Line := instruction (.branchZero .bnez rs target)

@[match_pattern]
abbrev bgez (rs : Register) (target : Label) : Line := instruction (.branchZero .bgez rs target)

@[match_pattern]
abbrev bltz (rs : Register) (target : Label) : Line := instruction (.branchZero .bltz rs target)

@[match_pattern]
abbrev j (target : Label) : Line := instruction (.j target)

@[match_pattern]
abbrev jal (routine : Label) : Line := instruction (.jal routine)

@[match_pattern]
abbrev ret : Line := instruction .ret

@[match_pattern]
abbrev ecall : Line := instruction .ecall

@[match_pattern]
abbrev fadd (fd fs1 fs2 : FloatRegister) : Line := instruction (.float .fadd fd fs1 fs2)

@[match_pattern]
abbrev fsub (fd fs1 fs2 : FloatRegister) : Line := instruction (.float .fsub fd fs1 fs2)

@[match_pattern]
abbrev fmul (fd fs1 fs2 : FloatRegister) : Line := instruction (.float .fmul fd fs1 fs2)

@[match_pattern]
abbrev fdiv (fd fs1 fs2 : FloatRegister) : Line := instruction (.float .fdiv fd fs1 fs2)

@[match_pattern]
abbrev fneg (fd fs : FloatRegister) : Line := instruction (.floatMove .fneg fd fs)

@[match_pattern]
abbrev fabs (fd fs : FloatRegister) : Line := instruction (.floatMove .fabs fd fs)

@[match_pattern]
abbrev feq (rd : Register) (fs1 fs2 : FloatRegister) : Line :=
  instruction (.floatCompare .feq rd fs1 fs2)

@[match_pattern]
abbrev flt (rd : Register) (fs1 fs2 : FloatRegister) : Line :=
  instruction (.floatCompare .flt rd fs1 fs2)

@[match_pattern]
abbrev fle (rd : Register) (fs1 fs2 : FloatRegister) : Line :=
  instruction (.floatCompare .fle rd fs1 fs2)

@[match_pattern]
abbrev floatOfBits (fd : FloatRegister) (rs : Register) : Line := instruction (.floatOfBits fd rs)

@[match_pattern]
abbrev bitsOfFloat (rd : Register) (fs : FloatRegister) : Line := instruction (.bitsOfFloat rd fs)

@[match_pattern]
abbrev floatOfInt (fd : FloatRegister) (rs : Register) : Line := instruction (.floatOfInt fd rs)

@[match_pattern]
abbrev intOfFloat (rd : Register) (fs : FloatRegister) : Line := instruction (.intOfFloat rd fs)

end Line

/-! Lines that belong together -/

def wordBytes : Int := 4

def push (rs : Register) : List Line :=
  [.addi .sp .sp (-wordBytes), .sw rs 0 .sp]

def pop (rd : Register) : List Line :=
  [.lw rd 0 .sp, .addi .sp .sp wordBytes]

/--
Drop the given number of bytes from the stack; no line is needed to drop none.
-/
def release (bytes : Int) : List Line :=
  if 0 < bytes then [.addi .sp .sp bytes] else []

def syscall (service : Int) : List Line :=
  [.li .a7 service, .ecall]

end Arbor.Assembly
