import Arbor.Assembly.File
import Arbor.Power

/-!
This module contains the machine that the assembly runs on: its registers and its memory, what an instruction does to
them, and the services of the system. A word has 32 bits. The machine has no floats.
-/

namespace Arbor.Machine

open Assembly

abbrev Word := BitVec 32

structure Core where
  registers : Register → Word
  memory : Word → BitVec 8
  output : List UInt8

/--
The addresses of the labels of the data section, and of the lines of the code.
-/
structure Layout where
  data : Label → Word
  code : Nat → Word

/--
The machine before the line with a number.
-/
structure Hart where
  core : Core
  pc : Nat

namespace Core

/--
The word in a register. The register `zero` holds zero, whatever is written to it.
-/
def get (c : Core) : Register → Word
  | .zero => 0
  | r => c.registers r

def set (c : Core) (rd : Register) (w : Word) : Core :=
  { c with registers := fun r => if r = rd then w else c.registers r }

def loadWord (c : Core) (a : Word) : Word :=
  c.memory (a + 3) ++ c.memory (a + 2) ++ c.memory (a + 1) ++ c.memory a

def storeByte (c : Core) (a : Word) (b : BitVec 8) : Core :=
  { c with memory := fun x => if x = a then b else c.memory x }

def storeWord (c : Core) (a w : Word) : Core :=
  (((c.storeByte a (w.extractLsb' 0 8)).storeByte (a + 1) (w.extractLsb' 8 8)).storeByte (a + 2)
    (w.extractLsb' 16 8)).storeByte (a + 3) (w.extractLsb' 24 8)

def write (c : Core) (bytes : List UInt8) : Core :=
  { c with output := c.output ++ bytes }

end Core

/-! Operations -/

/--
The operations on two registers. Division rounds toward zero; a quotient by zero has all bits set, and a remainder
by zero is the dividend.
-/
def registerOp (op : RegisterOp) (a b : Word) : Word :=
  match op with
  | .add => a + b
  | .sub => a - b
  | .mul => a * b
  | .div => if b = 0 then -1 else a.sdiv b
  | .rem => if b = 0 then a else a.srem b
  | .divu => if b = 0 then -1 else a / b
  | .remu => if b = 0 then a else a % b
  | .xor => a ^^^ b
  | .slt => if a.slt b then 1 else 0

def immediateOp (op : ImmediateOp) (a b : Word) : Word :=
  match op with
  | .addi => a + b
  | .andi => a &&& b
  | .xori => a ^^^ b
  | .slli => a <<< (b.toNat % 32)

def moveOp (op : MoveOp) (a : Word) : Word :=
  match op with
  | .neg => -a
  | .seqz => if a = 0 then 1 else 0
  | .snez => if a = 0 then 0 else 1
  | .mv => a

def branchTaken (op : BranchOp) (a b : Word) : Bool :=
  match op with
  | .beq => a = b
  | .bne => a ≠ b
  | .blt => a.slt b
  | .bge => !a.slt b
  | .bgt => b.slt a

def zeroBranchTaken (op : ZeroBranchOp) (a : Word) : Bool :=
  match op with
  | .beqz => a = 0
  | .bnez => a ≠ 0
  | .bgez => !a.slt 0
  | .bltz => a.slt 0

/-! Services -/

def bytes (s : String) : List UInt8 :=
  s.toUTF8.data.toList

/--
The bytes from an address on up to a zero byte, with a bound on their number.
-/
def stringAt (memory : Word → BitVec 8) (a : Word) : Nat → List UInt8
  | 0 => []
  | n + 1 => if memory a = 0 then [] else .ofBitVec (memory a) :: stringAt memory (a + 1) n

def service (c : Core) : Option Core :=
  match (c.get .a7).toNat with
  | 1 => some (c.write (bytes (toString (c.get .a0).toInt)))
  | 4 => some (c.write (stringAt c.memory (c.get .a0) (2 ^ 32)))
  | 11 => some (c.write [.ofBitVec ((c.get .a0).setWidth 8)])
  | _ => none

/-! Steps -/

def effect (L : Layout) (c : Core) : Instruction → Option Core
  | .register op rd rs1 rs2 => some (c.set rd (registerOp op (c.get rs1) (c.get rs2)))
  | .immediate op rd rs value => some (c.set rd (immediateOp op (c.get rs) (.ofInt 32 value)))
  | .move op rd rs => some (c.set rd (moveOp op (c.get rs)))
  | .li rd value => some (c.set rd (.ofInt 32 value))
  | .la rd label => some (c.set rd (L.data label))
  | .load .word rd offset base => some (c.set rd (c.loadWord (c.get base + .ofInt 32 offset)))
  | .load .byte rd offset base =>
    some (c.set rd ((c.memory (c.get base + .ofInt 32 offset)).signExtend 32))
  | .store .word rs offset base => some (c.storeWord (c.get base + .ofInt 32 offset) (c.get rs))
  | .store .byte rs offset base =>
    some (c.storeByte (c.get base + .ofInt 32 offset) ((c.get rs).setWidth 8))
  | .ecall => service c
  | _ => none

/--
What a step leads to: the next line, one of the two ways to exit, or nothing that the machine knows of.
-/
inductive Outcome where
  | running (m : Hart)
  | done
  | exited (status : Word)
  | stuck

def target? (lines : List Line) (l : Label) : Option Nat :=
  lines.findIdx? (· == .label l)

/--
The line with an address. Labels and comments have the address of the instruction after them.
-/
def lineAt? (L : Layout) (lines : List Line) (a : Word) : Option Nat :=
  (List.range lines.length).find? fun k => L.code k == a

def goTo (c : Core) : Option Nat → Outcome
  | some k => .running ⟨c, k⟩
  | none => .stuck

/--
A step of the machine. Service 10 exits, and service 93 exits with a status.
-/
def step (L : Layout) (lines : List Line) (m : Hart) : Outcome :=
  match lines[m.pc]? with
  | none => .stuck
  | some (.label _) | some (.comment _) => .running ⟨m.core, m.pc + 1⟩
  | some (.instruction i) =>
    match i with
    | .branch op rs1 rs2 target =>
      if branchTaken op (m.core.get rs1) (m.core.get rs2) then goTo m.core (target? lines target)
      else .running ⟨m.core, m.pc + 1⟩
    | .branchZero op rs target =>
      if zeroBranchTaken op (m.core.get rs) then goTo m.core (target? lines target)
      else .running ⟨m.core, m.pc + 1⟩
    | .j target => goTo m.core (target? lines target)
    | .jal routine => goTo (m.core.set .ra (L.code (m.pc + 1))) (target? lines routine)
    | .ret => goTo m.core (lineAt? L lines (m.core.get .ra))
    | i =>
      -- The services that exit are no effects, since no line follows them.
      if i = .ecall ∧ m.core.get .a7 = 10 then .done
      else if i = .ecall ∧ m.core.get .a7 = 93 then .exited (m.core.get .a0)
      else match effect L m.core i with
        | some c => .running ⟨c, m.pc + 1⟩
        | none => .stuck

inductive Reaches (L : Layout) (lines : List Line) : Hart → Hart → Prop where
  | refl (m : Hart) : Reaches L lines m m
  | step {m m' m'' : Hart} :
    Reaches L lines m m' → step L lines m' = .running m'' → Reaches L lines m m''

end Arbor.Machine
