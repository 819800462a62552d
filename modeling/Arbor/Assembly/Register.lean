/-!
This module contains the registers that the assembly uses.
-/

namespace Arbor.Assembly

inductive Register where
  | zero
  | ra
  | sp
  | t0
  | t1
  | t2
  | t3
  | t4
  | t5
  | t6
  | a0
  | a1
  | a2
  | a7
  | s1
  | s2
  | s3
  | s4
  | s5
  deriving Repr, DecidableEq, Inhabited

inductive FloatRegister where
  | ft0
  | ft1
  | ft2
  | ft3
  | fa0
  deriving Repr, DecidableEq, Inhabited

namespace Register

@[match_pattern]
def hp : Register := t6

def name : Register → String
  | zero => "zero"
  | ra => "ra"
  | sp => "sp"
  | t0 => "t0"
  | t1 => "t1"
  | t2 => "t2"
  | t3 => "t3"
  | t4 => "t4"
  | t5 => "t5"
  | t6 => "t6"
  | a0 => "a0"
  | a1 => "a1"
  | a2 => "a2"
  | a7 => "a7"
  | s1 => "s1"
  | s2 => "s2"
  | s3 => "s3"
  | s4 => "s4"
  | s5 => "s5"

end Register

namespace FloatRegister

def name : FloatRegister → String
  | ft0 => "ft0"
  | ft1 => "ft1"
  | ft2 => "ft2"
  | ft3 => "ft3"
  | fa0 => "fa0"

end FloatRegister

end Arbor.Assembly
