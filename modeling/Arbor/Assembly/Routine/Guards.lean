import Arbor.Assembly.Routine.Basic

/-!
This module contains the routines that end a program before it divides by zero or leaves an array. They change
no register but `a0`, `a1` and `a7`.
-/

namespace Arbor.Assembly.Routine

def checkDivZeroBody : List Line :=
  let fail := checkDivZero.place "fail"
  List.flatten [[.comment "a0 = divisor", .beqz .a0 fail, .ret, .label fail],
    failWith .divisionByZero]

def checkBoundsBody : List Line :=
  let fail := checkBounds.place "fail"
  List.flatten [
    [.comment "a0 = index, a1 = length", .bltz .a0 fail, .bge .a0 .a1 fail, .ret, .label fail],
    failWith .outOfBounds]

end Arbor.Assembly.Routine
