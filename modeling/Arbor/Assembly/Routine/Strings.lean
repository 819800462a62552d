import Arbor.Assembly.Routine.Basic

/-!
This module contains the routines on strings.
-/

namespace Arbor.Assembly.Routine

def concatStringBody : List Line :=
  List.flatten [[.comment "a0 = a0 ++ a1, copied to the heap", .mv .t0 .hp],
    copyBytes .a0 (concatString.place "first") (concatString.place "second"),
    copyBytes .a1 (concatString.place "copy") (concatString.place "done"),
    finishString .t0]

def strEqualsBody : List Line :=
  let top := strEquals.place "loop"
  let equal := strEquals.place "eq"
  let different := strEquals.place "ne"
  [.comment "a0 = 1 if the strings at a0 and a1 are equal",
    .label top, .lb .t0 0 .a0, .lb .t1 0 .a1, .bne .t0 .t1 different, .beqz .t0 equal,
    .addi .a0 .a0 1, .addi .a1 .a1 1, .j top,
    .label equal, .li .a0 1, .ret,
    .label different, .li .a0 0]

def mapCase (r : Routine) (first last : Char) (delta : Int) : List Line :=
  let top := r.place "loop"
  let store := r.place "store"
  let done := r.place "done"
  List.flatten [[.mv .t0 .hp, .label top, .lb .t1 0 .a0, .beqz .t1 done,
      .li .t2 (charCode first), .blt .t1 .t2 store, .li .t2 (charCode last), .bgt .t1 .t2 store,
      .addi .t1 .t1 delta, .label store],
    appendByte .t1,
    [.addi .a0 .a0 1, .j top, .label done],
    finishString .t0]

def toUpperCaseBody : List Line :=
  mapCase toUpperCase 'a' 'z' (-32)

def toLowerCaseBody : List Line :=
  mapCase toLowerCase 'A' 'Z' 32

end Arbor.Assembly.Routine
