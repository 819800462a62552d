import Arbor.Assembly.Routine.Basic

/-!
This module contains the routines on arrays. An array is passed as the address of its first element; its length
is in the word before. The code of the element kind is 1 for ints, 2 for floats, 3 for bools, 4 for chars and 5
for strings.
-/

namespace Arbor.Assembly.Routine

def printChar (c : Char) : List Line :=
  .li .a0 (charCode c) :: syscall 11

def printArrayBody : List Line :=
  let top := printArray.place "loop"
  let elem := printArray.place "elem"
  let int := printArray.place "int"
  let float := printArray.place "float"
  let bool := printArray.place "bool"
  let truthy := printArray.place "true"
  let text := printArray.place "text"
  let char := printArray.place "char"
  let next := printArray.place "next"
  let done := printArray.place "done"
  List.flatten [[.mv .t0 .a0, .mv .t1 .a1, .lw .t2 (-wordBytes) .t0, .li .t3 0],
    printChar '[',
    [.label top, .bge .t3 .t2 done, .beqz .t3 elem],
    printChar ',', printChar ' ',
    [.label elem, .slli .t4 .t3 2, .add .t4 .t0 .t4, .lw .a0 0 .t4,
      .li .t5 1, .beq .t1 .t5 int, .li .t5 2, .beq .t1 .t5 float,
      .li .t5 3, .beq .t1 .t5 bool, .li .t5 4, .beq .t1 .t5 char, .j text,
      .label int],
    syscall 1,
    [.j next, .label float, .floatOfBits .fa0 .a0],
    syscall 2,
    [.j next, .label bool, .bnez .a0 truthy, .la .a0 FixedString.falseText.label, .j text,
      .label truthy, .la .a0 FixedString.trueText.label, .label text],
    syscall 4,
    [.j next, .label char],
    syscall 11,
    [.label next, .addi .t3 .t3 1, .j top, .label done],
    printChar ']']

/--
The position of the value in `a1` in the array at `a0`, whose element kind is in `a2`; -1 if there is none.
-/
def arrayIndexOfBody : List Line :=
  let top := arrayIndexOf.place "loop"
  let word := arrayIndexOf.place "word"
  let next := arrayIndexOf.place "next"
  let found := arrayIndexOf.place "found"
  let missing := arrayIndexOf.place "missing"
  let exit := arrayIndexOf.place "exit"
  List.flatten [push .ra,
    [.mv .t2 .a0, .mv .t5 .a1, .lw .t3 (-wordBytes) .t2, .li .t4 0,
      .label top, .bge .t4 .t3 missing, .slli .t0 .t4 2, .add .t0 .t2 .t0, .lw .a0 0 .t0,
      .li .t1 5, .bne .a2 .t1 word, .mv .a1 .t5, .jal strEquals.label, .bnez .a0 found, .j next,
      .label word, .beq .a0 .t5 found,
      .label next, .addi .t4 .t4 1, .j top,
      .label found, .mv .a0 .t4, .j exit,
      .label missing, .li .a0 (-1), .label exit],
    pop .ra]

def convertElement (code : Nat) (conversion : Routine) : List Line :=
  let skip := arrayJoin.place s!"not_{code}"
  [.li .t1 code, .bne .s3 .t1 skip, .jal conversion.label, .j (arrayJoin.place "append"), .label skip]

def arrayJoinBody : List Line :=
  let top := arrayJoin.place "loop"
  let elem := arrayJoin.place "elem"
  let append := arrayJoin.place "append"
  let done := arrayJoin.place "done"
  List.flatten [
    [.addi .sp .sp (-20), .sw .ra 0 .sp, .sw .s2 4 .sp, .sw .s3 8 .sp, .sw .s4 12 .sp,
      .sw .s5 16 .sp,
      .mv .s2 .a0, .mv .s3 .a1, .li .s4 0, .la .s5 FixedString.emptyText.label,
      .label top, .lw .t0 (-wordBytes) .s2, .bge .s4 .t0 done, .beqz .s4 elem,
      .mv .a0 .s5, .la .a1 FixedString.comma.label, .jal concatString.label, .mv .s5 .a0,
      .label elem, .slli .t0 .s4 2, .add .t0 .s2 .t0, .lw .a0 0 .t0],
    convertElement 1 intToString, convertElement 2 floatToString,
    convertElement 3 boolToString, convertElement 4 charToString,
    [.label append, .mv .a1 .a0, .mv .a0 .s5, .jal concatString.label, .mv .s5 .a0,
      .addi .s4 .s4 1, .j top,
      .label done, .mv .a0 .s5,
      .lw .ra 0 .sp, .lw .s2 4 .sp, .lw .s3 8 .sp, .lw .s4 12 .sp, .lw .s5 16 .sp,
      .addi .sp .sp 20]]

end Arbor.Assembly.Routine
