import Arbor.Assembly.Routine.Basic

/-!
This module contains the routines between numbers and their texts.
-/

namespace Arbor.Assembly.Routine

/--
Append the decimal digits of `value`, which is not negative when read as unsigned. It changes `t1` to `t4`
and `value`.
-/
def appendDigits (r : Routine) (value : Register) : List Line :=
  let digits := r.place "digits"
  let reverse := r.place "reverse"
  let done := r.place "reversed"
  List.flatten [[.mv .t2 .hp, .li .t3 10,
      .comment "unsigned, so a negated INT_MIN still reads as 2147483648",
      .label digits, .remu .t1 value .t3, .divu value value .t3, .addi .t1 .t1 48],
    appendByte .t1,
    [.bnez value digits,
      .comment "digits were written least significant first",
      .addi .t3 .hp (-1), .label reverse, .bge .t2 .t3 done, .lb .t1 0 .t2, .lb .t4 0 .t3,
      .sb .t4 0 .t2, .sb .t1 0 .t3, .addi .t2 .t2 1, .addi .t3 .t3 (-1), .j reverse, .label done]]

def appendMinus : List Line :=
  .li .t1 (charCode '-') :: appendByte .t1

def intToStringBody : List Line :=
  let positive := intToString.place "positive"
  List.flatten [[.mv .t0 .hp, .bgez .a0 positive], appendMinus, [.neg .a0 .a0, .label positive],
    appendDigits intToString .a0, finishString .t0]

/--
The text of the float in `a0`: the integer part, and up to six digits of the fraction without zeros at the
end.
-/
def floatToStringBody : List Line :=
  let positive := floatToString.place "positive"
  let next := floatToString.place "next"
  let trim := floatToString.place "trim"
  List.flatten [[.floatOfBits .ft0 .a0, .mv .t0 .hp, .bgez .a0 positive],
    appendMinus,
    [.fabs .ft0 .ft0, .label positive,
      .intOfFloat .t5 .ft0, .floatOfInt .ft1 .t5, .fsub .ft0 .ft0 .ft1],
    appendDigits floatToString .t5,
    [.comment "t5 marks the end of the last significant digit",
      .mv .t5 .hp, .li .t1 (charCode '.')],
    appendByte .t1,
    [.li .t2 6, .li .t3 10, .floatOfInt .ft2 .t3,
      .label next, .beqz .t2 trim, .fmul .ft0 .ft0 .ft2, .intOfFloat .t1 .ft0,
      .floatOfInt .ft1 .t1, .fsub .ft0 .ft0 .ft1, .addi .t1 .t1 48],
    appendByte .t1,
    [.addi .t2 .t2 (-1), .li .t4 48, .beq .t1 .t4 next, .mv .t5 .hp, .j next,
      .label trim, .mv .hp .t5],
    finishString .t0]

def boolToStringBody : List Line :=
  let done := boolToString.place "done"
  [.la .t0 FixedString.trueText.label, .bnez .a0 done, .la .t0 FixedString.falseText.label,
    .label done, .mv .a0 .t0]

def charToStringBody : List Line :=
  [.mv .t0 .hp, .sb .a0 0 .hp, .sb .zero 1 .hp, .addi .hp .hp 4, .mv .a0 .t0]

/--
Read a minus sign, if there is one, and the digits after it. The number without its sign is left in `t0`,
whether there was a sign in `t1`, and the address of what follows the digits in `a0`.
-/
def readDigits (r : Routine) : List Line :=
  let digits := r.place "digits"
  let done := r.place "int_done"
  [.li .t0 0, .li .t1 0, .lb .t2 0 .a0, .li .t3 (charCode '-'), .bne .t2 .t3 digits,
    .li .t1 1, .addi .a0 .a0 1,
    .label digits, .lb .t2 0 .a0,
    .li .t3 (charCode '0'), .blt .t2 .t3 done, .li .t3 (charCode '9'), .bgt .t2 .t3 done,
    .addi .t2 .t2 (-48), .li .t3 10, .mul .t0 .t0 .t3, .add .t0 .t0 .t2, .addi .a0 .a0 1, .j digits,
    .label done]

def parseIntBody : List Line :=
  let done := parseInt.place "done"
  List.flatten [readDigits parseInt, [.beqz .t1 done, .neg .t0 .t0, .label done, .mv .a0 .t0]]

def parseFloatBody : List Line :=
  let fraction := parseFloat.place "fraction"
  let sign := parseFloat.place "sign"
  let done := parseFloat.place "done"
  List.flatten [readDigits parseFloat,
    [.floatOfInt .ft0 .t0, .lb .t2 0 .a0, .li .t3 (charCode '.'), .bne .t2 .t3 sign,
      .addi .a0 .a0 1, .li .t3 10, .floatOfInt .ft2 .t3, .li .t3 1, .floatOfInt .ft1 .t3,
      .comment "ft1 is the place value of the next digit",
      .label fraction, .lb .t2 0 .a0,
      .li .t3 (charCode '0'), .blt .t2 .t3 sign, .li .t3 (charCode '9'), .bgt .t2 .t3 sign,
      .addi .t2 .t2 (-48), .fdiv .ft1 .ft1 .ft2, .floatOfInt .ft3 .t2, .fmul .ft3 .ft3 .ft1,
      .fadd .ft0 .ft0 .ft3, .addi .a0 .a0 1, .j fraction,
      .label sign, .beqz .t1 done, .fneg .ft0 .ft0, .label done, .bitsOfFloat .a0 .ft0]]

end Arbor.Assembly.Routine
