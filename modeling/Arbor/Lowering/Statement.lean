import Arbor.Lowering.Control
import Arbor.Lowering.Declaration
import Arbor.Lowering.Print

/-!
This module contains the lowering of statements. The code of a statement leaves the stack as it was, but for the
variable of a declaration.
-/

namespace Arbor

def SwitchCase.value : SwitchCase → Expr
  | .mk _ value _ => value

end Arbor

namespace Arbor.Lowering

mutual

def lowerStmt (limit : Nat) : Stmt → Lower Unit
  | .varDecl span ty name init => lowerVarDecl span ty name init
  | .arrayDecl span elem dims name init => lowerArrayDecl limit span elem dims name init
  | .funcDecl span _ name _ _ =>
    fail span (.unsupported s!"function '{name}': user-defined functions run only in the evaluator")
  | .expr span e => do
    let _ ← lowerExpr e
    discard span
  | .print span args => lowerPrint span args
  | .block _ body => inScope (lowerStmts limit body)
  | .conditional _ c t f =>
    lowerIf c (asBody t.isBlock (lowerStmt limit t))
      (match f with
        | none => none
        | some f => some (asBody f.isBlock (lowerStmt limit f)))
  | .whileLoop _ c body => lowerWhile c (asBody body.isBlock (lowerStmt limit body))
  | .forLoop _ init c update body =>
    lowerFor
      (match init with
        | none => none
        | some init => some (lowerStmt limit init))
      c update (asBody body.isBlock (lowerStmt limit body))
  | .forEach span elem name iterable body =>
    lowerForEach span elem name iterable (asBody body.isBlock (lowerStmt limit body))
  | .switch _ subject cases default =>
    lowerSwitch subject (cases.map SwitchCase.value) (lowerCases limit cases)
      (match default with
        | none => none
        | some body => some (inScope (lowerStmts limit body)))
  | .breakStmt span => lowerBreak span
  | .continueStmt span => lowerContinue span
  | .returnStmt span _ =>
    fail span (.unsupported "return: user-defined functions run only in the evaluator")

def lowerStmts (limit : Nat) : List Stmt → Lower Unit
  | [] => return ()
  | s :: rest => do
    lowerStmt limit s
    lowerStmts limit rest

def lowerCases (limit : Nat) : List SwitchCase → List Body
  | [] => []
  | .mk _ _ body :: rest => inScope (lowerStmts limit body) :: lowerCases limit rest

end

end Arbor.Lowering
