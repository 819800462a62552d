import Arbor.Assembly.Routine

/-!
This module contains complete assembly files.
-/

namespace Arbor.Assembly

structure File where
  data : DataSection
  main : List Line
  runtime : List Line
  used : List Routine
  deriving Repr, DecidableEq

namespace File

def linesText (lines : List Line) : String :=
  String.join (lines.map fun l => l.text ++ "\n")

def entry : List Line :=
  [.label (.named "main"), .la .hp (.named "heap")]

def exit : List Line :=
  syscall 10

def text (f : File) : String :=
  f.data.text ++ "\n\n.text\n.globl main\n" ++ linesText (entry ++ f.main ++ exit ++ f.runtime)

end File

end Arbor.Assembly
