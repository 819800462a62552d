import Arbor.Assembly.Assembler
import Arbor.Assembly.Routine.Strings
import Arbor.Assembly.Routine.Numbers
import Arbor.Assembly.Routine.Guards
import Arbor.Assembly.Routine.Arrays

/-!
This module contains the routines of the runtime by name, and the set of those that a program uses.
-/

namespace Arbor.Assembly

namespace Routine

def requirements : Routine → List Routine
  | arrayIndexOf => [strEquals]
  | arrayJoin => [concatString, intToString, floatToString, boolToString, charToString]
  | _ => []

def body : Routine → List Line
  | concatString => concatStringBody
  | strEquals => strEqualsBody
  | toUpperCase => toUpperCaseBody
  | toLowerCase => toLowerCaseBody
  | intToString => intToStringBody
  | floatToString => floatToStringBody
  | boolToString => boolToStringBody
  | charToString => charToStringBody
  | parseInt => parseIntBody
  | parseFloat => parseFloatBody
  | checkDivZero => checkDivZeroBody
  | checkBounds => checkBoundsBody
  | printArray => printArrayBody
  | arrayIndexOf => arrayIndexOfBody
  | arrayJoin => arrayJoinBody

def lines (r : Routine) : List Line :=
  .label r.label :: r.body ++ [.ret]

def write (a : Assembler) (r : Routine) : Assembler :=
  a.write r.lines

/--
What a routine requires requires nothing itself.
-/
theorem requirements_of_mem_requirements {r s : Routine} (h : s ∈ r.requirements) :
    s.requirements = [] := by
  cases r <;> simp [requirements] at h
  · subst h; rfl
  · rcases h with h | h | h | h | h <;> subst h <;> rfl

end Routine

/--
The routines that a program uses, in the order they were first requested in.
-/
structure RoutineSet where
  used : List Routine
  deriving Repr, DecidableEq

namespace RoutineSet

def empty : RoutineSet := ⟨[]⟩

def contains (s : RoutineSet) (r : Routine) : Bool :=
  s.used.contains r

def insert (s : RoutineSet) (r : Routine) : RoutineSet :=
  if s.contains r then s else ⟨s.used ++ [r]⟩

/--
Request a routine. With a routine that was not used so far come the ones it calls; those call no others.
-/
def request (s : RoutineSet) (r : Routine) : RoutineSet :=
  if s.contains r then s else r.requirements.foldl insert (s.insert r)

def materialize (s : RoutineSet) (comments : Bool) : List Line :=
  (s.used.foldl Routine.write (.start comments)).lines.toList

end RoutineSet

end Arbor.Assembly
