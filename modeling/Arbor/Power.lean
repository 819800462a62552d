/-!
This module contains the choice of one power of numbers for all modules, that of the core library.

Mathlib brings the power of a monoid and prefers it. Without the choice `2 ^ 32` would be the one or the other by what a
module imports.
-/

namespace Arbor

attribute [instance (high)] instPowNat

-- The type of an exponent that is a numeral is only known by default.
attribute [default_instance 10100] instPowNat

end Arbor
