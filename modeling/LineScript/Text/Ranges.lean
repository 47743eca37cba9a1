/-
# Sets of code points

A character class of the language is a table of ascending closed intervals of code points. The
classes themselves live in the modules beside this one; here is only how a table is read.
-/

namespace LineScript.Text

/-- A set of code points, written as ascending, pairwise disjoint closed intervals. -/
abbrev Ranges := List (Nat × Nat)

namespace Ranges

/-- Whether a code point lies in one of the intervals. The search stops at the first interval
that begins after the code point, which is right because the intervals ascend. -/
def contains : Ranges → Nat → Bool
  | [], _ => false
  | (low, high) :: rest, point =>
    if point < low then false else if point ≤ high then true else contains rest point

/-- Every interval is nonempty and ends before the next one begins. -/
def ascending : Ranges → Bool
  | [] => true
  | [(low, high)] => decide (low ≤ high)
  | (low, high) :: (next, top) :: rest =>
    decide (low ≤ high) && decide (high < next) && ascending ((next, top) :: rest)

end Ranges

end LineScript.Text
