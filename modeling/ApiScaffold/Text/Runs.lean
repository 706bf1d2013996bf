/-!
# Sets of code points as runs

A set of numbers is given by the ascending list of the points at which membership changes: the first
point begins the first run, the second ends it, and so on.
-/

namespace ApiScaffold.Text

/-- Whether `n` lies in the set whose membership changes at the given ascending points. -/
def inRuns : List Nat → Nat → Bool
  | [], _ => false
  | b :: bs, n => if n < b then false else !inRuns bs n

end ApiScaffold.Text
