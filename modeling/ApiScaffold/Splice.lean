/-!
# Splicing text

An edit replaces the characters between two offsets of a text.  All offsets of a list of edits refer
to the text as it was before any of them.

`Splice.apply` applies edits from the back of the text to its front, so that an edit does not move
the places of those still to come.  A negative offset counts from the end, and offsets outside the
text are moved to its ends.
-/

namespace ApiScaffold.Splice

/-- A replacement of the characters between two offsets. -/
structure Edit where
  start : Int
  stop : Int
  text : List Char
  deriving DecidableEq, Repr

/-- The offset in a text of the given length that an integer means. -/
def offset (size : Nat) (i : Int) : Nat :=
  if i < 0 then (size + i).toNat else min i.toNat size

theorem offset_le (size : Nat) (i : Int) : offset size i ≤ size := by
  unfold offset
  split <;> omega

/-- An offset inside the text means itself. -/
theorem offset_natCast {size n : Nat} (h : n ≤ size) : offset size n = n := by
  rw [offset, if_neg (by omega)]
  omega

/-- Applies one edit: the text up to its start, its replacement, and the text from its end on. -/
def applyOne (cs : List Char) (e : Edit) : List Char :=
  cs.take (offset cs.length e.start) ++ e.text ++ cs.drop (offset cs.length e.stop)

/-- Whether an edit comes no earlier in the text than another. -/
def notBefore (a b : Edit) : Bool :=
  b.start < a.start || (b.start == a.start && b.stop ≤ a.stop)

/-- The edits from the back of the text to its front; those of one place stay in their order. -/
def backToFront (edits : List Edit) : List Edit := edits.mergeSort notBefore

/-- Ordering edits neither loses nor repeats any. -/
theorem backToFront_perm (es : List Edit) : (backToFront es).Perm es :=
  List.mergeSort_perm es notBefore

/-- Applies edits whose offsets all refer to the given text. -/
def apply (cs : List Char) (edits : List Edit) : List Char := (backToFront edits).foldl applyOne cs

@[simp] theorem apply_nil (cs : List Char) : apply cs [] = cs := by simp [apply, backToFront]

end ApiScaffold.Splice
