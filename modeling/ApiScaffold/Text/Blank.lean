/-!
# Blanks

A blank is a character that separates words: the space and the line, page and field separators of
ASCII, the next-line character and the Unicode space and line separators.

* `trim` removes blanks from both ends;
* `splitWhere` cuts a text at every character of a class, `words` at the blanks;
* `intercalate_splitOn` puts the pieces together again, and `dropLeading?_eq_some_iff` says when a
  text begins with another.
-/

namespace ApiScaffold.Text

/-- The characters that separate words. -/
def isBlank (c : Char) : Bool :=
  let n := c.toNat
  (9 ≤ n && n ≤ 13) || (28 ≤ n && n ≤ 32) || n == 0x85 || n == 0xA0 || n == 0x1680 ||
    (0x2000 ≤ n && n ≤ 0x200A) || n == 0x2028 || n == 0x2029 || n == 0x202F || n == 0x205F ||
    n == 0x3000

/-- The text without its leading blanks. -/
def trimLeft (cs : List Char) : List Char := cs.dropWhile isBlank

/-- The text without the longest suffix whose characters all satisfy `p`. -/
def dropSuffixWhile (p : Char → Bool) (cs : List Char) : List Char :=
  (cs.reverse.dropWhile p).reverse

/-- The longest suffix whose characters all satisfy `p`. -/
def takeSuffixWhile (p : Char → Bool) (cs : List Char) : List Char :=
  (cs.reverse.takeWhile p).reverse

/-- A text is what precedes its longest suffix of a class, and that suffix. -/
theorem dropSuffixWhile_append_takeSuffixWhile (p : Char → Bool) (cs : List Char) :
    dropSuffixWhile p cs ++ takeSuffixWhile p cs = cs := by
  simp [dropSuffixWhile, takeSuffixWhile, ← List.reverse_append]

/-- The longest suffix of a class holds characters of the class only. -/
theorem all_takeSuffixWhile (p : Char → Bool) (cs : List Char) :
    (takeSuffixWhile p cs).all p = true := by
  simp [takeSuffixWhile, List.all_takeWhile]

/-- The text without its trailing blanks. -/
def trimRight (cs : List Char) : List Char := dropSuffixWhile isBlank cs

/-- The text without blanks at either end. -/
def trim (cs : List Char) : List Char := trimRight (trimLeft cs)

/-- The pieces of a text between the characters that satisfy `p`; there is one more piece than
separators. -/
def splitWhere (p : Char → Bool) : List Char → List (List Char)
  | [] => [[]]
  | c :: cs =>
    if p c then [] :: splitWhere p cs
    else
      match splitWhere p cs with
      | [] => [[c]]
      | w :: ws => (c :: w) :: ws

/-- There is always a piece. -/
theorem splitWhere_ne_nil (p : Char → Bool) (cs : List Char) : splitWhere p cs ≠ [] := by
  cases cs with
  | nil => simp [splitWhere]
  | cons c cs =>
    simp only [splitWhere]
    split
    · simp
    · split <;> simp

/-- The pieces of a text between the occurrences of `sep`. -/
def splitOn (sep : Char) (cs : List Char) : List (List Char) := splitWhere (· == sep) cs

/-- The pieces with the separator between them are the text again. -/
theorem intercalate_splitOn (sep : Char) (cs : List Char) :
    [sep].intercalate (splitOn sep cs) = cs := by
  induction cs with
  | nil => rfl
  | cons c cs ih =>
    rw [splitOn] at ih ⊢
    rw [splitWhere]
    cases hs : splitWhere (· == sep) cs with
    | nil => exact absurd hs (splitWhere_ne_nil _ cs)
    | cons w ws =>
      rw [hs] at ih
      by_cases hc : c = sep
      · simp [hc, List.intercalate, ← ih]
      · cases ws <;> simp [hc, List.intercalate, ← ih]

/-- The non-empty pieces of a text between blanks. -/
def words (cs : List Char) : List (List Char) := (splitWhere isBlank cs).filter (· ≠ [])

/-- Joins pieces with a separator between them. -/
def joinWith (sep : List Char) (pieces : List (List Char)) : List Char :=
  sep.intercalate pieces

/-- The text with every carriage return, alone or before a line feed, read as a line feed. -/
def normalizeLineEnds : List Char → List Char
  | [] => []
  | '\r' :: '\n' :: cs => '\n' :: normalizeLineEnds cs
  | c :: cs => (if c = '\r' then '\n' else c) :: normalizeLineEnds cs

/-- A text with normalized line ends holds no carriage return. -/
theorem notMem_normalizeLineEnds (cs : List Char) : '\r' ∉ normalizeLineEnds cs := by
  fun_induction normalizeLineEnds cs with
  | case1 => simp
  | case2 cs ih => simp [ih]
  | case3 c cs _ ih => by_cases h : c = '\r' <;> simp [h, ih, eq_comm]

/-- A text without carriage returns is left alone. -/
theorem normalizeLineEnds_of_notMem {cs : List Char} (h : '\r' ∉ cs) :
    normalizeLineEnds cs = cs := by
  fun_induction normalizeLineEnds cs with
  | case1 => rfl
  | case2 cs ih => simp at h
  | case3 c cs _ ih =>
    rw [List.mem_cons, not_or] at h
    rw [ih h.2, if_neg (Ne.symm h.1)]

/-- Whether `sub` begins at the front of the text; if so, what follows it. -/
def dropLeading? : List Char → List Char → Option (List Char)
  | [], cs => some cs
  | _ :: _, [] => none
  | p :: ps, c :: cs => if p = c then dropLeading? ps cs else none

/-- A text with a leading text dropped is that leading text followed by the rest. -/
theorem dropLeading?_eq_some_iff {sub cs rest : List Char} :
    dropLeading? sub cs = some rest ↔ cs = sub ++ rest := by
  induction sub generalizing cs with
  | nil => simp [dropLeading?, eq_comm]
  | cons p ps ih =>
    cases cs with
    | nil => simp [dropLeading?]
    | cons c cs =>
      by_cases h : p = c
      · simp [dropLeading?, h, ih]
      · simp [dropLeading?, h, Ne.symm h]

/-- Replaces the occurrences of `old`, found from left to right, by `new`.
`skip` counts the characters of an occurrence that are still to be passed over. -/
def replaceFrom (old new : List Char) : Nat → List Char → List Char
  | _, [] => []
  | skip + 1, _ :: cs => replaceFrom old new skip cs
  | 0, c :: cs =>
    if (dropLeading? old (c :: cs)).isSome then new ++ replaceFrom old new (old.length - 1) cs
    else c :: replaceFrom old new 0 cs

/-- Replaces every occurrence of the non-empty text `old`, found from left to right, by `new`. -/
def replaceAll (old new cs : List Char) : List Char := replaceFrom old new 0 cs

end ApiScaffold.Text
