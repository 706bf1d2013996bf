import ApiScaffold.Text.Blank
import Mathlib.Tactic

/-!
# Line ends in files

A file is read with its line ends normalized: a carriage return, alone or before a line feed, is
read as a line feed.

* `readUnits` are the pieces of a file that are read as one character each, and `readAs` is what
  they are read as;
* `textBytes` are the bytes of a text;
* `readAs_bytes`: a piece is read as it stands if and only if it has no carriage return.
-/

namespace ApiScaffold.Text

/-- The pieces of a text that are read as one character each: two for a carriage return before a
line feed, one otherwise. -/
def readUnits : List Char → List (List Char)
  | [] => []
  | '\r' :: '\n' :: cs => ['\r', '\n'] :: readUnits cs
  | c :: cs => [c] :: readUnits cs

/-- What a piece is read as. -/
def readAs (u : List Char) : List Char := if '\r' ∈ u then ['\n'] else u

/-- The bytes of a text. -/
def textBytes (cs : List Char) : List UInt8 := cs.flatMap String.utf8EncodeChar

theorem toUTF8_ofList (cs : List Char) : (String.ofList cs).toUTF8.data.toList = textBytes cs := by
  simp [textBytes, List.utf8Encode]

/-- The pieces make up the text. -/
theorem flatten_readUnits (cs : List Char) : (readUnits cs).flatten = cs := by
  fun_induction readUnits cs with
  | case1 => rfl
  | case2 cs ih => simp [ih]
  | case3 c cs _ ih => simp [ih]

/-- **The text that is read** is read piece by piece. -/
theorem map_normalizeLineEnds (cs : List Char) :
    (normalizeLineEnds cs).map ([·]) = (readUnits cs).map readAs := by
  fun_induction readUnits cs with
  | case1 => rfl
  | case2 cs ih => simp [normalizeLineEnds, readAs, ih]
  | case3 c cs hne ih =>
    rw [normalizeLineEnds]
    · rw [List.map_cons, List.map_cons, ih]
      by_cases hc : c = '\r'
      · simp [hc, readAs]
      · simp [hc, readAs, Ne.symm hc]
    · exact hne

/-- A piece is a character, or a carriage return before a line feed. -/
theorem unit_of_mem_readUnits {cs u : List Char} (h : u ∈ readUnits cs) :
    u = ['\r', '\n'] ∨ ∃ c, u = [c] := by
  fun_induction readUnits cs with
  | case1 => cases h
  | case2 cs ih =>
    rcases List.mem_cons.1 h with rfl | h
    · exact .inl rfl
    · exact ih h
  | case3 c cs _ ih =>
    rcases List.mem_cons.1 h with rfl | h
    · exact .inr ⟨c, rfl⟩
    · exact ih h

/-- What is read of a piece has no more bytes, and it has the same bytes exactly if the piece has no
carriage return. -/
theorem readAs_bytes {cs u : List Char} (h : u ∈ readUnits cs) :
    (textBytes (readAs u)).length ≤ (textBytes u).length ∧
      (textBytes (readAs u) = textBytes u ↔ '\r' ∉ u) := by
  rcases unit_of_mem_readUnits h with rfl | ⟨c, rfl⟩
  · decide
  · by_cases hc : c = '\r'
    · subst hc
      decide
    · have hread : readAs [c] = [c] := if_neg (by simpa using Ne.symm hc)
      rw [hread]
      exact ⟨le_rfl, by simpa using Ne.symm hc⟩

end ApiScaffold.Text
