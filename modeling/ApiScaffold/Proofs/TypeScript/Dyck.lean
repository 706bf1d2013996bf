import ApiScaffold.Proofs.TypeScript.Pairs

/-!
# Balanced texts and Dyck words

* `Dyck` is the Dyck language over the round, the square and the curly brackets, by its grammar;
* `bracketWord` is the word of the brackets of a text;
* `balanced_iff_dyck`: a text is balanced if its brackets form a word of the language;
* `balanceProblems_eq_nil_iff`: these are, literals and comments without an end apart, the source
  texts that the check accepts.

The check goes on behind a closing bracket that it does not expect, without a change of its stack.
It has reported the bracket by then, so that nothing it does afterwards can make the text pass.
-/

namespace ApiScaffold.TypeScript

/-! ### The language -/

/-- The kinds of brackets. -/
inductive BracketKind where
  | round
  | square
  | curly
  deriving DecidableEq, Repr

namespace BracketKind

/-- The bracket that opens. -/
def opener : BracketKind → Char
  | round => '('
  | square => '['
  | curly => '\x7b'

/-- The bracket that closes. -/
def closer : BracketKind → Char
  | round => ')'
  | square => ']'
  | curly => '\x7d'

end BracketKind

/-- The Dyck language: the empty word, two words one after the other, and a word between two
brackets of one kind. -/
inductive Dyck : List Char → Prop
  | nil : Dyck []
  | append {v w : List Char} (hv : Dyck v) (hw : Dyck w) : Dyck (v ++ w)
  | enclose {w : List Char} (k : BracketKind) (hw : Dyck w) : Dyck (k.opener :: (w ++ [k.closer]))

/-- The brackets of a text, in the order of the text. -/
def bracketWord (m : List Char) : List Char :=
  m.filter fun c => c ∈ ['(', ')', '[', ']', '\x7b', '\x7d']

/-! ### Brackets by their kinds -/

section Kinds

variable {o c : Char}

theorem closerOf?_eq_some_iff_exists :
    closerOf? o = some c ↔ ∃ k : BracketKind, o = k.opener ∧ c = k.closer := by
  rw [closerOf?_eq_some_iff]
  constructor
  · rintro (h | h | h)
    · exact ⟨.round, h⟩
    · exact ⟨.square, h⟩
    · exact ⟨.curly, h⟩
  · rintro ⟨k, h⟩
    cases k with
    | round => exact Or.inl h
    | square => exact Or.inr (Or.inl h)
    | curly => exact Or.inr (Or.inr h)

theorem BracketKind.closerOf?_opener (k : BracketKind) : closerOf? k.opener = some k.closer :=
  closerOf?_eq_some_iff_exists.2 ⟨k, rfl, rfl⟩

end Kinds

/-! ### The word of a text -/

section Word

variable {c : Char} {m : List Char}

theorem bracketWord_eq_filter (m : List Char) : bracketWord m = m.filter isBracket := by
  refine List.filter_congr fun c _ => ?_
  rw [Bool.eq_iff_iff, decide_eq_true_iff, isBracket_iff_mem]

theorem bracketWord_append (m n : List Char) :
    bracketWord (m ++ n) = bracketWord m ++ bracketWord n := List.filter_append ..

theorem bracketWord_cons_bracket (hc : isBracket c = true) (m : List Char) :
    bracketWord (c :: m) = c :: bracketWord m := by
  rw [bracketWord_eq_filter, bracketWord_eq_filter, List.filter_cons_of_pos hc]

theorem bracketWord_cons_plain (hc : isBracket c = false) (m : List Char) :
    bracketWord (c :: m) = bracketWord m := by
  rw [bracketWord_eq_filter, bracketWord_eq_filter, List.filter_cons_of_neg (by simp [hc])]

end Word

/-! ### Balanced texts -/

section Balanced

variable {m w : List Char}

/-- A word of the language leaves the stack of open brackets as it was. -/
theorem Dyck.brackets_eq (h : Dyck w) (os : List Char) : brackets os w = some os := by
  induction h generalizing os with
  | nil => rfl
  | append _ _ ihv ihw => rw [brackets_append, ihv, Option.bind_some, ihw]
  | enclose k _ ih =>
    obtain ⟨hc, hcloser⟩ := closerOf?_closer k.closerOf?_opener
    rw [brackets_opener k.closerOf?_opener, brackets_append, ih, Option.bind_some,
      brackets_closer hcloser hc, popBracket, if_pos k.closerOf?_opener]
    rfl

theorem Balanced.dyck (h : Balanced m) : Dyck (bracketWord m) := by
  induction h with
  | nil => exact .nil
  | plain hc _ ih => rwa [bracketWord_cons_plain hc]
  | @pair o c m r ho _ _ ihm ihr =>
    obtain ⟨k, rfl, rfl⟩ := closerOf?_eq_some_iff_exists.1 ho
    have hword : bracketWord (k.opener :: (m ++ k.closer :: r)) =
        (k.opener :: (bracketWord m ++ [k.closer])) ++ bracketWord r := by
      rw [bracketWord_cons_bracket (isBracket_opener ho), bracketWord_append,
        bracketWord_cons_bracket (isBracket_closer ho)]
      simp
    rw [hword]
    exact (Dyck.enclose k ihm).append ihr

/-- **A text is balanced if its brackets form a Dyck word.** -/
theorem balanced_iff_dyck : Balanced m ↔ Dyck (bracketWord m) := by
  refine ⟨Balanced.dyck, fun h => balanced_filter_iff.1 ?_⟩
  rw [← bracketWord_eq_filter]
  exact balanced_of_brackets (h.brackets_eq [])

end Balanced

/-- **The check accepts a source text exactly if** no comment or literal in it is without an end,
and the brackets of its mask form a Dyck word. -/
theorem balanceProblems_eq_nil_iff (source : List Char) :
    balanceProblems source = [] ↔
      literalProblems source = [] ∧ Dyck (bracketWord (mask source)) := by
  rw [balanceProblems, List.append_eq_nil_iff, ← balanced_iff, balanced_iff_dyck]

end ApiScaffold.TypeScript
