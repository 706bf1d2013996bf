import ApiScaffold.Proofs.TypeScript.Pairs
import ApiScaffold.TypeScript.ClassBody

/-!
# Outlines of balanced texts

Brackets are passed over as a whole, so only the characters outside them decide where a member ends.

* `Outside` says something of each of these characters and the text in front of it, and
  `exists_first` finds the first of which it does not hold;
* `EndsOutline` are those at which the outline of a member ends, `EndsTail` those at which what
  follows the parameters of a method does;
* `Balanced.outlineFrom_append`, `Balanced.methodTail_append`: a balanced text without one is passed
  over.
-/

namespace ApiScaffold.TypeScript

/-! ### Characters outside brackets -/

/-- Each character outside the brackets of a text, opening brackets among them, stands in a relation
to the text in front of it. -/
def Outside (P : List Char → Char → Prop) (m : List Char) : Prop :=
  ∀ u c v, m = u ++ c :: v → Balanced u → P u c

/-- A character that a text does not hold stands behind it. -/
theorem exists_append_of_notMem {α : Type} {c : α} {x y u v : List α} (hc : c ∉ x)
    (h : x ++ y = u ++ c :: v) : ∃ u', u = x ++ u' ∧ y = u' ++ c :: v := by
  rcases List.append_eq_append_iff.1 h with ⟨as, rfl, has⟩ | ⟨bs, rfl, hbs⟩
  · exact ⟨as, rfl, has⟩
  · cases bs with
    | nil => exact ⟨[], by simp, by simpa using hbs.symm⟩
    | cons b bs => exact absurd (by simp [(List.cons.inj hbs).1]) hc

/-- A text falls apart in one way only at the first occurrence of a character. -/
theorem append_cons_inj_of_notMem {α : Type} {c : α} {x y u v : List α} (hx : c ∉ x) (hu : c ∉ u)
    (h : x ++ c :: y = u ++ c :: v) : x = u ∧ y = v := by
  obtain ⟨u', rfl, hy⟩ := exists_append_of_notMem hx h
  cases u' with
  | nil => exact ⟨by simp, (List.cons.inj hy).2⟩
  | cons d u' =>
    obtain ⟨rfl, -⟩ := List.cons.inj hy
    exact absurd (by simp) hu

section Outer

variable {P Q : List Char → Char → Prop} {o c : Char} {i m r : List Char}

theorem outside_iff :
    Outside P m ↔ ∀ n (h : n < m.length), Balanced (m.take n) → P (m.take n) m[n] := by
  constructor
  · intro h n hn
    refine h _ _ (m.drop (n + 1)) ?_
    rw [← List.drop_eq_getElem_cons hn, List.take_append_drop]
  · rintro h u c v rfl hu
    simpa [hu] using h u.length (by simp)

instance instDecidableBalanced (m : List Char) : Decidable (Balanced m) :=
  decidable_of_iff (bracketProblems [] 1 m = []) balanced_iff.symm

instance instDecidableOutside [∀ u c, Decidable (P u c)] (m : List Char) :
    Decidable (Outside P m) :=
  decidable_of_iff _ outside_iff.symm

theorem Outside.imp (h : Outside P m) (hPQ : ∀ u c, P u c → Q u c) : Outside Q m :=
  fun u c v hm hu => hPQ u c (h u c v hm hu)

theorem Outside.head (h : Outside P (c :: m)) : P [] c := h [] c m rfl .nil

theorem Outside.plain (hc : isBracket c = false) (h : Outside P (c :: m)) :
    Outside (fun u => P (c :: u)) m :=
  fun u d v hm hu => h (c :: u) d v (by rw [hm]; rfl) (.plain hc hu)

theorem Outside.pair (ho : closerOf? o = some c) (hi : Balanced i)
    (h : Outside P (o :: (i ++ c :: r))) : Outside (fun u => P (o :: (i ++ c :: u))) r :=
  fun u d v hr hu => h (o :: (i ++ c :: u)) d v (by rw [hr]; simp) (.pair ho hi hu)

/-- If something does not hold of all characters outside brackets, there is a first of which it does
not. -/
theorem exists_first (h : ¬Outside P m) :
    ∃ u c v, m = u ++ c :: v ∧ Balanced u ∧ Outside P u ∧ ¬P u c := by
  induction hn : m.length using Nat.strong_induction_on generalizing m with
  | _ size ih =>
    have hsome : ∃ u c v, m = u ++ c :: v ∧ Balanced u ∧ ¬P u c := by
      unfold Outside at h
      push Not at h
      exact h
    obtain ⟨u, c, v, rfl, hu, hc⟩ := hsome
    by_cases hfirst : Outside P u
    · exact ⟨u, c, v, rfl, hu, hfirst, hc⟩
    · rw [List.length_append, List.length_cons] at hn
      obtain ⟨u', c', v', rfl, hu', hfirst', hc'⟩ := ih u.length (by omega) hfirst rfl
      exact ⟨u', c', v' ++ c :: v, by simp, hu', hfirst', hc'⟩

end Outer

/-! ### Passing over brackets -/

section Passing

variable {o c : Char} {i : List Char}

/-- A pair of brackets at the front of a text, with what follows the text. -/
theorem pair_append (o c : Char) (i r tail : List Char) :
    (o :: (i ++ c :: r)) ++ tail = o :: (i ++ c :: (r ++ tail)) := by
  simp

theorem length_pair (o c : Char) (i r : List Char) :
    (o :: (i ++ c :: r)).length = i.length + 2 + r.length := by
  simp only [List.length_cons, List.length_append]
  omega

theorem drop_pair (o c : Char) (i r : List Char) (n : ℕ) :
    (o :: (i ++ c :: r)).drop (i.length + 2 + n) = r.drop n := by
  rw [show i.length + 2 + n = (i ++ [c]).length + n + 1 by simp; omega, List.drop_succ_cons,
    List.append_cons i c r, List.drop_length_add_append]

theorem methodTail_skip (xs : List Char) (room : ℕ) (r : List Char) :
    methodTail xs.length (xs.length + room) (xs ++ r) = methodTail 0 room r + xs.length := by
  induction xs with
  | nil => simp
  | cons x xs ih =>
    rw [List.length_cons, show xs.length + 1 + room = (xs.length + room) + 1 by omega,
      List.cons_append, methodTail, ih]
    omega

theorem outlineFrom_skip (xs taken : List Char) (room : ℕ) (r : List Char) :
    outlineFrom taken xs.length (xs.length + room) (xs ++ r) =
      outlineFrom (xs.reverse ++ taken) 0 room r := by
  induction xs generalizing taken with
  | nil => simp
  | cons x xs ih =>
    rw [List.length_cons, show xs.length + 1 + room = (xs.length + room) + 1 by omega,
      List.cons_append, outlineFrom, ih, List.reverse_cons, List.append_assoc]
    rfl

/-- The tail of a method passes over a pair of brackets that are no braces. -/
theorem methodTail_pair (ho : closerOf? o = some c) (hbrace : o ≠ '\x7b') (hi : Balanced i)
    (room : ℕ) (r : List Char) :
    methodTail 0 (i.length + 2 + room) (o :: (i ++ c :: r)) =
      methodTail 0 room r + (i.length + 2) := by
  have hround : o = '(' ∨ o = '[' := by
    rcases closerOf?_eq_some_iff.1 ho with h | h | h
    · exact Or.inl h.1
    · exact Or.inr h.1
    · exact absurd h.1 hbrace
  have hsemi : o ≠ ';' := fun heq => by rw [heq] at ho; cases ho
  have hskip := methodTail_skip (i ++ [c]) room r
  rw [List.append_assoc, List.singleton_append, List.length_append, List.length_singleton] at hskip
  rw [show i.length + 2 + room = i.length + 1 + room + 1 by omega, methodTail, if_neg hbrace,
    if_neg hsemi, if_pos hround, hi.closingOffset?_eq ho]
  dsimp only
  rw [hskip]
  rfl

/-- The tail of a method ends behind a pair of braces. -/
theorem methodTail_braces (hi : Balanced i) (room : ℕ) (r : List Char) :
    methodTail 0 (i.length + 2 + room) ('\x7b' :: (i ++ '\x7d' :: r)) = i.length + 2 := by
  rw [show i.length + 2 + room = i.length + 1 + room + 1 by omega, methodTail, if_pos rfl,
    hi.closingOffset?_eq rfl]
  dsimp only
  omega

/-- The outline of a member passes over a pair of brackets, if these are not the parentheses of a
method. -/
theorem outlineFrom_pair (ho : closerOf? o = some c) (hi : Balanced i) {taken : List Char}
    (hround : o = '(' → '=' ∈ taken) (room : ℕ) (r : List Char) :
    outlineFrom taken 0 (i.length + 2 + room) (o :: (i ++ c :: r)) =
      outlineFrom ((o :: (i ++ [c])).reverse ++ taken) 0 room r := by
  have hskip := outlineFrom_skip (i ++ [c]) (o :: taken) room r
  rw [List.append_assoc, List.singleton_append, List.length_append, List.length_singleton] at hskip
  rw [show i.length + 2 + room = i.length + 1 + room + 1 by omega, outlineFrom,
    hi.closingOffset?_eq ho]
  dsimp only
  by_cases hparen : o = '('
  · rw [if_pos hparen, if_pos (List.contains_iff_mem.2 (hround hparen)), hskip]
    simp
  · have hopen : o = '\x7b' ∨ o = '[' := by
      rcases closerOf?_eq_some_iff.1 ho with h | h | h
      · exact absurd h.1 hparen
      · exact Or.inr h.1
      · exact Or.inl h.1
    rw [if_neg hparen, if_pos hopen, hskip]
    simp

/-- Parentheses behind a header without an equals sign are those of a method. -/
theorem outlineFrom_params (hi : Balanced i) {taken : List Char} (hequals : '=' ∉ taken) (room : ℕ)
    (r : List Char) :
    outlineFrom taken 0 (i.length + 2 + room) ('(' :: (i ++ ')' :: r)) =
      ⟨nameOf taken.reverse, .method,
        taken.length + (methodTail 0 room r + (i.length + 2))⟩ := by
  have hskip := methodTail_skip (i ++ [')']) room r
  rw [List.append_assoc, List.singleton_append, List.length_append, List.length_singleton] at hskip
  rw [show i.length + 2 + room = i.length + 1 + room + 1 by omega, outlineFrom, if_pos rfl,
    hi.closingOffset?_eq rfl]
  dsimp only
  rw [if_neg fun hmem => hequals (List.contains_iff_mem.1 hmem), hskip]
  rfl

end Passing

/-! ### Where a member ends -/

/-- The outline of a member, whose text so far is given, ends at a character outside brackets: at
the parenthesis of a method, at a semicolon, or at the end of a line that cannot go on. -/
def EndsOutline (u : List Char) (c : Char) : Prop :=
  (c = '(' ∧ '=' ∉ u) ∨ c = ';' ∨ (c = '\n' ∧ endsProperty u = true)

instance instDecidableEndsOutline (u : List Char) (c : Char) : Decidable (EndsOutline u c) :=
  inferInstanceAs (Decidable (_ ∨ _ ∨ _))

/-- What follows the parameters of a method ends at such a character outside brackets. -/
def EndsTail (c : Char) : Prop := c = '\x7b' ∨ c = ';'

instance instDecidableEndsTail (c : Char) : Decidable (EndsTail c) :=
  inferInstanceAs (Decidable (_ ∨ _))

section Ends

variable {c : Char} {m taken : List Char}

/-- Only blanks behind the last other character are trimmed. -/
theorem trimRight_append_cons (w u : List Char) (hc : Text.isBlank c = false) :
    Text.trimRight (w ++ c :: u) = w ++ c :: Text.trimRight u := by
  simp only [Text.trimRight, Text.dropSuffixWhile, List.reverse_append, List.reverse_cons,
    List.append_assoc, List.singleton_append, List.dropWhile_append, List.dropWhile_cons, hc]
  split
  · next hnil => simp [List.isEmpty_iff.1 hnil]
  · simp

theorem trimRight_append (u : List Char) {gap : List Char} (hc : Text.isBlank c = false)
    (hgap : ∀ d ∈ gap, Text.isBlank d = true) : Text.trimRight (u ++ c :: gap) = u ++ [c] := by
  have hnil : Text.trimRight gap = [] := by
    rw [Text.trimRight, Text.dropSuffixWhile, ← List.append_nil gap.reverse,
      List.dropWhile_append_of_pos (by simpa using hgap)]
    rfl
  rw [trimRight_append_cons u gap hc, hnil]

/-- Whether a property ends at a line break depends on the last character of its line. -/
theorem endsProperty_append (u : List Char) {gap : List Char} (hc : Text.isBlank c = false)
    (hgap : ∀ d ∈ gap, Text.isBlank d = true) :
    endsProperty (u ++ c :: gap) = !continuationChars.contains c := by
  rw [endsProperty, trimRight_append u hc hgap, List.getLast?_concat]

/-- A character that is no bracket and does not end the outline is passed over. -/
theorem outlineFrom_plain (hc : isBracket c = false) (h : ¬EndsOutline taken.reverse c) (room : ℕ)
    (r : List Char) :
    outlineFrom taken 0 (room + 1) (c :: r) = outlineFrom (c :: taken) 0 room r := by
  have hbracket : ∀ d, isBracket d = true → c ≠ d := fun d hd heq => by
    rw [heq, hd] at hc
    cases hc
  rw [EndsOutline, not_or, not_or] at h
  rw [outlineFrom, if_neg (hbracket _ (by decide)),
    if_neg (not_or.2 ⟨hbracket _ (by decide), hbracket _ (by decide)⟩), if_neg h.2.1, if_neg h.2.2,
    if_neg (hbracket _ (by decide))]

/-- **The outline of a member passes over a balanced text** in which it does not end. -/
theorem Balanced.outlineFrom_append (h : Balanced m)
    (hm : Outside (fun u c => ¬EndsOutline (taken.reverse ++ u) c) m) (room : ℕ) (r : List Char) :
    outlineFrom taken 0 (m.length + room) (m ++ r) = outlineFrom (m.reverse ++ taken) 0 room r := by
  induction h generalizing taken with
  | nil => simp
  | @plain c m hc _ ih =>
    have hhead := hm.head
    rw [List.append_nil] at hhead
    rw [List.length_cons, Nat.add_right_comm, List.cons_append, outlineFrom_plain hc hhead,
      ih ((hm.plain hc).imp fun u d hd => by simpa using hd)]
    simp
  | @pair o c i n ho hi _ _ ih =>
    have hround : o = '(' → '=' ∈ taken := fun heq => by
      by_contra hequals
      exact hm.head (Or.inl ⟨heq, by simpa using hequals⟩)
    rw [length_pair, pair_append, Nat.add_assoc, outlineFrom_pair ho hi hround,
      ih ((hm.pair ho hi).imp fun u d hd => by simpa using hd)]
    simp

/-- **The tail of a method passes over a balanced text** in which it does not end. -/
theorem Balanced.methodTail_append (h : Balanced m) (hm : Outside (fun _ c => ¬EndsTail c) m)
    (room : ℕ) (r : List Char) :
    methodTail 0 (m.length + room) (m ++ r) = methodTail 0 room r + m.length := by
  induction h with
  | nil => simp
  | @plain c m hc _ ih =>
    have hround : ¬(c = '(' ∨ c = '[') := by
      rintro (heq | heq) <;> rw [heq] at hc <;> exact absurd hc (by decide)
    obtain ⟨hbrace, hsemi⟩ := not_or.1 hm.head
    rw [List.length_cons, Nat.add_right_comm, List.cons_append, methodTail, if_neg hbrace,
      if_neg hsemi, if_neg hround, ih (hm.plain hc)]
    omega
  | @pair o c i n ho hi _ _ ih =>
    rw [length_pair, pair_append, Nat.add_assoc,
      methodTail_pair ho (fun heq => hm.head (Or.inl heq)) hi, ih (hm.pair ho hi)]
    omega

end Ends

end ApiScaffold.TypeScript
