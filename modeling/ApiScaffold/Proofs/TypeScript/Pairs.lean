import ApiScaffold.Proofs.TypeScript.Balance

/-!
# Brackets that belong together

The check of a text keeps the open brackets of all kinds on one stack; the search for a closing
bracket counts the brackets of one kind.  In a balanced text both find the same bracket.

* `Balanced` is the grammar of balanced texts, and `balanced_iff` says that they are those without
  an unbalanced bracket;
* `openBrackets` is the stack of the check, and `bracketProblems_eq` says what the check reports by
  it; `ClosedAt` says where a bracket is taken from it;
* `Balanced.closingFrom_append`: the search passes over a balanced text;
* `closingIndex_of_balanced`: in a balanced text it ends where the bracket is taken from the stack.
-/

namespace ApiScaffold.TypeScript

/-! ### Kinds of brackets -/

section Kinds

variable {o c o' c' : Char}

theorem closerOf?_eq_some_iff :
    closerOf? o = some c ↔
      (o = '(' ∧ c = ')') ∨ (o = '[' ∧ c = ']') ∨ (o = '\x7b' ∧ c = '\x7d') := by
  unfold closerOf?
  split_ifs with h₁ h₂ h₃
  · subst h₁
    simp [eq_comm]
  · subst h₂
    simp [eq_comm]
  · subst h₃
    simp [eq_comm]
  · simp [h₁, h₂, h₃]

/-- What closes a bracket opens none. -/
theorem closerOf?_closer (h : closerOf? o = some c) : closerOf? c = none ∧ isCloser c = true := by
  rcases closerOf?_eq_some_iff.1 h with ⟨-, rfl⟩ | ⟨-, rfl⟩ | ⟨-, rfl⟩ <;> exact ⟨rfl, rfl⟩

theorem isCloser_opener (h : closerOf? o = some c) : isCloser o = false ∧ o ≠ '\n' := by
  rcases closerOf?_eq_some_iff.1 h with ⟨rfl, -⟩ | ⟨rfl, -⟩ | ⟨rfl, -⟩ <;> decide

/-- Brackets of different kinds are closed by different brackets. -/
theorem opener_unique (h : closerOf? o = some c) (h' : closerOf? o' = some c) : o = o' := by
  rcases closerOf?_eq_some_iff.1 h with ⟨rfl, rfl⟩ | ⟨rfl, rfl⟩ | ⟨rfl, rfl⟩ <;>
    rcases closerOf?_eq_some_iff.1 h' with ⟨rfl, hc⟩ | ⟨rfl, hc⟩ | ⟨rfl, hc⟩ <;>
    first | rfl | exact absurd hc (by decide)

/-- No bracket both opens and closes. -/
theorem ne_of_closerOf? (h : closerOf? o = some c) (h' : closerOf? o' = some c') : o ≠ c' := by
  rintro rfl
  rw [(closerOf?_closer h').1] at h
  cases h

theorem isBracket_eq_false_iff : isBracket c = false ↔ closerOf? c = none ∧ isCloser c = false := by
  rw [isBracket, Bool.or_eq_false_iff, Option.isSome_eq_false_iff, Option.isNone_iff_eq_none]

/-- The brackets of a text. -/
theorem isBracket_iff_mem : isBracket c = true ↔ c ∈ ['(', ')', '[', ']', '\x7b', '\x7d'] := by
  constructor
  · intro h
    cases hc : closerOf? c with
    | some d => rcases closerOf?_eq_some_iff.1 hc with h | h | h <;> simp [h.1]
    | none =>
      rw [isBracket, hc, Option.isSome_none, Bool.false_or] at h
      simp only [isCloser, Bool.or_eq_true, beq_iff_eq] at h
      simp only [List.mem_cons]
      tauto
  · intro h
    have hall : ∀ d ∈ ['(', ')', '[', ']', '\x7b', '\x7d'], isBracket d = true :=
      List.all_eq_true.1 (by decide)
    exact hall c h

theorem isBracket_opener (h : closerOf? o = some c) : isBracket o = true := by
  rw [isBracket, h]
  rfl

theorem isBracket_closer (h : closerOf? o = some c) : isBracket c = true := by
  rw [isBracket, (closerOf?_closer h).2, Bool.or_true]

end Kinds

/-! ### Balanced texts -/

/-- A balanced text: every bracket in it is closed in it, by a bracket of its kind, and the text in
between is balanced. -/
inductive Balanced : List Char → Prop
  | nil : Balanced []
  | plain {c : Char} {m : List Char} (hc : isBracket c = false) (hm : Balanced m) :
      Balanced (c :: m)
  | pair {o c : Char} {m r : List Char} (ho : closerOf? o = some c) (hm : Balanced m)
      (hr : Balanced r) : Balanced (o :: (m ++ c :: r))

section Brackets

variable {o c : Char} {os r rest m n : List Char}

theorem brackets_opener (h : closerOf? o = some c) (os cs : List Char) :
    brackets os (o :: cs) = brackets (o :: os) cs := by
  rw [brackets, h]
  rfl

theorem brackets_closer (h : isCloser c = true) (ho : closerOf? c = none) (os cs : List Char) :
    brackets os (c :: cs) = (popBracket c os).bind fun os => brackets os cs := by
  rw [brackets, ho, h]
  rfl

/-- A balanced text leaves the stack of open brackets as it was. -/
theorem Balanced.brackets_eq (h : Balanced m) (os : List Char) : brackets os m = some os := by
  induction h generalizing os with
  | nil => rfl
  | plain hc _ ih => rw [Neutral.brackets_cons_of_not hc, ih]
  | pair ho _ _ ihm ihr =>
    obtain ⟨hc, hcloser⟩ := closerOf?_closer ho
    rw [brackets_opener ho, brackets_append, ihm, Option.bind_some, brackets_closer hcloser hc,
      popBracket, if_pos ho, Option.bind_some, ihr]

/-- If a bracket is taken from the stack by the end of a text, the text goes on with a balanced part
and the bracket that closes it. -/
theorem exists_closing (h : brackets (o :: os) rest = some r) (hr : r.length ≤ os.length) :
    ∃ m c tail, rest = m ++ c :: tail ∧ closerOf? o = some c ∧ Balanced m ∧
      brackets os tail = some r := by
  -- What an inner bracket encloses is passed over as a whole.
  induction hn : rest.length using Nat.strong_induction_on generalizing o os rest with
  | _ size ih =>
    cases rest with
    | nil =>
      obtain rfl := Option.some.inj h
      simp at hr
    | cons x xs =>
      rw [List.length_cons] at hn
      cases hx : closerOf? x with
      | some y =>
        rw [brackets_opener hx] at h
        obtain ⟨m₁, c₁, tail₁, rfl, hc₁, hm₁, h₁⟩ :=
          ih xs.length (by omega) h (by rw [List.length_cons]; omega) rfl
        rw [List.length_append, List.length_cons] at hn
        obtain ⟨m₂, c₂, tail₂, rfl, hc₂, hm₂, h₂⟩ := ih tail₁.length (by omega) h₁ hr rfl
        refine ⟨x :: (m₁ ++ c₁ :: m₂), c₂, tail₂, ?_, hc₂, .pair hc₁ hm₁ hm₂, h₂⟩
        simp
      | none =>
        cases hcloser : isCloser x with
        | true =>
          rw [brackets_closer hcloser hx, popBracket] at h
          split_ifs at h with ho
          · exact ⟨[], x, xs, rfl, ho, .nil, h⟩
          · cases h
        | false =>
          have hplain : isBracket x = false := isBracket_eq_false_iff.2 ⟨hx, hcloser⟩
          rw [Neutral.brackets_cons_of_not hplain] at h
          obtain ⟨m₁, c₁, tail₁, rfl, hc₁, hm₁, h₁⟩ := ih xs.length (by omega) h hr rfl
          exact ⟨x :: m₁, c₁, tail₁, rfl, hc₁, .plain hplain hm₁, h₁⟩

theorem balanced_of_brackets (h : brackets [] m = some []) : Balanced m := by
  induction hn : m.length using Nat.strong_induction_on generalizing m with
  | _ size ih =>
    cases m with
    | nil => exact .nil
    | cons x xs =>
      rw [List.length_cons] at hn
      cases hx : closerOf? x with
      | some y =>
        rw [brackets_opener hx] at h
        obtain ⟨m, c, tail, rfl, hc, hm, htail⟩ := exists_closing h le_rfl
        rw [List.length_append, List.length_cons] at hn
        exact .pair hc hm (ih tail.length (by omega) htail rfl)
      | none =>
        cases hcloser : isCloser x with
        | true =>
          rw [brackets_closer hcloser hx] at h
          cases h
        | false =>
          have hplain : isBracket x = false := isBracket_eq_false_iff.2 ⟨hx, hcloser⟩
          rw [Neutral.brackets_cons_of_not hplain] at h
          exact .plain hplain (ih xs.length (by omega) h rfl)

/-- **The balanced texts are those without an unbalanced bracket.** -/
theorem balanced_iff {line : ℕ} : Balanced m ↔ bracketProblems [] line m = [] := by
  rw [bracketProblems_eq_nil_iff, List.map_nil]
  exact ⟨fun h => h.brackets_eq [], balanced_of_brackets⟩

/-- The stack of open brackets depends on the brackets alone. -/
theorem brackets_filter (os m : List Char) : brackets os (m.filter isBracket) = brackets os m := by
  induction m generalizing os with
  | nil => rfl
  | cons c cs ih =>
    cases hc : isBracket c with
    | false => rw [List.filter_cons_of_neg (by simp [hc]), Neutral.brackets_cons_of_not hc, ih]
    | true =>
      rw [List.filter_cons_of_pos hc, brackets, brackets]
      simp only [ih]

/-- Brackets alone decide whether a text is balanced. -/
theorem balanced_filter_iff : Balanced (m.filter isBracket) ↔ Balanced m :=
  ⟨fun h => balanced_of_brackets ((brackets_filter [] m).symm.trans (h.brackets_eq [])),
    fun h => balanced_of_brackets ((brackets_filter [] m).trans (h.brackets_eq []))⟩

theorem balanced_mask {source : List Char} (h : balanceProblems source = []) :
    Balanced (mask source) :=
  balanced_iff.2 (List.append_eq_nil_iff.1 h).2

theorem Balanced.append (hm : Balanced m) (hn : Balanced n) : Balanced (m ++ n) := by
  refine balanced_of_brackets ?_
  rw [brackets_append, hm.brackets_eq, Option.bind_some, hn.brackets_eq]

/-- A text without brackets is balanced. -/
theorem Balanced.of_plain (h : ∀ c ∈ m, isBracket c = false) : Balanced m := by
  induction m with
  | nil => exact .nil
  | cons c cs ih =>
    exact .plain (h c List.mem_cons_self) (ih fun d hd => h d (List.mem_cons_of_mem _ hd))

/-- What is left of a balanced text behind a balanced part of it is balanced. -/
theorem Balanced.of_append (h : Balanced (m ++ n)) (hm : Balanced m) : Balanced n := by
  have hall := h.brackets_eq []
  rw [brackets_append, hm.brackets_eq, Option.bind_some] at hall
  exact balanced_of_brackets hall

end Brackets

/-! ### The search for a closing bracket -/

section Search

variable {o c : Char} {m : List Char}

/-- **The search passes over a balanced text,** whatever the kind of its bracket. -/
theorem Balanced.closingFrom_append (h : Balanced m) (ho : closerOf? o = some c) {d : ℕ}
    (hd : 1 ≤ d) (r : List Char) :
    closingFrom o c d (m ++ r) = (closingFrom o c d r).map (· + m.length) := by
  induction h generalizing d r with
  | nil => simp
  | @plain x m hx _ ih =>
    have hxo : x ≠ o := fun heq => by rw [heq, isBracket_opener ho] at hx; cases hx
    have hxc : x ≠ c := fun heq => by rw [heq, isBracket_closer ho] at hx; cases hx
    rw [List.cons_append, closingFrom, if_neg hxo, if_neg hxc, ih hd, map_add_map_add]
    rfl
  | @pair o' c' m n ho' _ _ ihm ihn =>
    have hlen : (o' :: (m ++ c' :: n)).length = n.length + 1 + (m.length + 1) := by
      simp
      omega
    rw [List.cons_append, List.append_assoc, List.cons_append, closingFrom, hlen]
    by_cases hkind : o' = o
    · -- A pair of the kind that is looked for: one more bracket is open inside it.
      subst hkind
      obtain rfl : c' = c := Option.some.inj (ho'.symm.trans ho)
      rw [if_pos rfl, ihm (by omega), closingFrom, if_neg (ne_of_closerOf? ho ho').symm, if_pos rfl,
        if_neg (by omega), Nat.add_sub_cancel, ihn hd]
      simp only [map_add_map_add, Nat.add_assoc]
    · have hc : c' ≠ c := fun heq => hkind (opener_unique (heq ▸ ho') ho)
      rw [if_neg hkind, if_neg (ne_of_closerOf? ho' ho), ihm hd, closingFrom,
        if_neg (ne_of_closerOf? ho ho').symm, if_neg hc, ihn hd]
      simp only [map_add_map_add, Nat.add_assoc]

/-- The bracket in front of a balanced text closes behind it. -/
theorem Balanced.closingOffset?_eq (h : Balanced m) (ho : closerOf? o = some c) (r : List Char) :
    closingOffset? (o :: (m ++ c :: r)) = some (m.length + 1) := by
  have hfirst : closingFrom o c 1 (c :: r) = some 0 := by
    rw [closingFrom, if_neg (ne_of_closerOf? ho ho).symm, if_pos rfl, if_pos le_rfl]
  rw [closingOffset?, ho]
  dsimp only
  rw [h.closingFrom_append ho le_rfl, hfirst]
  simp

end Search

/-! ### The stack of the check -/

/-- The stack of open brackets after a character, each with a tag that says where it stands. A
closing bracket that does not belong to the innermost open one is passed over. -/
def pushPop {τ : Type} (opened : List (Char × τ)) (x : Char × τ) : List (Char × τ) :=
  if (closerOf? x.1).isSome then x :: opened
  else if isCloser x.1 then
    match opened with
    | [] => []
    | o :: os => if closerOf? o.1 = some x.1 then os else o :: os
  else opened

/-- The stack of open brackets, the innermost first, after the first `n` characters of a masked
text, each with its offset. -/
def openBrackets (cs : List Char) (n : ℕ) : List (Char × ℕ) := (cs.zipIdx.take n).foldl pushPop []

/-- The bracket at the offset `i` is taken from the stack by the one at the offset `j`. -/
def ClosedAt (cs : List Char) (i j : ℕ) : Prop :=
  ∃ o os, openBrackets cs j = (o, i) :: os ∧ openBrackets cs (j + 1) = os

section Stack

variable {τ : Type} {cs m : List Char} {i j n : ℕ}

theorem pushPop_opener {o c : Char} (h : closerOf? o = some c) (opened : List (Char × τ)) (t : τ) :
    pushPop opened (o, t) = (o, t) :: opened := by
  unfold pushPop
  rw [h]
  rfl

theorem pushPop_plain {c : Char} (h : isBracket c = false) (opened : List (Char × τ)) (t : τ) :
    pushPop opened (c, t) = opened := by
  obtain ⟨hopener, hcloser⟩ := isBracket_eq_false_iff.1 h
  unfold pushPop
  rw [hopener, hcloser]
  rfl

theorem pushPop_closer {o c : Char} (h : closerOf? o = some c) (opened : List (Char × τ))
    (t u : τ) : pushPop ((o, t) :: opened) (c, u) = opened := by
  obtain ⟨hopener, hcloser⟩ := closerOf?_closer h
  unfold pushPop
  rw [hopener, hcloser]
  simp [h]

/-- After a character the stack has one more bracket, is the same, or lost its first. -/
theorem pushPop_cases (opened : List (Char × τ)) (x : Char × τ) :
    pushPop opened x = x :: opened ∨ pushPop opened x = opened ∨
      pushPop opened x = opened.tail := by
  unfold pushPop
  split_ifs
  · exact Or.inl rfl
  · cases opened with
    | nil => exact Or.inr (Or.inl rfl)
    | cons o os =>
      dsimp only
      split_ifs
      · exact Or.inr (Or.inr rfl)
      · exact Or.inr (Or.inl rfl)
  · exact Or.inr (Or.inl rfl)

theorem openBrackets_succ {c : Char} (h : cs[n]? = some c) :
    openBrackets cs (n + 1) = pushPop (openBrackets cs n) (c, n) := by
  have htake : cs.zipIdx.take (n + 1) = cs.zipIdx.take n ++ [(c, n)] := by
    rw [List.take_add_one, List.getElem?_zipIdx, h]
    simp
  rw [openBrackets, htake, List.foldl_append]
  rfl

theorem openBrackets_of_none (h : cs[n]? = none) : openBrackets cs (n + 1) = openBrackets cs n := by
  have htake : cs.zipIdx.take (n + 1) = cs.zipIdx.take n := by
    rw [List.take_add_one, List.getElem?_zipIdx, h]
    simp
  rw [openBrackets, htake]
  rfl

theorem openBrackets_cases (cs : List Char) (n : ℕ) :
    (∃ c, openBrackets cs (n + 1) = (c, n) :: openBrackets cs n) ∨
      openBrackets cs (n + 1) = openBrackets cs n ∨
      openBrackets cs (n + 1) = (openBrackets cs n).tail := by
  cases h : cs[n]? with
  | none => exact Or.inr (Or.inl (openBrackets_of_none h))
  | some c =>
    rw [openBrackets_succ h]
    rcases pushPop_cases (openBrackets cs n) (c, n) with h | h | h
    · exact Or.inl ⟨c, h⟩
    · exact Or.inr (Or.inl h)
    · exact Or.inr (Or.inr h)

/-- The offsets of the brackets that are open after `n` characters. -/
def openOffsets (cs : List Char) (n : ℕ) : List ℕ := (openBrackets cs n).map (·.2)

theorem openOffsets_cases (cs : List Char) (n : ℕ) :
    openOffsets cs (n + 1) = n :: openOffsets cs n ∨
      (openOffsets cs (n + 1)).Sublist (openOffsets cs n) := by
  unfold openOffsets
  rcases openBrackets_cases cs n with ⟨c, h⟩ | h | h
  · exact Or.inl (by rw [h]; rfl)
  · exact Or.inr (by rw [h])
  · exact Or.inr (by rw [h]; exact (List.tail_sublist _).map _)

theorem lt_of_mem_openOffsets (h : i ∈ openOffsets cs n) : i < n := by
  induction n with
  | zero => cases h
  | succ n ih =>
    rcases openOffsets_cases cs n with hn | hn
    · rw [hn, List.mem_cons] at h
      rcases h with rfl | h
      · exact Nat.lt_succ_self i
      · exact (ih h).trans (Nat.lt_succ_self n)
    · exact (ih (hn.subset h)).trans (Nat.lt_succ_self n)

theorem nodup_openOffsets (cs : List Char) (n : ℕ) : (openOffsets cs n).Nodup := by
  induction n with
  | zero => exact List.nodup_nil
  | succ n ih =>
    rcases openOffsets_cases cs n with hn | hn
    · rw [hn, List.nodup_cons]
      exact ⟨fun hmem => absurd (lt_of_mem_openOffsets hmem) (Nat.lt_irrefl n), ih⟩
    · exact ih.sublist hn

/-- A bracket that is no longer open is not opened again. -/
theorem notMem_openOffsets (h : i ∉ openOffsets cs n) (hi : i < n) (hn : n ≤ j) :
    i ∉ openOffsets cs j := by
  induction j, hn using Nat.le_induction with
  | base => exact h
  | succ j hj ih =>
    rcases openOffsets_cases cs j with hc | hc
    · rw [hc, List.mem_cons, not_or]
      exact ⟨by omega, ih⟩
    · exact fun hmem => ih (hc.subset hmem)

theorem ClosedAt.mem (h : ClosedAt cs i j) : i ∈ openOffsets cs j := by
  obtain ⟨o, os, hbefore, -⟩ := h
  rw [openOffsets, hbefore]
  exact List.mem_cons_self

theorem ClosedAt.lt (h : ClosedAt cs i j) : i < j := lt_of_mem_openOffsets h.mem

theorem ClosedAt.notMem (h : ClosedAt cs i j) (hj : j < n) : i ∉ openOffsets cs n := by
  have hi := h.lt
  obtain ⟨o, os, hbefore, hafter⟩ := h
  have hnodup := nodup_openOffsets cs j
  rw [openOffsets, hbefore, List.map_cons, List.nodup_cons] at hnodup
  refine notMem_openOffsets (n := j + 1) ?_ (by omega) hj
  rw [openOffsets, hafter]
  exact hnodup.1

/-- A bracket is taken from the stack once. -/
theorem ClosedAt.unique (h : ClosedAt cs i j) (h' : ClosedAt cs i n) : j = n := by
  rcases lt_trichotomy j n with hlt | heq | hgt
  · exact absurd h'.mem (h.notMem hlt)
  · exact heq
  · exact absurd h.mem (h'.notMem hgt)

/-- A balanced text leaves the stack of the check as it was. -/
theorem Balanced.foldl_pushPop (h : Balanced m) (start : ℕ) (opened : List (Char × ℕ)) :
    (m.zipIdx start).foldl pushPop opened = opened := by
  induction h generalizing start opened with
  | nil => rfl
  | plain hc _ ih => rw [List.zipIdx_cons, List.foldl_cons, ih, pushPop_plain hc]
  | pair ho _ _ ihm ihr =>
    rw [List.zipIdx_cons, List.zipIdx_append, List.foldl_cons, List.foldl_append, ihm,
      List.zipIdx_cons, List.foldl_cons, ihr, pushPop_opener ho, pushPop_closer ho]

/-- A pair of brackets around a balanced text: the first is taken from the stack by the second. -/
theorem Balanced.closedAt {o c : Char} (h : Balanced m) (ho : closerOf? o = some c)
    (before after : List Char) :
    ClosedAt (before ++ o :: (m ++ c :: after)) before.length (before.length + (m.length + 1)) := by
  have hsplit : (before ++ o :: (m ++ c :: after)).zipIdx =
      (before.zipIdx ++ (o, before.length) :: m.zipIdx (before.length + 1)) ++
        (c, before.length + (m.length + 1)) ::
          after.zipIdx (before.length + (m.length + 1) + 1) := by
    rw [List.zipIdx_append, List.zipIdx_cons, List.zipIdx_append, List.zipIdx_cons]
    simp [Nat.add_assoc, Nat.add_comm 1]
  have hlen : (before.zipIdx ++ (o, before.length) :: m.zipIdx (before.length + 1)).length =
      before.length + (m.length + 1) := by simp
  have hat : openBrackets (before ++ o :: (m ++ c :: after)) (before.length + (m.length + 1)) =
      (o, before.length) :: before.zipIdx.foldl pushPop [] := by
    rw [openBrackets, hsplit, ← hlen, List.take_left, List.foldl_append, List.foldl_cons,
      h.foldl_pushPop, pushPop_opener ho]
  have hget : (before ++ o :: (m ++ c :: after))[before.length + (m.length + 1)]? = some c := by
    rw [List.getElem?_append_right (by omega), Nat.add_sub_cancel_left, List.getElem?_cons_succ,
      List.getElem?_append_right le_rfl, Nat.sub_self]
    rfl
  refine ⟨o, _, hat, ?_⟩
  rw [openBrackets_succ hget, hat, pushPop_closer ho]

end Stack

/-! ### What the check reports -/

/-- The line of an offset; lines count from one. -/
def lineAt (cs : List Char) (i : ℕ) : ℕ := (cs.take i).count '\n' + 1

/-- Whether a closing bracket does not belong to the innermost open one. -/
def isStray (opened : List (Char × ℕ)) (c : Char) : Bool :=
  isCloser c && (opened.head?.bind fun o => closerOf? o.1) != some c

section Reports

variable {cs before rest : List Char} {n : ℕ}

theorem lineAt_succ {c : Char} (h : cs[n]? = some c) :
    lineAt cs (n + 1) = if c = '\n' then lineAt cs n + 1 else lineAt cs n := by
  unfold lineAt
  rw [List.take_add_one, h, Option.toList_some, List.count_append, List.count_singleton]
  by_cases hc : c = '\n'
  · simp [hc]
  · simp [hc]

/-- One character of the check, which remembers lines where the stack has offsets. -/
theorem bracketProblems_cons (opened : List (Char × ℕ)) (lineOf : ℕ → ℕ) (c : Char)
    (rest : List Char) (n : ℕ) :
    bracketProblems (opened.map fun o => (o.1, lineOf o.2)) (lineOf n) (c :: rest) =
      (if isStray opened c then [.unexpectedCloser (lineOf n) c] else []) ++
        bracketProblems ((pushPop opened (c, n)).map fun o => (o.1, lineOf o.2))
          (if c = '\n' then lineOf n + 1 else lineOf n) rest := by
  conv_lhs => unfold bracketProblems
  cases hc : closerOf? c with
  | some d =>
    obtain ⟨hcloser, hline⟩ := isCloser_opener hc
    rw [pushPop_opener hc, isStray, hcloser, if_neg hline]
    simp
  | none =>
    cases hcloser : isCloser c with
    | false =>
      rw [pushPop_plain (isBracket_eq_false_iff.2 ⟨hc, hcloser⟩), isStray, hcloser]
      simp
    | true =>
      have hline : c ≠ '\n' := fun heq => absurd (heq ▸ hcloser) (by decide)
      rw [if_neg hline]
      cases opened with
      | nil => simp [isStray, pushPop, hc, hcloser]
      | cons o os =>
        by_cases ho : closerOf? o.1 = some c <;> simp [isStray, pushPop, hc, hcloser, ho]

/-- **What the check reports by its stack:** the closing brackets that do not belong to the
innermost open one, and the brackets that are open in the end, the outermost first. -/
theorem bracketProblems_eq (cs : List Char) :
    bracketProblems [] 1 cs =
      (cs.zipIdx.flatMap fun x =>
        if isStray (openBrackets cs x.2) x.1 then [.unexpectedCloser (lineAt cs x.2) x.1]
        else []) ++
      (openBrackets cs cs.length).reverse.map fun o => .unclosedOpener (lineAt cs o.2) o.1 := by
  have hfrom : ∀ rest before, before ++ rest = cs →
      bracketProblems ((openBrackets cs before.length).map fun o => (o.1, lineAt cs o.2))
          (lineAt cs before.length) rest =
        ((rest.zipIdx before.length).flatMap fun x =>
          if isStray (openBrackets cs x.2) x.1 then [.unexpectedCloser (lineAt cs x.2) x.1]
          else []) ++
        (openBrackets cs cs.length).reverse.map fun o => .unclosedOpener (lineAt cs o.2) o.1 := by
    intro rest
    induction rest with
    | nil =>
      rintro before rfl
      simp [bracketProblems, Function.comp_def]
    | cons c rest ih =>
      intro before hcs
      have hget : cs[before.length]? = some c := by simp [← hcs]
      have hrest := ih (before ++ [c]) (by simpa using hcs)
      rw [List.length_append, List.length_singleton, openBrackets_succ hget, lineAt_succ hget]
        at hrest
      rw [bracketProblems_cons, hrest, List.zipIdx_cons, List.flatMap_cons, List.append_assoc]
  simpa [lineAt, openBrackets] using hfrom cs [] rfl

end Reports

/-! ### The two ways to find a closing bracket -/

/-- A bracket in a balanced text is followed by a balanced part and the bracket that closes it. -/
theorem Balanced.exists_pair {o c : Char} {before rest : List Char}
    (h : Balanced (before ++ o :: rest)) (ho : closerOf? o = some c) :
    ∃ m after, rest = m ++ c :: after ∧ Balanced m := by
  have hall := h.brackets_eq []
  rw [brackets_append] at hall
  obtain ⟨os, -, hrest⟩ := Option.bind_eq_some_iff.1 hall
  rw [brackets_opener ho] at hrest
  obtain ⟨m, c', after, rfl, hc', hm, -⟩ := exists_closing hrest (Nat.zero_le _)
  obtain rfl : c' = c := Option.some.inj (hc'.symm.trans ho)
  exact ⟨m, after, rfl, hm⟩

/-- The search from a bracket on, in a text that is split there. -/
theorem Balanced.closingIndex_eq {o c : Char} {m : List Char} (h : Balanced m)
    (ho : closerOf? o = some c) (before after : List Char) :
    closingIndex (before ++ o :: (m ++ c :: after)) before.length =
      .ok ((before.length + (m.length + 1) : ℕ) : ℤ) := by
  have hsize : ¬((before.length : ℤ) < -((before ++ o :: (m ++ c :: after)).length : ℤ) ∨
      ((before ++ o :: (m ++ c :: after)).length : ℤ) ≤ before.length) := by
    simp only [List.length_append, List.length_cons]
    omega
  have hhead : (o :: (m ++ c :: after)).head?.bind closerOf? = some c := ho
  unfold closingIndex
  dsimp only
  rw [if_neg hsize, if_neg (Int.natCast_nonneg before.length).not_gt, Int.toNat_natCast,
    List.drop_left, hhead, h.closingOffset?_eq ho]
  push_cast
  rfl

/-- **In a balanced text the search for a closing bracket ends where the bracket is taken from the
stack of the check,** and the text in between is balanced. -/
theorem closingIndex_of_balanced {source : List Char} (balanced : balanceProblems source = [])
    {i : ℕ} {o : Char} (here : (mask source)[i]? = some o) (opens : (closerOf? o).isSome = true) :
    ∃ j : ℕ, closingIndex (mask source) i = .ok (j : ℤ) ∧ i < j ∧
      (∀ k, ClosedAt (mask source) i k ↔ k = j) ∧
      Balanced (((mask source).take j).drop (i + 1)) := by
  obtain ⟨c, hc⟩ := Option.isSome_iff_exists.1 opens
  obtain ⟨hi, rfl⟩ := List.getElem?_eq_some_iff.1 here
  have hsplit : mask source =
      (mask source).take i ++ (mask source)[i] :: (mask source).drop (i + 1) := by
    rw [List.getElem_cons_drop, List.take_append_drop]
  have hlen : ((mask source).take i).length = i := by
    rw [List.length_take]
    omega
  have hmask := balanced_mask balanced
  generalize (mask source)[i] = o at *
  generalize (mask source).take i = before at *
  generalize (mask source).drop (i + 1) = rest at *
  rw [hsplit] at hmask ⊢
  obtain ⟨m, after, rfl, hm⟩ := hmask.exists_pair hc
  subst hlen
  have hclosed := hm.closedAt hc before after
  refine ⟨before.length + (m.length + 1), hm.closingIndex_eq hc before after, hclosed.lt,
    fun k => ⟨fun hk => hk.unique hclosed, fun hk => hk ▸ hclosed⟩, ?_⟩
  have hbetween : ((before ++ o :: (m ++ c :: after)).take
      (before.length + (m.length + 1))).drop (before.length + 1) = m := by
    rw [List.take_length_add_append, ← List.drop_drop, List.drop_left]
    simp
  rwa [hbetween]

/-- A call whose argument holds brackets of all kinds, one of them in a string literal. -/
def bracketCall : List Char := "call(\x7b a: [1, \x27)\x27] \x7d)".toList

theorem closingIndex_of_balanced_bracketCall :
    (balanceProblems bracketCall = [] ∧ (mask bracketCall)[5]? = some '\x7b' ∧
      (closerOf? '\x7b').isSome = true) ∧
    ∃ j : ℕ, closingIndex (mask bracketCall) 5 = .ok (j : ℤ) ∧ 5 < j ∧
      (∀ k, ClosedAt (mask bracketCall) 5 k ↔ k = j) ∧
      Balanced (((mask bracketCall).take j).drop 6) := by
  have balanced : balanceProblems bracketCall = [] := by decide +kernel
  have here : (mask bracketCall)[5]? = some '\x7b' := by decide +kernel
  have opens : (closerOf? '\x7b').isSome = true := by decide
  exact ⟨⟨balanced, here, opens⟩, closingIndex_of_balanced balanced here opens⟩

end ApiScaffold.TypeScript
