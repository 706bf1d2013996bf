import ApiScaffold.TypeScript.ClassBody
import Mathlib.Tactic

/-!
# Where the members of a class lie

* `keywordOffset?` is the place of the keyword of the first declaration of a class;
* `InOrder` says of members that each ends before the next begins;
* `findClass?_placed`: in every source text, balanced or not, the members of a class that is found
  lie in order between its braces, which come after the keyword, and no method is empty.
-/

namespace ApiScaffold.TypeScript

/-- The offset of the keyword of the first declaration of a class in a masked text; `before` is the
character in front of the text. -/
def keywordOffset? (name : List Char) (before : Option Char) : List Char → Option ℕ
  | [] => none
  | c :: cs =>
    match declarationHere? name before (c :: cs) with
    | some _ => some 0
    | none => (keywordOffset? name (some c) cs).map (· + 1)

/-- Each member ends where the next begins, or earlier. -/
def InOrder (ms : List Member) : Prop := ms.Pairwise fun a b => a.stop ≤ b.start

/-- The member lies between two offsets; a method is not empty. -/
structure Member.Between (low high : ℕ) (m : Member) : Prop where
  low_le : low ≤ m.start
  start_le : m.start ≤ m.stop
  le_high : m.stop ≤ high
  nonempty : m.kind = .method → m.start < m.stop

/-- The body of a class in a text of the given size: its braces come after its keyword, and its
members lie in order between them. -/
structure ClassBody.Placed (size keyword : ℕ) (body : ClassBody) : Prop where
  keyword_lt : keyword < body.opening
  opening_lt : body.opening < body.closing
  closing_lt : body.closing < size
  inOrder : InOrder body.members
  between : ∀ m ∈ body.members, m.Between (body.opening + 1) body.closing

/-! ### Lengths that stay inside the class -/

theorem leading_le (p : Char → Bool) (room : ℕ) (cs : List Char) : leading p room cs ≤ room := by
  unfold leading
  have h₁ := (List.takeWhile_prefix (l := cs.take room) p).length_le
  rw [List.length_take] at h₁
  omega

theorem methodTail_le (skip room : ℕ) (cs : List Char) : methodTail skip room cs ≤ room := by
  fun_induction methodTail skip room cs <;> omega

theorem outlineFrom_length_le (taken : List Char) (skip room : ℕ) (cs : List Char) :
    (outlineFrom taken skip room cs).length ≤ taken.length + room := by
  fun_induction outlineFrom taken skip room cs with
  | case1 | case2 | case9 | case10 | case11 => simp [propertyOutline]
  | case4 => simp only [Nat.succ_eq_add_one]; omega
  | case6 taken room cs n _ _ =>
    have := methodTail_le n room cs
    simp only [Nat.succ_eq_add_one]
    omega
  | case3 | case5 | case7 | case8 | case12 =>
    rename_i ih
    rw [List.length_cons] at ih
    omega

/-- A method has at least its parentheses. -/
theorem outlineFrom_method_pos {taken : List Char} {skip room : ℕ} {cs : List Char}
    (h : (outlineFrom taken skip room cs).kind = .method) :
    0 < (outlineFrom taken skip room cs).length := by
  fun_induction outlineFrom taken skip room cs with
  | case1 | case2 | case4 | case9 | case10 | case11 => cases h
  | case6 => simp only []; omega
  | case3 _ _ _ _ _ ih | case5 _ _ _ _ _ _ ih | case7 _ _ _ _ _ _ _ ih
  | case8 _ _ _ _ _ _ _ _ ih | case12 _ _ _ _ _ _ _ _ _ ih => exact ih h

theorem decoratorsLength_le (steps room : ℕ) (cs : List Char) :
    decoratorsLength steps room cs ≤ room := by
  fun_induction decoratorsLength steps room cs with
  | case1 | case6 => omega
  | case2 | case3 => exact le_rfl
  | case4 steps room rest word gap head after _ n _ used hroom blanks all ih =>
    have hb : blanks ≤ room - used := leading_le _ _ _
    omega
  | case5 steps room rest word gap head after _ ih =>
    have hw : word ≤ room := leading_le _ _ _
    have hg : gap ≤ room - word := leading_le _ _ _
    omega

/-! ### Members in order -/

/-- No member is found where nothing is left of the class. -/
theorem membersFrom_zero (steps pos : ℕ) (cs : List Char) : membersFrom steps pos 0 cs = [] := by
  cases steps with
  | zero => rfl
  | succ steps => simp [membersFrom]

/-- The members of the rest of a class lie in it, in order. -/
theorem membersFrom_spans (steps pos room : ℕ) (cs : List Char) :
    InOrder (membersFrom steps pos room cs) ∧
      ∀ m ∈ membersFrom steps pos room cs, m.Between pos (pos + room) := by
  induction steps generalizing pos room cs with
  | zero => exact ⟨List.Pairwise.nil, fun m hm => absurd hm List.not_mem_nil⟩
  | succ steps ih =>
    rw [membersFrom]
    dsimp only
    split_ifs with hgap hsemi
    · exact ⟨List.Pairwise.nil, fun m hm => absurd hm List.not_mem_nil⟩
    · -- A semicolon is passed over.
      obtain ⟨hord, hmem⟩ := ih (pos + leading Text.isBlank room cs + 1)
        (room - (leading Text.isBlank room cs + 1))
        ((cs.drop (leading Text.isBlank room cs)).drop 1)
      refine ⟨hord, fun m hm => ?_⟩
      have h := hmem m hm
      exact ⟨by have := h.low_le; omega, h.start_le, by have := h.le_high; omega, h.nonempty⟩
    · -- A member may be empty, but the search goes on behind its first character at least.
      generalize hg : leading Text.isBlank room cs = gap at *
      generalize hd : decoratorsLength steps (room - gap) (cs.drop gap) = decorators
      generalize ho : outlineFrom [] 0 (room - gap - decorators)
        ((cs.drop gap).drop decorators) = o
      have hdle : decorators ≤ room - gap := hd ▸ decoratorsLength_le _ _ _
      have hole : o.length ≤ room - gap - decorators := by
        have := outlineFrom_length_le [] 0 (room - gap - decorators) ((cs.drop gap).drop decorators)
        rw [ho, List.length_nil] at this
        omega
      have hpos : o.kind = .method → 0 < o.length := by
        rw [← ho]
        exact outlineFrom_method_pos
      have first : (⟨o.name, o.kind, pos, pos + (gap + decorators + o.length)⟩ : Member).Between pos
          (pos + room) :=
        ⟨le_rfl, Nat.le_add_right _ _, by dsimp only; omega, fun h => by
          have := hpos h; dsimp only; omega⟩
      generalize hp : max (gap + decorators + o.length) (gap + decorators + 1) = passed
      have hple : gap + decorators + o.length ≤ passed := by omega
      have later : ∀ m ∈ membersFrom steps (pos + passed) (room - passed) (cs.drop passed),
          m.Between (pos + passed) (pos + room) := by
        intro m hm
        have h := (ih (pos + passed) (room - passed) (cs.drop passed)).2 m hm
        rcases Nat.le_or_ge passed room with hr | hr
        · exact ⟨h.low_le, h.start_le, by have := h.le_high; omega, h.nonempty⟩
        · rw [Nat.sub_eq_zero_of_le hr, membersFrom_zero] at hm
          exact absurd hm List.not_mem_nil
      refine ⟨List.pairwise_cons.2 ⟨fun m hm => ?_, (ih _ _ _).1⟩, fun m hm => ?_⟩
      · have := (later m hm).low_le
        dsimp only
        omega
      · rcases List.mem_cons.1 hm with rfl | hm
        · exact first
        · have h := later m hm
          exact ⟨by have := h.low_le; omega, h.start_le, h.le_high, h.nonempty⟩

/-! ### The place of the class -/

/-- A declaration ends behind its keyword. -/
theorem keyword_lt_declarationEnd {name : List Char} {before : Option Char} {cs : List Char} {n : ℕ}
    (h : declarationEnd? name before cs = some n) :
    ∃ k, keywordOffset? name before cs = some k ∧ k < n := by
  induction cs generalizing before n with
  | nil => cases h
  | cons c cs ih =>
    rw [declarationEnd?] at h
    rw [keywordOffset?]
    cases hd : declarationHere? name before (c :: cs) with
    | some m =>
      rw [hd] at h
      cases h
      refine ⟨0, rfl, ?_⟩
      unfold declarationHere? at hd
      split at hd
      · cases hd
      · split_ifs at hd
        obtain ⟨k, -, rfl⟩ := Option.map_eq_some_iff.1 hd
        omega
    | none =>
      rw [hd] at h
      obtain ⟨m, hm, rfl⟩ := Option.map_eq_some_iff.1 h
      obtain ⟨k, hk, hlt⟩ := ih hm
      exact ⟨k + 1, by simp [hk], by omega⟩

/-- A closing bracket comes after the opening one. -/
theorem closingOffset?_pos {n : ℕ} {cs : List Char} (h : closingOffset? cs = some n) : 0 < n := by
  unfold closingOffset? at h
  split at h
  · cases h
  · split at h
    · cases h
    · obtain ⟨m, -, rfl⟩ := Option.map_eq_some_iff.1 h
      omega

/-- What the search for a class finds. -/
theorem findBody?_cases {masked : List Char} {name : String} {body : ClassBody}
    (h : findBody? name masked = some body) :
    ∃ size, masked[body.opening]? = some '\x7b' ∧
      closingOffset? (masked.drop body.opening) = some size ∧ 0 < size ∧
      body.closing = body.opening + size ∧
      body.members = membersFrom size (body.opening + 1) (size - 1)
        (masked.drop (body.opening + 1)) := by
  unfold findBody? at h
  simp only [Option.bind_eq_bind, Option.bind_eq_some_iff, Option.pure_def,
    Option.some.injEq] at h
  obtain ⟨declared, -, gap, hgap, size, hsize, rfl⟩ := h
  have hpos := closingOffset?_pos hsize
  have hbrace : masked[declared + gap]? = some '\x7b' := by
    obtain ⟨hlt, hbrace, -⟩ := List.findIdx?_eq_some_iff_getElem.1 hgap
    rw [← List.getElem?_drop, List.getElem?_eq_getElem hlt, eq_of_beq hbrace]
  refine ⟨size, hbrace, hsize, hpos, rfl, ?_⟩
  rw [Nat.sub_add_cancel hpos]

/-- **The members of a class lie in order between its braces,** whatever the source text. -/
theorem findClass?_placed {source : List Char} {name : String} {body : ClassBody}
    (h : findClass? source name = some body) :
    ∃ k, keywordOffset? name.toList none (mask source) = some k ∧ body.Placed source.length k := by
  unfold findClass? findBody? at h
  simp only [Option.bind_eq_bind, Option.bind_eq_some_iff, Option.pure_def,
    Option.some.injEq] at h
  obtain ⟨declared, hdecl, gap, -, size, hsize, rfl⟩ := h
  obtain ⟨k, hk, hlt⟩ := keyword_lt_declarationEnd hdecl
  have hin := closingOffset?_lt hsize
  have hpos := closingOffset?_pos hsize
  rw [List.length_drop, length_mask] at hin
  obtain ⟨hord, hmem⟩ := membersFrom_spans (size - 1 + 1) (declared + gap + 1) (size - 1)
    ((mask source).drop (declared + gap + 1))
  refine ⟨k, hk, ?_, ?_, ?_, hord, fun m hm => ?_⟩
  · dsimp only; omega
  · dsimp only; omega
  · dsimp only; omega
  · have hb := hmem m hm
    rw [show declared + gap + 1 + (size - 1) = declared + gap + size by omega] at hb
    exact hb

end ApiScaffold.TypeScript
