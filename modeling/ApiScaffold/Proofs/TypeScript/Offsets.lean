import ApiScaffold.Proofs.TypeScript.Scan

/-!
# What the mask shows at an offset

* `PatternBody` is the grammar of the text between the slashes of a regular expression, and
  `patternBody_of_length?` says that the scan finds such a text;
* `PatternLiteral` is a regular expression literal of a source text, `PatternSlash` the place of one
  of its slashes;
* `exists_patternLiteral`: inside a regular expression the scan counts the characters that are left
  up to the closing slash;
* `mask_offsets`: an offset of the mask is one of the source text, a line break in the one is a line
  break in the other, and elsewhere the mask shows the character of the source, a space, or a
  quotation mark in the place of such a slash;
* `stateAt` is the state of the scan in front of an offset, and the mask falls into two there.

All of it holds of every text, and the scan ends with the text, since it takes a step for each
character. What the end of a text cuts off, be it a comment, a literal or the pair that a backslash
begins, is masked up to there.
-/

namespace ApiScaffold.TypeScript

/-! ### Regular expressions -/

/-- The text of a regular expression up to its closing slash, from a place on that lies in a
character class or not. -/
inductive PatternBody : (inClass : Bool) → List Char → Prop
  | nil : PatternBody false []
  | escape {k : Bool} {c : Char} {cs : List Char} (h : PatternBody k cs) :
      PatternBody k ('\\' :: c :: cs)
  | openClass {cs : List Char} (h : PatternBody true cs) : PatternBody false ('[' :: cs)
  | closeClass {cs : List Char} (h : PatternBody false cs) : PatternBody true (']' :: cs)
  | inClass {c : Char} {cs : List Char} (hc : c ∉ ['\\', '\n', ']']) (h : PatternBody true cs) :
      PatternBody true (c :: cs)
  | plain {c : Char} {cs : List Char} (hc : c ∉ ['\\', '\n', '[', '/']) (h : PatternBody false cs) :
      PatternBody false (c :: cs)

/-- A regular expression literal between other parts of a source text. The scan is in code in front
of it, at a place where a slash may open a regular expression, and opens no comment there. -/
structure PatternLiteral (source before body after : List Char) : Prop where
  split : source = before ++ '/' :: (body ++ '/' :: after)
  code : (stateAfter ('/' :: (body ++ '/' :: after)) .start before).mode = .code
  allowed : patternAllowed (stateAfter ('/' :: (body ++ '/' :: after)) .start before) = true
  wellFormed : PatternBody false body
  ne_nil : body ≠ []
  head_ne : body.head? ≠ some '*'

/-- The offset of the opening or the closing slash of a regular expression literal. -/
def PatternSlash (source : List Char) (i : ℕ) : Prop :=
  ∃ before body after, PatternLiteral source before body after ∧
    (i = before.length ∨ i = before.length + 1 + body.length)

section Patterns

variable {k : Bool} {cs source before body after rest : List Char} {c : Char} {n flags i : ℕ}

/-- A character class goes on, or is closed by the character. -/
theorem PatternBody.cons_inClass (hc : c ≠ '\\') (hline : c ≠ '\n')
    (h : PatternBody (c != ']') cs) : PatternBody true (c :: cs) := by
  by_cases hclose : c = ']'
  · subst hclose
    exact .closeClass h
  · rw [bne_iff_ne.2 hclose] at h
    exact .inClass (by simp [hc, hline, hclose]) h

/-- A regular expression ends where a slash follows its text. -/
theorem patternBody_of_length? (h : patternLength? k cs = some n) :
    ∃ body after, cs = body ++ '/' :: after ∧ body.length = n ∧ PatternBody k body := by
  -- An escape takes two characters at once.
  induction hn : cs.length using Nat.strong_induction_on generalizing k cs n with
  | _ size ih =>
    cases cs with
    | nil => cases h
    | cons c cs =>
      rw [List.length_cons] at hn
      by_cases hc : c = '\\'
      · subst hc
        cases cs with
        | nil => cases h
        | cons d ds =>
          rw [List.length_cons] at hn
          obtain ⟨m, hm, rfl⟩ := Option.map_eq_some_iff.1 h
          obtain ⟨body, after, rfl, rfl, hbody⟩ := ih ds.length (by omega) hm rfl
          exact ⟨'\\' :: d :: body, after, rfl, rfl, .escape hbody⟩
      · -- the rest of the text, behind a character that belongs to it
        have later : ∀ {k' m}, (patternLength? k' cs).map (· + 1) = some m →
            (∀ {body}, PatternBody k' body → PatternBody k (c :: body)) →
            ∃ body after, c :: cs = body ++ '/' :: after ∧ body.length = m ∧
              PatternBody k body := by
          intro k' m hm hcons
          obtain ⟨i, hi, rfl⟩ := Option.map_eq_some_iff.1 hm
          obtain ⟨body, after, rfl, rfl, hbody⟩ := ih cs.length (by omega) hi rfl
          exact ⟨c :: body, after, rfl, rfl, hcons hbody⟩
        rw [patternLength?_cons hc] at h
        split_ifs at h with hline hk hopen hslash
        · subst hk
          exact later h fun hbody => hbody.cons_inClass hc hline
        · rw [Bool.not_eq_true] at hk
          subst hk hopen
          exact later h .openClass
        · rw [Bool.not_eq_true] at hk
          subst hk hslash
          exact ⟨[], cs, rfl, Option.some.inj h, .nil⟩
        · rw [Bool.not_eq_true] at hk
          subst hk
          exact later h (.plain (by simp [hc, hline, hopen, hslash]))

/-- The text of a regular expression in front of a slash is found. -/
theorem patternLength?_of_body (h : PatternBody k body) (after : List Char) :
    patternLength? k (body ++ '/' :: after) = some body.length := by
  induction h with
  | nil => rw [List.nil_append, patternLength?_cons (by decide)]; rfl
  | escape _ ih => rw [List.cons_append, List.cons_append, patternLength?, ih]; rfl
  | openClass _ ih => rw [List.cons_append, patternLength?_cons (by decide), ih]; rfl
  | closeClass _ ih =>
    rw [List.cons_append, patternLength?_cons (by decide), bne_self_eq_false, ih]
    rfl
  | @inClass c _ hc _ ih =>
    simp only [List.mem_cons, List.not_mem_nil, or_false, not_or] at hc
    rw [List.cons_append, patternLength?_cons hc.1, if_neg hc.2.1, if_pos rfl,
      bne_iff_ne.2 hc.2.2, ih]
    rfl
  | @plain c _ hc _ ih =>
    simp only [List.mem_cons, List.not_mem_nil, or_false, not_or] at hc
    rw [List.cons_append, patternLength?_cons hc.1, if_neg hc.2.1, if_neg Bool.false_ne_true,
      if_neg hc.2.2.1, if_neg hc.2.2.2, ih]
    rfl

/-- A slash of code opens a regular expression under these conditions. -/
theorem modeAfterCode_eq_pattern {s : ScanState} (h : modeAfterCode s c rest = .pattern n flags) :
    c = '/' ∧ rest.head? ≠ some '/' ∧ rest.head? ≠ some '*' ∧ patternAllowed s = true ∧
      patternLength? false rest = some n := by
  by_cases hc : c = '/'
  · subst hc
    rw [modeAfterCode_slash] at h
    split_ifs at h with h₁ h₂ h₃
    cases hend : patternEnd? rest with
    | none => rw [hend] at h; cases h
    | some lengths =>
      rw [hend] at h
      obtain ⟨m, hm, hlengths⟩ := Option.map_eq_some_iff.1 hend
      subst hlengths
      cases h
      exact ⟨rfl, h₁, h₂, h₃, hm⟩
  · unfold modeAfterCode at h
    rw [if_neg hc] at h
    split_ifs at h

/-- A regular expression is entered from code, or goes on. -/
theorem nextMode_eq_pattern {s : ScanState} (h : nextMode s c rest = .pattern n flags) :
    (s.mode = .code ∧ modeAfterCode s c rest = .pattern n flags) ∨
      s.mode = .pattern (n + 1) flags := by
  unfold nextMode at h
  generalize s.mode = m at h
  cases m with
  | code => exact Or.inl ⟨rfl, h⟩
  | pattern body f =>
    cases body with
    | zero => dsimp only at h; split_ifs at h
    | succ body => cases h; exact Or.inr rfl
  | blockOpen | escaped => cases h
  | _ => dsimp only at h; split_ifs at h

/-- The state behind one character more. -/
theorem stateAfter_concat (r : List Char) (s : ScanState) (t : List Char) (c : Char) :
    stateAfter r s (t ++ [c]) = (stateAfter (c :: r) s t).next c r := by
  rw [stateAfter_append]
  rfl

/-- What a slash of code opens is a regular expression literal. -/
theorem exists_patternLiteral_of_open {done : List Char} (hsource : source = done ++ c :: rest)
    (hcode : (stateAfter (c :: rest) .start done).mode = .code)
    (hopen : modeAfterCode (stateAfter (c :: rest) .start done) c rest = .pattern n flags) :
    ∃ body after, PatternLiteral source done body after ∧ n = body.length := by
  obtain ⟨rfl, hslash, hstar, hallowed, hlength⟩ := modeAfterCode_eq_pattern hopen
  obtain ⟨body, after, rfl, rfl, hbody⟩ := patternBody_of_length? hlength
  refine ⟨body, after, ⟨hsource, hcode, hallowed, hbody, ?_, ?_⟩, rfl⟩
  · rintro rfl
    exact hslash rfl
  · cases body with
    | nil => simp
    | cons d ds => exact hstar

/-- **Inside a regular expression the scan counts** the characters that are left up to the closing
slash. -/
theorem exists_patternLiteral {done : List Char} (hsource : source = done ++ rest)
    (h : (stateAfter rest .start done).mode = .pattern n flags) :
    ∃ before body after, PatternLiteral source before body after ∧
      done.length + n = before.length + 1 + body.length := by
  induction done using List.reverseRecOn generalizing rest n with
  | nil => cases h
  | append_singleton done c ih =>
    rw [List.append_assoc, List.singleton_append] at hsource
    rw [stateAfter_concat] at h
    rw [List.length_append, List.length_singleton]
    rcases nextMode_eq_pattern h with ⟨hcode, hopen⟩ | hpattern
    · obtain ⟨body, after, hliteral, rfl⟩ := exists_patternLiteral_of_open hsource hcode hopen
      exact ⟨done, body, after, hliteral, rfl⟩
    · obtain ⟨before, body, after, hliteral, hlen⟩ := ih hsource hpattern
      exact ⟨before, body, after, hliteral, by omega⟩

/-- The mode behind the opening slash of a regular expression literal. -/
theorem PatternLiteral.exists_open (h : PatternLiteral source before body after) :
    ∃ flags, modeAfterCode (stateAfter ('/' :: (body ++ '/' :: after)) .start before) '/'
      (body ++ '/' :: after) = .pattern body.length flags := by
  obtain ⟨-, -, hallowed, hbody, hne, hstar⟩ := h
  have hhead : (body ++ '/' :: after).head? = body.head? := by
    cases body with
    | nil => exact absurd rfl hne
    | cons d ds => rfl
  have hslash : body.head? ≠ some '/' := by
    intro hd
    cases hbody with
    | nil => exact hne rfl
    | plain hc => exact hc (by simp [Option.some.inj hd])
    | escape | openClass => cases hd
  rw [modeAfterCode_slash, hhead, if_neg hslash, if_neg hstar, if_pos hallowed, patternEnd?,
    patternLength?_of_body hbody, Option.map_some]
  exact ⟨_, rfl⟩

/-- Behind the text of a regular expression the scan waits for its closing slash. -/
theorem stateAfter_patternBody {s : ScanState} (hs : s.mode = .pattern body.length flags)
    (r : List Char) : (stateAfter r s body).mode = .pattern 0 flags := by
  induction body generalizing s with
  | nil => exact hs
  | cons c cs ih =>
    refine ih ?_
    rw [ScanState.next, nextMode, hs]
    rfl

theorem PatternSlash.getElem? (h : PatternSlash source i) : source[i]? = some '/' := by
  obtain ⟨before, body, after, hliteral, rfl | rfl⟩ := h
  · simp [hliteral.split]
  · rw [hliteral.split, List.getElem?_append_right (by omega)]
    simp [show before.length + 1 + body.length - before.length = body.length + 1 by omega]

end Patterns

/-! ### Offsets of the mask -/

section Offsets

variable {source done rest : List Char} {c : Char}

/-- The mask shows at an offset what the scan shows there, in the state behind what comes before. -/
theorem getElem?_mask (h : source = done ++ c :: rest) :
    (mask source)[done.length]? = some (shown (stateAfter (c :: rest) .start done) c rest) := by
  rw [mask, h, maskFrom_append, List.getElem?_append_right (by rw [length_maskBefore]),
    length_maskBefore, Nat.sub_self, maskFrom]
  rfl

/-- What the scan shows for a character: the character, a space in place of another than a line
break, or a quotation mark where a regular expression opens or closes. -/
theorem shown_cases (s : ScanState) (c : Char) (rest : List Char) :
    shown s c rest = c ∨ (shown s c rest = ' ' ∧ c ≠ '\n') ∨
      shown s c rest = '\x22' ∧ ((∃ flags, s.mode = .pattern 0 flags) ∨
        s.mode = .code ∧ ∃ n flags, modeAfterCode s c rest = .pattern n flags) := by
  have hblank : blank c = c ∨ blank c = ' ' ∧ c ≠ '\n' := by
    unfold blank
    split_ifs with hc
    · exact Or.inl hc.symm
    · exact Or.inr ⟨rfl, hc⟩
  unfold shown
  cases hmode : s.mode with
  | code =>
    have hslash : modeAfterCode s c rest ≠ .code → c ≠ '\n' := fun h hc =>
      h (modeAfterCode_of_plain (hc ▸ by decide) s rest)
    dsimp only
    cases hafter : modeAfterCode s c rest with
    | lineComment => exact Or.inr (Or.inl ⟨rfl, hslash (by simp [hafter])⟩)
    | blockOpen => exact Or.inr (Or.inl ⟨rfl, hslash (by simp [hafter])⟩)
    | pattern n flags => exact Or.inr (Or.inr ⟨rfl, Or.inr ⟨rfl, n, flags, rfl⟩⟩)
    | _ => exact Or.inl rfl
  | quoted mark =>
    dsimp only
    split_ifs
    · exact Or.inl rfl
    · exact hblank.imp_right Or.inl
  | escaped mark =>
    dsimp only
    split_ifs
    · exact Or.inl rfl
    · exact hblank.imp_right Or.inl
  | pattern n flags =>
    cases n with
    | zero => exact Or.inr (Or.inr ⟨rfl, Or.inl ⟨flags, rfl⟩⟩)
    | succ n => exact hblank.imp_right Or.inl
  | _ => exact hblank.imp_right Or.inl

/-- What the mask shows at the offset of a character. -/
theorem mask_cases {i : ℕ} (h : source[i]? = some c) :
    (mask source)[i]? = some c ∨ ((mask source)[i]? = some ' ' ∧ c ≠ '\n') ∨
      ((mask source)[i]? = some '\x22' ∧ c = '/' ∧ PatternSlash source i) := by
  obtain ⟨hi, rfl⟩ := List.getElem?_eq_some_iff.1 h
  have hsplit : source = source.take i ++ source[i] :: source.drop (i + 1) := by
    rw [List.getElem_cons_drop, List.take_append_drop]
  have hlen : (source.take i).length = i := List.length_take_of_le hi.le
  have hmask := getElem?_mask hsplit
  have hcases := shown_cases
    (stateAfter (source[i] :: source.drop (i + 1)) .start (source.take i)) source[i]
    (source.drop (i + 1))
  rw [hlen] at hmask
  rw [hmask, Option.some.injEq, Option.some.injEq, Option.some.injEq]
  refine hcases.imp_right (Or.imp_right fun ⟨hshown, hmode⟩ => ⟨hshown, ?_⟩)
  have hslash : PatternSlash source i := by
    rcases hmode with ⟨flags, hpattern⟩ | ⟨hcode, n, flags, hopen⟩
    · obtain ⟨before, body, after, hliteral, hend⟩ := exists_patternLiteral hsplit hpattern
      exact ⟨before, body, after, hliteral, Or.inr (by omega)⟩
    · obtain ⟨body, after, hliteral, -⟩ := exists_patternLiteral_of_open hsplit hcode hopen
      exact ⟨_, body, after, hliteral, Or.inl hlen.symm⟩
  exact ⟨Option.some.inj (h.symm.trans hslash.getElem?), hslash⟩

/-- The mask shows a quotation mark for either slash of a regular expression literal. -/
theorem PatternSlash.getElem?_mask {i : ℕ} (h : PatternSlash source i) :
    (mask source)[i]? = some '\x22' := by
  obtain ⟨before, body, after, hliteral, hi⟩ := h
  obtain ⟨flags, hopen⟩ := hliteral.exists_open
  have hcode := hliteral.code
  rcases hi with rfl | rfl
  · rw [TypeScript.getElem?_mask hliteral.split, shown, hcode]
    dsimp only
    rw [hopen]
  · have hsplit : source = (before ++ '/' :: body) ++ '/' :: after := by
      rw [hliteral.split]
      simp
    have hlen : before.length + 1 + body.length = (before ++ '/' :: body).length := by
      simp
      omega
    have hmode : (stateAfter ('/' :: after) .start (before ++ '/' :: body)).mode =
        .pattern 0 flags := by
      rw [stateAfter_append, stateAfter]
      refine stateAfter_patternBody ?_ _
      rw [ScanState.next, nextMode, List.cons_append, hcode]
      exact hopen
    rw [hlen, TypeScript.getElem?_mask hsplit, shown, hmode]
    rfl

/-- **What the mask of a text shows:** it has the length of the text and its line breaks; anywhere
else it shows the character of the text, a space, or a quotation mark where a regular expression
literal has one of its slashes. It does so for both slashes of every such literal. -/
theorem mask_offsets (source : List Char) :
    (mask source).length = source.length ∧
      (∀ i : ℕ, (mask source)[i]? = some '\n' ↔ source[i]? = some '\n') ∧
      (∀ (i : ℕ) (c : Char), source[i]? = some c → c ≠ '\n' →
        (mask source)[i]? = some c ∨ (mask source)[i]? = some ' ' ∨
          ((mask source)[i]? = some '\x22' ∧ c = '/' ∧ PatternSlash source i)) ∧
      ∀ i : ℕ, PatternSlash source i → (mask source)[i]? = some '\x22' := by
  refine ⟨length_mask source, fun i => ?_, fun i c h _ => ?_, fun i h => h.getElem?_mask⟩
  · cases h : source[i]? with
    | none =>
      have hnone : (mask source)[i]? = none := by
        rw [List.getElem?_eq_none_iff, length_mask]
        exact List.getElem?_eq_none_iff.1 h
      simp [hnone]
    | some c =>
      rcases mask_cases h with hm | ⟨hm, hc⟩ | ⟨hm, rfl, -⟩
      · rw [hm]
      · simp [hm, hc]
      · simp [hm]
  · rcases mask_cases h with hm | ⟨hm, -⟩ | hm
    · exact Or.inl hm
    · exact Or.inr (Or.inl hm)
    · exact Or.inr (Or.inr hm)

end Offsets

/-! ### The state in front of an offset -/

/-- The state of the scan in front of an offset. -/
def stateAt (source : List Char) (i : ℕ) : ScanState :=
  stateAfter (source.drop i) .start (source.take i)

section States

variable {source : List Char} {c : Char} {i : ℕ}

theorem stateAt_succ (h : source[i]? = some c) :
    stateAt source (i + 1) = (stateAt source i).next c (source.drop (i + 1)) := by
  obtain ⟨hi, rfl⟩ := List.getElem?_eq_some_iff.1 h
  rw [stateAt, stateAt, List.take_add_one, h, Option.toList_some, stateAfter_concat,
    ← List.drop_eq_getElem_cons hi]

theorem getElem?_mask_eq_shown (h : source[i]? = some c) :
    (mask source)[i]? = some (shown (stateAt source i) c (source.drop (i + 1))) := by
  obtain ⟨hi, rfl⟩ := List.getElem?_eq_some_iff.1 h
  have hsplit : source = source.take i ++ source[i] :: source.drop (i + 1) := by
    rw [List.getElem_cons_drop, List.take_append_drop]
  have hmask := getElem?_mask hsplit
  rwa [List.length_take_of_le hi.le, List.getElem_cons_drop] at hmask

/-- The mask of a text is that of its front part, and then that of the rest, from the state in which
the scan comes to it. -/
theorem mask_split (source : List Char) (i : ℕ) :
    mask source = maskBefore (source.drop i) .start (source.take i) ++
      maskFrom (stateAt source i) (source.drop i) := by
  have hsplit := maskFrom_append .start (source.take i) (source.drop i)
  rwa [List.take_append_drop] at hsplit

theorem length_mask_front (source : List Char) (i : ℕ) :
    (maskBefore (source.drop i) .start (source.take i)).length = min i (mask source).length := by
  rw [length_maskBefore, List.length_take, length_mask]

theorem take_mask (source : List Char) (i : ℕ) :
    (mask source).take i = maskBefore (source.drop i) .start (source.take i) := by
  rw [List.take_eq_take_min, ← length_mask_front]
  conv_lhs => rw [mask_split source i]
  exact List.take_left

theorem drop_mask (source : List Char) (i : ℕ) :
    (mask source).drop i = maskFrom (stateAt source i) (source.drop i) := by
  rw [List.drop_eq_drop_min, ← length_mask_front]
  conv_lhs => rw [mask_split source i]
  exact List.drop_left

theorem literalProblems_split (source : List Char) (i : ℕ) :
    literalProblems source = problemsBefore (source.drop i) .start (source.take i) ++
      literalProblemsFrom (stateAt source i) (source.drop i) := by
  have hsplit := literalProblemsFrom_append .start (source.take i) (source.drop i)
  rwa [List.take_append_drop] at hsplit

end States

end ApiScaffold.TypeScript
