import ApiScaffold.Proofs.Naming.Casing

/-!
# The singular of a name

The singular of a name is meant to differ from the name in its last word only. The last word is that
of the letters at the end of the name, and a line feed may stand behind them.

* `EndsInWord`: a name, its last word, what stands in front of the word and the line feed behind it;
* `IsLetterWord.singularWord`: a word of letters becomes a word of letters;
* `EndsInWord.singular_eq`: what becomes of the name. A line feed behind the word is lost, and if
  other words stand in the run of letters, the first letter of the word comes twice;
* `singular_inflects_iff`: so just the last word is inflected exactly if no line feed follows it.
-/

namespace ApiScaffold.Naming

variable {cs front w n : List Char}

/-! ### Words of letters -/

/-- A text of letters, at least one. -/
def IsLetterWord (w : List Char) : Prop := w ≠ [] ∧ ∀ c ∈ w, c.isAlpha = true

theorem isAlphanum_of_isAlpha {c : Char} (h : c.isAlpha = true) : c.isAlphanum = true := by
  rw [Char.isAlphanum, h, Bool.true_or]

theorem IsLetterWord.append {x : List Char} (hw : ∀ c ∈ w, c.isAlpha = true) (hx : IsLetterWord x) :
    IsLetterWord (w ++ x) :=
  ⟨fun h => hx.1 (List.append_eq_nil_iff.1 h).2, fun c hc =>
    (List.mem_append.1 hc).elim (hw c) (hx.2 c)⟩

/-- What is left of a word that is long enough is a word. -/
theorem IsLetterWord.dropLast (hw : IsLetterWord w) {k : ℕ} (hk : k < w.length) :
    IsLetterWord (dropLast k w) := by
  refine ⟨List.ne_nil_of_length_pos ?_, fun c hc => hw.2 c (List.mem_of_mem_take hc)⟩
  rw [Naming.dropLast, List.length_take]
  omega

theorem isLetterWord_irregular : ∀ p ∈ irregularSingulars, IsLetterWord p.2.toList := by
  simp [irregularSingulars, IsLetterWord]

/-- **The singular of a word** is a word. -/
theorem IsLetterWord.singularWord (hw : IsLetterWord w) : IsLetterWord (singularWord w) := by
  have hlen : (lower w).length = w.length := List.length_map _
  unfold Naming.singularWord
  dsimp only
  split
  · next s hs =>
    obtain ⟨_, _, hsplit, -⟩ := List.lookup_eq_some_iff.1 hs
    have hword : IsLetterWord s.toList :=
      isLetterWord_irregular (String.ofList (lower w), s) (by simp [hsplit])
    split_ifs
    · -- The first letter is that of the word itself.
      obtain ⟨c, cs, rfl⟩ := List.exists_cons_of_ne_nil hw.1
      refine ⟨by simp, fun d hd => ?_⟩
      rcases List.mem_append.1 hd with hd | hd
      · exact hw.2 d (List.mem_of_mem_take hd)
      · exact hword.2 d (List.mem_of_mem_drop hd)
    · exact hword
  · split_ifs with hkept
    · exact hw
    · exact .append (fun c hc => hw.2 c (List.mem_of_mem_take hc)) ⟨by simp, by simp⟩
    · exact .append (fun c hc => hw.2 c (List.mem_of_mem_take hc)) ⟨by simp, by simp⟩
    -- What is left of a word that was cut short is a word, since it had three letters.
    all_goals
      have hthree : 3 ≤ w.length := by
        simp only [Bool.or_eq_true, decide_eq_true_eq, not_or] at hkept
        omega
    · exact hw.dropLast (by omega)
    · exact hw
    · exact hw.dropLast (by omega)
    · exact hw

/-! ### The last word of a name -/

/-- The run of letters at the end of a text. -/
def lettersAtEnd (cs : List Char) : List Char := Text.takeSuffixWhile Char.isAlpha cs

theorem isAlpha_of_mem_lettersAtEnd {c : Char} (hc : c ∈ lettersAtEnd cs) : c.isAlpha = true :=
  List.all_eq_true.1 (Text.all_takeSuffixWhile Char.isAlpha cs) c hc

/-- The name is `front`, its last word `w` and at most a line feed `n`: the word is the last one of
the letters that end in front of `n`. -/
structure EndsInWord (cs front w n : List Char) : Prop where
  eq : cs = front ++ w ++ n
  feed : n = [] ∨ n = ['\n']
  last : (splitWords (lettersAtEnd (front ++ w))).getLast? = some w

/-- Letters are the words that they are split into. -/
theorem flatten_splitWords_lettersAtEnd (cs : List Char) :
    (splitWords (lettersAtEnd cs)).flatten = lettersAtEnd cs := by
  rw [flatten_splitWords, List.filter_eq_self]
  exact fun c hc => isAlphanum_of_isAlpha (isAlpha_of_mem_lettersAtEnd hc)

/-- The last of the words, and those in front of it. -/
theorem exists_words (h : (splitWords (lettersAtEnd cs)).getLast? = some w) :
    ∃ ws, splitWords (lettersAtEnd cs) = ws ++ [w] ∧ lettersAtEnd cs = ws.flatten ++ w ∧
      IsLetterWord w := by
  obtain ⟨ws, hws⟩ := List.getLast?_eq_some_iff.1 h
  have hrun : lettersAtEnd cs = ws.flatten ++ w := by
    rw [← flatten_splitWords_lettersAtEnd, hws, List.flatten_append, List.flatten_singleton]
  refine ⟨ws, hws, hrun, fun hnil => ?_, fun c hc => ?_⟩
  · exact nil_notMem_splitWords (lettersAtEnd cs) (by simp [hws, hnil])
  · exact @isAlpha_of_mem_lettersAtEnd cs c (hrun ▸ List.mem_append_right _ hc)

/-- A text without the line feed at its end, and the line feed. -/
theorem exists_feed (cs : List Char) :
    ∃ n, (n = [] ∨ n = ['\n']) ∧ cs = withoutFinalLineFeed cs ++ n := by
  unfold withoutFinalLineFeed
  split_ifs with hfeed
  · exact ⟨['\n'], .inr rfl, (List.dropLast_append_getLast? _ hfeed).symm⟩
  · exact ⟨[], .inl rfl, (List.append_nil cs).symm⟩

/-- A name that ends in letters has a last word. -/
theorem exists_endsInWord (hne : finalLetters cs ≠ []) : ∃ front w n, EndsInWord cs front w n := by
  change lettersAtEnd (withoutFinalLineFeed cs) ≠ [] at hne
  obtain ⟨n, hn, hcs⟩ := exists_feed cs
  generalize withoutFinalLineFeed cs = text at hne hcs
  cases hlast : (splitWords (lettersAtEnd text)).getLast? with
  | none =>
    rw [← flatten_splitWords_lettersAtEnd, List.getLast?_eq_none_iff.1 hlast] at hne
    exact absurd rfl hne
  | some w =>
    obtain ⟨ws, -, hrun, -⟩ := exists_words hlast
    have htext : Text.dropSuffixWhile Char.isAlpha text ++ ws.flatten ++ w = text := by
      rw [List.append_assoc, ← hrun]
      exact Text.dropSuffixWhile_append_takeSuffixWhile Char.isAlpha text
    exact ⟨_, w, n, by rw [htext, ← hcs], hn, by rw [htext, hlast]⟩

theorem dropLast_append (front back : List Char) :
    dropLast back.length (front ++ back) = front := by
  rw [dropLast, List.length_append, Nat.add_sub_cancel, List.take_left]

namespace EndsInWord

theorem isLetterWord (h : EndsInWord cs front w n) : IsLetterWord w := by
  obtain ⟨-, -, -, hw⟩ := exists_words h.last
  exact hw

theorem withoutFinalLineFeed_eq (h : EndsInWord cs front w n) :
    withoutFinalLineFeed cs = front ++ w := by
  obtain ⟨ds, d, hw⟩ := (List.eq_nil_or_concat' w).resolve_left h.isLetterWord.1
  have hletter : d.isAlpha = true := h.isLetterWord.2 d (by simp [hw])
  have hd : d ≠ '\n' := by
    rintro rfl
    exact absurd hletter (by decide)
  rw [h.eq, withoutFinalLineFeed]
  rcases h.feed with rfl | rfl
  · rw [List.append_nil, hw, ← List.append_assoc, List.getLast?_concat, if_neg (by simpa using hd)]
  · rw [List.getLast?_concat, if_pos rfl, List.dropLast_concat]

theorem finalLetters_eq (h : EndsInWord cs front w n) :
    finalLetters cs = lettersAtEnd (front ++ w) := by
  rw [finalLetters, h.withoutFinalLineFeed_eq, lettersAtEnd]

/-- What is cut off at the very end of a name is as long as its last word. If a line feed stands
behind the word, the first letter of the word is left. -/
theorem dropLast_eq (h : EndsInWord cs front w n) :
    dropLast w.length cs = front ++ if n = [] then [] else w.take 1 := by
  obtain ⟨c, ds, rfl⟩ := List.exists_cons_of_ne_nil h.isLetterWord.1
  rw [h.eq]
  rcases h.feed with rfl | rfl
  · rw [List.append_nil, dropLast_append, if_pos rfl, List.append_nil]
  · have hback : front ++ c :: ds ++ ['\n'] = front ++ [c] ++ (ds ++ ['\n']) := by simp
    have hlen : (c :: ds).length = (ds ++ ['\n']).length := by simp
    rw [hback, hlen, dropLast_append]
    rfl

/-- **What becomes of a name,** by its last word: a line feed behind the word is lost, and if other
words stand among the letters, the first letter of the word comes twice. -/
theorem singular_eq (h : EndsInWord cs front w n) :
    singular cs = front ++
      (if n ≠ [] ∧ 1 < (splitWords (lettersAtEnd (front ++ w))).length then w.take 1 else []) ++
      singularWord w := by
  obtain ⟨ws, hws, hrun, hw⟩ := exists_words h.last
  have hne : ¬(finalLetters cs).isEmpty := by
    rw [h.finalLetters_eq, hrun]
    simp [hw.1]
  unfold singular
  dsimp only
  rw [if_neg hne, h.finalLetters_eq, hws]
  cases ws with
  | nil =>
    -- One word: the letters are cut off, and the line feed with them.
    rw [List.flatten_nil, List.nil_append] at hrun
    rw [h.withoutFinalLineFeed_eq, hrun, dropLast_append]
    simp
  | cons v vs =>
    obtain ⟨u, us, hus⟩ := List.exists_cons_of_ne_nil (show vs ++ [w] ≠ [] by simp)
    have hmany : v :: vs ++ [w] = v :: u :: us := by rw [List.cons_append, hus]
    have hlast : (v :: u :: us).getLastD [] = w := by rw [← hmany, List.getLastD_concat]
    rw [hmany]
    dsimp only
    rw [hlast, h.dropLast_eq]
    by_cases hn : n = [] <;> simp [hn]

/-- The word alone is inflected exactly if no line feed follows it. -/
theorem singular_eq_iff (h : EndsInWord cs front w n) :
    singular cs = front ++ singularWord w ++ n ↔ n = [] := by
  rw [h.singular_eq]
  constructor
  · intro heq
    refine h.feed.resolve_right fun hfeed => ?_
    rw [hfeed, List.append_assoc, List.append_assoc, List.append_cancel_left_eq] at heq
    -- A line feed would be among letters.
    have hmem : '\n' ∈ w ++ singularWord w := by
      have hin : '\n' ∈ singularWord w ++ ['\n'] := by simp
      rw [← heq] at hin
      refine (List.mem_append.1 hin).elim (fun hl => List.mem_append_left _ ?_)
        (List.mem_append_right _)
      split_ifs at hl
      · exact List.mem_of_mem_take hl
      · cases hl
    have hletters := (IsLetterWord.append h.isLetterWord.2 h.isLetterWord.singularWord).2
    exact absurd (hletters _ hmem) (by decide)
  · rintro rfl
    simp

end EndsInWord

theorem singular_of_no_letters (h : finalLetters cs = []) : singular cs = cs := by
  simp [singular, h]

/-- **Only the last word of a name is inflected,** unless a line feed follows it: then the line feed
is lost, and the first letter of the word comes twice if it is not the only word of its letters. A
name with no letters in front of its end, or of a line feed at its end, stays as it is. -/
theorem singular_inflects_iff (cs : List Char) :
    (∀ front w n, EndsInWord cs front w n →
      (singular cs = front ++ singularWord w ++ n ↔ n = []) ∧
        singular cs = front ++
          (if n ≠ [] ∧ 1 < (splitWords (lettersAtEnd (front ++ w))).length then w.take 1 else []) ++
          singularWord w) ∧
      ((∀ front n, cs = front ++ n → n = [] ∨ n = ['\n'] → lettersAtEnd front = []) →
        singular cs = cs) := by
  refine ⟨fun front w n h => ⟨h.singular_eq_iff, h.singular_eq⟩, fun h => ?_⟩
  obtain ⟨n, hn, hcs⟩ := exists_feed cs
  exact singular_of_no_letters (h _ n hcs hn)

/-- Three names: the last of two words, the same in front of a line feed, and a number. -/
theorem singular_inflects_iff_petIds :
    EndsInWord "petIds".toList "pet".toList "Ids".toList [] ∧
      singular "petIds".toList = "petId".toList ∧
      EndsInWord "petIds\n".toList "pet".toList "Ids".toList ['\n'] ∧
      singular "petIds\n".toList = "petIId".toList ∧
      (∀ front n, "pets1".toList = front ++ n → n = [] ∨ n = ['\n'] → lettersAtEnd front = []) ∧
      singular "pets1".toList = "pets1".toList := by
  have hplain : EndsInWord "petIds".toList "pet".toList "Ids".toList [] :=
    ⟨by decide, .inl rfl, by decide⟩
  have hfeed : EndsInWord "petIds\n".toList "pet".toList "Ids".toList ['\n'] :=
    ⟨by decide, .inr rfl, by decide⟩
  have hnone : ∀ front n, "pets1".toList = front ++ n → n = [] ∨ n = ['\n'] →
      lettersAtEnd front = [] := by
    rintro front n heq (rfl | rfl)
    · rw [List.append_nil] at heq
      rw [← heq]
      decide
    · have hlast := congrArg List.getLast? heq
      rw [List.getLast?_concat] at hlast
      exact absurd hlast (by decide)
  refine ⟨hplain, ?_, hfeed, ?_, hnone, (singular_inflects_iff _).2 hnone⟩
  · rw [(((singular_inflects_iff _).1 _ _ _ hplain).1).2 rfl]
    decide
  · rw [((singular_inflects_iff _).1 _ _ _ hfeed).2]
    decide

/-- **A letter repeated and a line feed dropped:** neither belongs to the last word. -/
theorem lineFeed_not_kept :
    EndsInWord "petIds\n".toList "pet".toList "Ids".toList ['\n'] ∧
      singular "petIds\n".toList ≠ "pet".toList ++ singularWord "Ids".toList ++ ['\n'] ∧
      singular "petIds\n".toList = "petIId".toList ∧ singular "pets\n".toList = "pet".toList :=
  ⟨⟨by decide, .inr rfl, by decide⟩, by decide, by decide, by decide⟩

end ApiScaffold.Naming
