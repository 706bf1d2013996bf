import ApiScaffold.Proofs.TypeScript.Balance
import ApiScaffold.Proofs.TypeScript.Scan

/-!
# Texts between the braces of a method

A text fits between the braces of a method if, alone between braces on a line of its own, it is
balanced and the brace in front of it closes behind it.

* `Fits` says so, `maskedBody` is the mask of such a text;
* `Fits.piece`: put between braces anywhere in code, the text has this mask and leaves code behind,
  as long as the line ends with the closing brace;
* `Fits.neutral`: brackets outside are not affected by it;
* `Fits.of_piece`: a piece of code with a neutral mask fits.

The second condition cannot be dropped: `} other() {` is balanced between braces, but closes the one
in front of it early.
-/

namespace ApiScaffold.TypeScript

/-- A text between braces, on a line of its own. -/
def enclosed (t : List Char) : List Char := '\x7b' :: (t ++ ['\x7d', '\n'])

/-- The text is balanced between braces, and the brace in front of it closes behind it. -/
structure Fits (t : List Char) : Prop where
  balanced : balanceProblems (enclosed t) = []
  closes : closingOffset? (mask (enclosed t)) = some (t.length + 1)

/-- The state behind the brace in front of a text. -/
def bodyStart (t : List Char) : ScanState := ScanState.start.next '\x7b' (t ++ ['\x7d', '\n'])

/-- The mask of a text between braces. -/
def maskedBody (t : List Char) : List Char := maskBefore ['\x7d', '\n'] (bodyStart t) t

@[simp] theorem length_maskedBody (t : List Char) : (maskedBody t).length = t.length :=
  length_maskBefore _ _ t

variable {t m : List Char}

theorem isPlainCode_openingBrace : isPlainCode '\x7b' = true := by decide

theorem isPlainCode_closingBrace : isPlainCode '\x7d' = true := by decide

/-- Behind an opening brace, code goes on. -/
theorem mode_next_of_plain {s : ScanState} {c : Char} (hs : s.mode = .code)
    (hc : isPlainCode c = true) (r : List Char) : (s.next c r).mode = .code := by
  rw [ScanState.next, nextMode, hs, modeAfterCode_of_plain hc]

theorem shown_of_plain {s : ScanState} {c : Char} (hs : s.mode = .code)
    (hc : isPlainCode c = true) (r : List Char) : shown s c r = c := by
  rw [shown, hs, modeAfterCode_of_plain hc]

theorem mask_enclosed (t : List Char) :
    mask (enclosed t) =
      '\x7b' :: (maskedBody t ++
        maskFrom (stateAfter ['\x7d', '\n'] (bodyStart t) t) ['\x7d', '\n']) := by
  rw [mask, enclosed, maskFrom, maskFrom_append, shown_of_plain rfl isPlainCode_openingBrace]
  rfl

theorem literalProblems_enclosed (t : List Char) :
    literalProblems (enclosed t) =
      problemsBefore ['\x7d', '\n'] (bodyStart t) t ++
        literalProblemsFrom (stateAfter ['\x7d', '\n'] (bodyStart t) t) ['\x7d', '\n'] := by
  rw [literalProblems, enclosed, literalProblemsFrom, literalProblemsFrom_append]
  rfl

/-! ### Quotation marks -/

/-- A mode inside a string literal knows the quotation mark that began it. -/
def Mode.Marked : Mode → Prop
  | .quoted mark _ => isQuote mark = true
  | .escaped mark _ => isQuote mark = true
  | _ => True

theorem marked_modeAfterCode (s : ScanState) (c : Char) (r : List Char) :
    (modeAfterCode s c r).Marked := by
  by_cases hquote : isQuote c = true
  · simp only [modeAfterCode, hquote, if_true]
    exact hquote
  · by_cases hslash : c = '/'
    · rw [hslash, modeAfterCode_slash]
      split_ifs
      · trivial
      · trivial
      · split <;> trivial
      · trivial
    · simp [modeAfterCode, hquote, hslash, Mode.Marked]

theorem marked_nextMode {s : ScanState} (h : s.mode.Marked) (c : Char) (r : List Char) :
    (nextMode s c r).Marked := by
  unfold nextMode
  generalize s.mode = m at h
  cases m with
  | code => exact marked_modeAfterCode s c r
  | lineComment => dsimp only; split_ifs <;> trivial
  | blockOpen line => trivial
  | block line star => dsimp only; split_ifs <;> trivial
  | quoted mark line => dsimp only; split_ifs <;> trivial
  | escaped mark line => exact h
  | pattern body flags => cases body <;> dsimp only <;> (try split_ifs) <;> trivial
  | patternFlags count => dsimp only; split_ifs <;> trivial

theorem marked_stateAfter {s : ScanState} (h : s.mode.Marked) (r t : List Char) :
    (stateAfter r s t).mode.Marked := by
  induction t generalizing s with
  | nil => exact h
  | cons c cs ih => exact ih (marked_nextMode h c _)

/-- A character that is neither a quotation mark, a space nor a line break is shown nowhere but in
code. -/
theorem mode_eq_code_of_shown {s : ScanState} (h : s.mode.Marked) {c d : Char}
    (hquote : isQuote d = false) (hspace : d ≠ ' ') (hline : d ≠ '\n') {r : List Char}
    (hshown : shown s c r = d) : s.mode = .code := by
  unfold shown at hshown
  generalize s.mode = m at h hshown
  have hblank : blank c ≠ d := by
    unfold blank
    split_ifs
    · exact hline.symm
    · exact hspace.symm
  cases m with
  | code => rfl
  | quoted mark line =>
    dsimp only at hshown
    split_ifs at hshown with hmark
    · have hd : isQuote d = true := hshown ▸ hmark ▸ h
      rw [hquote] at hd
      cases hd
    · exact (hblank hshown).elim
  | escaped mark line =>
    dsimp only at hshown
    split_ifs at hshown with hmark
    · simp only [Bool.and_eq_true, beq_iff_eq] at hmark
      have hd : isQuote d = true := hshown ▸ hmark.2 ▸ h
      rw [hquote] at hd
      cases hd
    · exact (hblank hshown).elim
  | pattern body flags =>
    cases body with
    | zero =>
      have hd : isQuote '\x22' = false := (show '\x22' = d from hshown) ▸ hquote
      exact absurd hd (by decide)
    | succ n => exact (hblank hshown).elim
  | _ => exact (hblank hshown).elim

theorem SameMode.eq_code {m : Mode} (h : SameMode .code m) : m = .code := by
  cases h
  rfl

/-! ### Texts that fit -/

namespace Fits

/-- The closing brace behind the text belongs to the code. -/
theorem mode_eq_code (h : Fits t) : (stateAfter ['\x7d', '\n'] (bodyStart t) t).mode = .code := by
  have hcloses := h.closes
  rw [mask_enclosed, closingOffset?] at hcloses
  obtain ⟨n, hn, hlen⟩ := Option.map_eq_some_iff.1 hcloses
  obtain rfl : n = t.length := by omega
  have hbrace := getElem?_closingFrom hn
  rw [List.getElem?_append_right (by simp), length_maskedBody, Nat.sub_self] at hbrace
  have hmarked : (bodyStart t).mode.Marked := by
    have hcode : (bodyStart t).mode = .code := mode_next_of_plain rfl isPlainCode_openingBrace _
    rw [hcode]
    trivial
  exact mode_eq_code_of_shown (marked_stateAfter hmarked ['\x7d', '\n'] t) (by decide) (by decide)
    (by decide) (Option.some.inj hbrace)

theorem problems_eq_nil (h : Fits t) : problemsBefore ['\x7d', '\n'] (bodyStart t) t = [] := by
  have hliteral := (List.append_eq_nil_iff.1 h.balanced).1
  rw [literalProblems_enclosed] at hliteral
  exact (List.append_eq_nil_iff.1 hliteral).1

/-- The mask of the whole line. -/
theorem mask_enclosed_eq (h : Fits t) :
    mask (enclosed t) = '\x7b' :: (maskedBody t ++ ['\x7d', '\n']) := by
  have hmode := h.mode_eq_code
  rw [mask_enclosed, maskFrom, maskFrom, maskFrom, shown_of_plain hmode (by decide),
    shown_of_plain (mode_next_of_plain hmode (by decide) _) (by decide)]

/-- **A text that fits is masked the same wherever it stands** between braces, provided that the
line ends with the closing brace. -/
theorem piece (h : Fits t) :
    Piece ('\x7b' :: (t ++ ['\x7d'])) ('\x7b' :: (maskedBody t ++ ['\x7d']))
      (fun r => ∃ r', r = '\n' :: r') := by
  rintro s _ hs ⟨r, rfl⟩
  -- The states behind the two braces differ in what comes before the brace alone.
  have halike : Alike (bodyStart t) (s.next '\x7b' (t ++ ['\x7d'] ++ '\n' :: r)) := by
    refine ⟨?_, ?_, Or.inr ⟨[], [], s.recent.take 31, rfl, rfl⟩⟩
    · rw [bodyStart, mode_next_of_plain rfl isPlainCode_openingBrace,
        mode_next_of_plain hs isPlainCode_openingBrace]
      exact .refl _
    · have hlast : ∀ s' : ScanState, s'.mode = .code →
          ∀ r', nextLast s' '\x7b' r' = some '\x7b' := by
        intro s' hs' r'
        rw [nextLast, hs', modeAfterCode_of_plain isPlainCode_openingBrace]
        rfl
      exact (hlast .start rfl (t ++ ['\x7d', '\n'])).trans
        (hlast s hs (t ++ ['\x7d'] ++ '\n' :: r)).symm
  obtain ⟨h₁, h₂, h₃⟩ := alike_scan halike t [] r
  have hmode : (stateAfter (['\x7d'] ++ '\n' :: r)
      (s.next '\x7b' (t ++ ['\x7d'] ++ '\n' :: r)) t).mode = .code := by
    have hsame := h₂.mode
    rw [h.mode_eq_code] at hsame
    exact hsame.eq_code
  refine ⟨?_, ?_, ?_⟩
  · have hmask : maskBefore (['\x7d'] ++ '\n' :: r)
        (s.next '\x7b' (t ++ ['\x7d'] ++ '\n' :: r)) t = maskedBody t := h₁.symm
    rw [maskBefore, maskBefore_append, shown_of_plain hs isPlainCode_openingBrace, hmask,
      maskBefore, maskBefore, shown_of_plain hmode isPlainCode_closingBrace]
  · rw [stateAfter, stateAfter_append, stateAfter, stateAfter,
      mode_next_of_plain hmode isPlainCode_closingBrace]
  · have hproblems : problemsBefore (['\x7d'] ++ '\n' :: r)
        (s.next '\x7b' (t ++ ['\x7d'] ++ '\n' :: r)) t = [] := h₃.1 h.problems_eq_nil
    rw [problemsBefore, problemsBefore_append, hproblems, problemsBefore, problemsBefore,
      lineEndProblem, hs, lineEndProblem, hmode]
    rfl

/-- The brace in front of the text closes behind it. -/
theorem closing (h : Fits t) (r : List Char) :
    closingFrom '\x7b' '\x7d' 1 (maskedBody t ++ '\x7d' :: r) = some t.length := by
  have hcloses := h.closes
  rw [h.mask_enclosed_eq, closingOffset?] at hcloses
  obtain ⟨n, hn, hlen⟩ := Option.map_eq_some_iff.1 hcloses
  obtain rfl : n = t.length := by omega
  have hsplit : ∀ r : List Char, maskedBody t ++ '\x7d' :: r = (maskedBody t ++ ['\x7d']) ++ r := by
    intro r
    rw [List.append_assoc, List.singleton_append]
  rw [hsplit ['\n']] at hn
  rw [hsplit r]
  exact closingFrom_congr hn (by simp) r

theorem brackets_body (h : Fits t) : brackets ['\x7b'] (maskedBody t) = some ['\x7b'] := by
  have hbalanced := (List.append_eq_nil_iff.1 h.balanced).2
  rw [h.mask_enclosed_eq, bracketProblems_eq_nil_iff, List.map_nil, brackets,
    if_pos (by decide), brackets_append] at hbalanced
  obtain ⟨os, hos, hend⟩ := Option.bind_eq_some_iff.1 hbalanced
  -- The closing brace takes the last open one away, and then none is left.
  cases os with
  | nil => simp [brackets, popBracket, closerOf?, isCloser] at hend
  | cons o rest =>
    rw [brackets, if_neg (by decide), if_pos (by decide), popBracket] at hend
    split_ifs at hend with ho
    · have hrest : rest = [] := by
        simpa [brackets, closerOf?, isCloser] using hend
      have hbrace : o = '\x7b' := by
        unfold closerOf? at ho
        split_ifs at ho with h₁ h₂ h₃
        · exact absurd (Option.some.inj ho) (by decide)
        · exact absurd (Option.some.inj ho) (by decide)
        · exact h₃
      rw [hos, hrest, hbrace]
    · simp at hend

/-- Brackets around a text that fits are not affected by it. -/
theorem neutral (h : Fits t) : Neutral ('\x7b' :: (maskedBody t ++ ['\x7d'])) := by
  refine ⟨fun os => ?_, fun d r hd => ?_⟩
  · have hframe := brackets_frame h.brackets_body os
    rw [brackets, if_pos (by decide), brackets_append]
    rw [List.singleton_append] at hframe
    rw [hframe, Option.bind_some]
    simp [brackets, popBracket, closerOf?, isCloser]
  · have hadd := closingFrom_add (h.closing r) (le_refl 1) hd
    have hdrop : (maskedBody t ++ '\x7d' :: r).drop (t.length + 1) = r := by
      rw [List.drop_append, length_maskedBody, List.drop_eq_nil_of_le (by simp),
        Nat.add_sub_cancel_left]
      rfl
    have hlen : t.length + 1 + 1 = ('\x7b' :: (maskedBody t ++ ['\x7d'])).length := by simp
    rw [List.cons_append, List.append_assoc, List.singleton_append, closingFrom, if_pos rfl,
      Nat.add_comm d 1, hadd, hdrop, map_add_map_add, hlen]

end Fits

/-- A piece of code with a neutral mask fits between the braces of a method. -/
theorem Fits.of_piece {P : List Char → Prop} (h : Piece t m P) (hP : P ['\x7d', '\n'])
    (hm : Neutral m) : Fits t ∧ maskedBody t = m := by
  have hlen : m.length = t.length := by
    rw [← (h .start _ rfl hP).1, length_maskBefore]
  have hmode : (bodyStart t).mode = .code := mode_next_of_plain rfl isPlainCode_openingBrace _
  obtain ⟨hmask, hafter, hproblems⟩ := h (bodyStart t) _ hmode hP
  have henclosed : mask (enclosed t) = '\x7b' :: (m ++ ['\x7d', '\n']) := by
    rw [mask_enclosed, maskedBody, hmask, maskFrom, maskFrom, maskFrom,
      shown_of_plain hafter isPlainCode_closingBrace,
      shown_of_plain (mode_next_of_plain hafter isPlainCode_closingBrace _) (by decide)]
  refine ⟨⟨?_, ?_⟩, hmask⟩
  · have hend :
        (((stateAfter ['\x7d', '\n'] (bodyStart t) t).next '\x7d' ['\n']).next '\n' []).mode =
          .code :=
      mode_next_of_plain (mode_next_of_plain hafter isPlainCode_closingBrace _) (by decide) _
    have hliteral : literalProblems (enclosed t) = [] := by
      rw [literalProblems_enclosed, hproblems, literalProblemsFrom, literalProblemsFrom,
        literalProblemsFrom, ScanState.endProblem, hend, lineEndProblem, hafter, lineEndProblem,
        mode_next_of_plain hafter isPlainCode_closingBrace]
      rfl
    have hstack : bracketProblems [] 1 (mask (enclosed t)) = [] := by
      have hsplit : '\x7b' :: (m ++ ['\x7d', '\n']) = '\x7b' :: (m ++ ['\x7d']) ++ ['\n'] := by simp
      rw [bracketProblems_eq_nil_iff, henclosed, hsplit, brackets_append, List.map_nil,
        hm.braces.stack]
      rfl
    rw [balanceProblems, hliteral, hstack]
    rfl
  · have hclosing : closingFrom '\x7b' '\x7d' 1 (m ++ ['\x7d', '\n']) = some m.length := by
      rw [hm.closing 1 _ le_rfl]
      simp [closingFrom]
    rw [henclosed, ← hlen]
    simp [closingOffset?, closerOf?, hclosing]

end ApiScaffold.TypeScript
