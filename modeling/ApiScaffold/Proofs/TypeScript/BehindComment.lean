import ApiScaffold.Proofs.TypeScript.LexicalPieces
import ApiScaffold.Proofs.TypeScript.LineEdits

/-!
# Code behind a block comment

The scan remembers the last significant character of the code it has passed, whatever comments stand
behind it. For the keyword that this character may end it looks into the source text, where comments
are as good as code. So a comment between a keyword and a regular expression hides the keyword, and
the slash of the expression divides.

* `keywordBehind`: the keyword that lets a slash open a regular expression, seen from a state;
* `Beside` are two states behind which nothing but blanks has been read since they parted, with and
  without the comment;
* `OpensByKeyword`: a text begins with a regular expression for no other reason than a keyword;
* `masked_behind_comment`: a block comment changes the mask of what follows it in this case alone.
-/

namespace ApiScaffold.TypeScript

variable {s s' : ScanState} {a b t w x y y' r : List Char} {c : Char}

/-! ### Keywords -/

/-- The last significant character can end an identifier, and the identifier that ends the
characters looked at is a keyword after which a slash opens a regular expression. -/
def keywordBehind (s : ScanState) : Bool :=
  s.last.any Text.isIdentifierChar &&
    patternKeywords.contains (String.ofList (trailingIdentifier s.recent.reverse))

theorem patternAllowed_eq_or (s : ScanState) :
    patternAllowed s = (s.last.all (patternPreceders.contains ·) || keywordBehind s) := by
  unfold patternAllowed keywordBehind
  cases s.last <;> rfl

/-- Where a slash ends what was read last, blanks apart, no keyword is behind. -/
theorem keywordBehind_of_slash (hx : ∀ c ∈ x, Text.isBlank c = true)
    (hrecent : s.recent = (x ++ '/' :: y).take keywordReach) : keywordBehind s = false := by
  have hslash : Text.isBlank '/' = false ∧ Text.isIdentifierChar '/' = false := by decide
  have hidentifier : trailingIdentifier s.recent.reverse = [] := by
    rw [hrecent, trailingIdentifier_reverse, List.take_append]
    have hblank : ∀ c ∈ x.take keywordReach, Text.isBlank c = true := fun c hc =>
      hx c (List.mem_of_mem_take hc)
    rw [List.dropWhile_append_of_pos hblank]
    cases keywordReach - x.length with
    | zero => rfl
    | succ n =>
      rw [List.take_succ_cons, List.dropWhile_cons_of_neg (by simp [hslash.1]),
        List.takeWhile_cons_of_neg (by simp [hslash.2])]
      rfl
  have hnone : patternKeywords.contains (String.ofList []) = false := by decide
  rw [keywordBehind, hidentifier, hnone, Bool.and_false]

/-! ### What was read -/

theorem recent_stateAfter (h : s.recent = y.take keywordReach) (r t : List Char) :
    (stateAfter r s t).recent = (t.reverse ++ y).take keywordReach := by
  induction t generalizing s y with
  | nil => exact h
  | cons c cs ih =>
    have hnext : (s.next c (cs ++ r)).recent = (c :: y).take keywordReach := by
      rw [ScanState.next, h, take_cons_take]
    rw [stateAfter, ih hnext, List.reverse_cons, List.append_assoc, List.singleton_append]

/-- A block comment leaves the last significant character as it was. -/
theorem last_of_block {line : ℕ} {star : Bool} (h : ¬['*', '/'] <:+: if star then '*' :: t else t) :
    ∀ s : ScanState, s.mode = .block line star →
      (stateAfter r s (t ++ ['*', '/'])).last = s.last := by
  induction t generalizing star with
  | nil =>
    intro s hs
    simp [stateAfter, ScanState.next, nextLast, nextMode, hs]
  | cons c cs ih =>
    intro s hs
    obtain ⟨hclose, hrest⟩ := notInfix_cons h
    have hmode : (s.next c (cs ++ ['*', '/'] ++ r)).mode = .block line (c == '*') := by
      rw [ScanState.next, nextMode, hs]
      exact if_neg hclose
    rw [List.cons_append, stateAfter, ih hrest _ hmode, ScanState.next, nextLast, hs]

theorem last_blockComment (h : ¬['*', '/'] <:+: t) (hs : s.mode = .code) (r : List Char) :
    (stateAfter r s (LexicalPiece.blockComment t).text).last = s.last := by
  have hopen : ∀ v, modeAfterCode s '/' ('*' :: v) = .blockOpen s.line := fun _ => rfl
  have hblock : ∀ s' : ScanState, s'.mode = .block s.line false →
      (stateAfter r s' (t ++ ['*', '/'])).last = s'.last := last_of_block h
  rw [LexicalPiece.text, stateAfter, stateAfter, hblock]
  · simp [ScanState.next, nextLast, nextMode, hs, hopen]
  · simp [ScanState.next, nextMode, hs, hopen]

theorem isPlainCode_of_isBlank (h : Text.isBlank c = true) : isPlainCode c = true := by
  have hall : ∀ n ∈ blankPoints, isPlainCode (Char.ofNat n) = true := by decide
  have := hall _ (toNat_mem_blankPoints h)
  rwa [Char.ofNat_toNat] at this

/-- So do blanks, line breaks apart. -/
theorem stateAfter_blanks (hs : s.mode = .code)
    (hw : ∀ c ∈ w, Text.isBlank c = true ∧ c ≠ '\n') (r : List Char) :
    maskBefore r s w = w ∧ (stateAfter r s w).mode = .code ∧ (stateAfter r s w).last = s.last := by
  induction w generalizing s with
  | nil => exact ⟨rfl, hs, rfl⟩
  | cons c cs ih =>
    obtain ⟨hblank, hline⟩ := hw c List.mem_cons_self
    have hplain : isPlainCode c = true := isPlainCode_of_isBlank hblank
    obtain ⟨hmask, hmode, hlast⟩ := ih (mode_next_of_plain hs hplain (cs ++ r))
      fun d hd => hw d (List.mem_cons_of_mem c hd)
    refine ⟨?_, hmode, ?_⟩
    · rw [maskBefore, shown_of_plain hs hplain, hmask]
    · rw [stateAfter, hlast, ScanState.next, nextLast, hs, modeAfterCode_of_plain hplain]
      simp [hblank, hline]

/-! ### With and without the comment -/

/-- Two states in code that agree on the last significant character, the second with a comment
behind it: the blanks `x` have been read since, behind no part of an identifier. -/
structure Beside (x y y' : List Char) (s s' : ScanState) : Prop where
  mode : s.mode = .code
  mode' : s'.mode = .code
  last : s.last = s'.last
  blank : ∀ c ∈ x, Text.isBlank c = true
  recent : s.recent = (x ++ y).take keywordReach
  recent' : s'.recent = (x ++ '/' :: y').take keywordReach
  head : y.head?.any Text.isIdentifierChar = false

/-- Blanks change nothing between the two. -/
theorem Beside.blanks (h : Beside x y y' s s') (hw : ∀ c ∈ w, Text.isBlank c = true ∧ c ≠ '\n')
    (r : List Char) :
    maskFrom s (w ++ r) = w ++ maskFrom (stateAfter r s w) r ∧
      maskFrom s' (w ++ r) = w ++ maskFrom (stateAfter r s' w) r ∧
      Beside (w.reverse ++ x) y y' (stateAfter r s w) (stateAfter r s' w) := by
  obtain ⟨hmask, hmode, hlast⟩ := stateAfter_blanks h.mode hw r
  obtain ⟨hmask', hmode', hlast'⟩ := stateAfter_blanks h.mode' hw r
  refine ⟨by rw [maskFrom_append, hmask], by rw [maskFrom_append, hmask'], hmode, hmode', ?_, ?_,
    ?_, ?_, h.head⟩
  · rw [hlast, hlast', h.last]
  · intro c hc
    rcases List.mem_append.1 hc with hc | hc
    · exact (hw c (List.mem_reverse.1 hc)).1
    · exact h.blank c hc
  · rw [recent_stateAfter h.recent, List.append_assoc]
  · rw [recent_stateAfter h.recent', List.append_assoc]

/-- Behind the comment a keyword does not count. -/
theorem Beside.patternAllowed_eq (h : Beside x y y' s s') :
    patternAllowed s = (patternAllowed s' || keywordBehind s) := by
  rw [patternAllowed_eq_or, patternAllowed_eq_or s', keywordBehind_of_slash h.blank h.recent',
    Bool.or_false, h.last]

/-- A character from which both go on alike brings them together again. -/
theorem Beside.scan_eq (h : Beside x y y' s s') (hc : c = '\n' ∨ Text.isBlank c = false)
    (hcode : SameMode (modeAfterCode s c r) (modeAfterCode s' c r)) :
    maskFrom s (c :: r) = maskFrom s' (c :: r) := by
  have hmode : SameMode s.mode s'.mode := by
    rw [h.mode, h.mode']
    exact .refl _
  have hbelow : Below (s.next c r) (s'.next c r) := by
    rcases hc with rfl | hblank
    · have hfree : s.mode.Free ∧ s'.mode.Free := by
        rw [h.mode, h.mode']
        exact ⟨trivial, trivial⟩
      exact (hfree.1.lineStart r).below (hfree.2.lineStart r)
    · exact below_next hmode hcode h.recent h.recent' h.head rfl
        (Or.inl ⟨h.last, c, List.mem_cons_self, hblank⟩)
  rw [maskFrom, maskFrom, hmode.shown hcode rfl, (hbelow.scan_eq r).1]

/-- The slash in front of `r` opens a regular expression, and nothing but a keyword says so. -/
def OpensHere (s : ScanState) (r : List Char) : Prop :=
  keywordBehind s = true ∧ r.head? ≠ some '/' ∧ r.head? ≠ some '*' ∧ (patternEnd? r).isSome = true

/-- Identifiers are not among the characters after which a slash opens a regular expression. -/
theorem all_preceders_of_keywordBehind (h : keywordBehind s = true) :
    s.last.all (patternPreceders.contains ·) = false := by
  have hall : ∀ d ∈ patternPreceders, Text.isIdentifierChar d = false :=
    List.all_iff_forall_prop.1 (by decide)
  rw [keywordBehind, Bool.and_eq_true] at h
  cases hlast : s.last with
  | none =>
    rw [hlast] at h
    cases h.1
  | some e =>
    rw [hlast, Option.any_some] at h
    rw [Option.all_some, List.contains_eq_mem, decide_eq_false_iff_not]
    intro hmem
    rw [hall e hmem] at h
    cases h.1

/-- The two part for good at a slash that a keyword makes the beginning of a regular expression. -/
theorem Beside.slash_eq_iff (h : Beside x y y' s s') (r : List Char) :
    maskFrom s ('/' :: r) = maskFrom s' ('/' :: r) ↔ ¬OpensHere s r := by
  constructor
  · rintro hmask ⟨hkeyword, hline, hblock, hend⟩
    obtain ⟨⟨body, flags⟩, hend⟩ := Option.isSome_iff_exists.1 hend
    have hallowed := h.patternAllowed_eq
    have hforbidden : patternAllowed s' = false := by
      rw [patternAllowed_eq_or, ← h.last, all_preceders_of_keywordBehind hkeyword,
        keywordBehind_of_slash h.blank h.recent']
      rfl
    rw [hforbidden, hkeyword] at hallowed
    have hopen : modeAfterCode s '/' r = .pattern body flags := by
      rw [modeAfterCode_slash, if_neg hline, if_neg hblock, hallowed, hend]
      rfl
    have hdivide : modeAfterCode s' '/' r = .code := by
      rw [modeAfterCode_slash, if_neg hline, if_neg hblock, hforbidden]
      rfl
    have hshown := (List.cons.inj hmask).1
    rw [shown, shown, h.mode, h.mode', hopen, hdivide] at hshown
    exact absurd (show '\x22' = '/' from hshown) (by decide)
  · intro hnone
    refine h.scan_eq (Or.inr (by decide)) ?_
    by_cases hkeyword : keywordBehind s = true
    · rw [modeAfterCode_slash, modeAfterCode_slash]
      by_cases hline : r.head? = some '/'
      · rw [if_pos hline, if_pos hline]
        exact .refl _
      by_cases hblock : r.head? = some '*'
      · rw [if_neg hline, if_neg hline, if_pos hblock, if_pos hblock]
        exact .blockOpen _ _
      have hend : patternEnd? r = none := by
        by_contra hsome
        exact hnone ⟨hkeyword, hline, hblock, Option.isSome_iff_ne_none.2 hsome⟩
      simp only [if_neg hline, if_neg hblock, hend, ite_self]
      exact .refl _
    · have hallowed := h.patternAllowed_eq
      rw [Bool.not_eq_true] at hkeyword
      rw [hkeyword, Bool.or_false] at hallowed
      exact .modeAfterCode hallowed '/' rfl rfl

/-! ### A comment in a source text -/

/-- Behind `a` the text `b` begins, blanks apart, with a regular expression, and what tells its
slash from one that divides is a keyword in front of the blanks. -/
def OpensByKeyword (a b : List Char) : Prop :=
  ∃ w r, b = w ++ '/' :: r ∧ (∀ c ∈ w, Text.isBlank c = true ∧ c ≠ '\n') ∧
    OpensHere (stateAfter ('/' :: r) .start (a ++ w)) r

theorem Beside.masks_eq_iff (h : Beside [] y y' s s') :
    maskFrom s b = maskFrom s' b ↔
      ∀ w r, b = w ++ '/' :: r → (∀ c ∈ w, Text.isBlank c = true ∧ c ≠ '\n') →
        ¬OpensHere (stateAfter ('/' :: r) s w) r := by
  constructor
  · rintro hmask w r rfl hw
    obtain ⟨hs, hs', hbeside⟩ := h.blanks hw ('/' :: r)
    rw [hs, hs', List.append_cancel_left_eq] at hmask
    exact (hbeside.slash_eq_iff r).1 hmask
  · intro hnone
    -- the blanks at the front of the text, up to the end of the line
    have hsplit := List.takeWhile_append_dropWhile
      (p := fun c => Text.isBlank c && c != '\n') (l := b)
    have hw : ∀ c ∈ b.takeWhile fun c => Text.isBlank c && c != '\n',
        Text.isBlank c = true ∧ c ≠ '\n' := fun c hc => by
      simpa using List.mem_takeWhile_imp hc
    generalize b.takeWhile (fun c => Text.isBlank c && c != '\n') = w at hsplit hw
    cases hrest : b.dropWhile fun c => Text.isBlank c && c != '\n' with
    | nil =>
      rw [hrest] at hsplit
      obtain ⟨hs, hs', -⟩ := h.blanks hw []
      rw [← hsplit, hs, hs']
      rfl
    | cons c r =>
      have hc : c = '\n' ∨ Text.isBlank c = false := by
        have hhead := List.head?_dropWhile_not (fun c => Text.isBlank c && c != '\n') b
        rw [hrest] at hhead
        simp only [List.head?_cons, Bool.and_eq_false_iff, bne_eq_false_iff_eq] at hhead
        exact hhead.symm
      rw [hrest] at hsplit
      obtain ⟨hs, hs', hbeside⟩ := h.blanks hw (c :: r)
      rw [← hsplit, hs, hs', List.append_cancel_left_eq]
      by_cases hslash : c = '/'
      · subst hslash
        exact (hbeside.slash_eq_iff r).2 (hnone w r hsplit.symm hw)
      · refine hbeside.scan_eq hc ?_
        unfold modeAfterCode
        rw [if_neg hslash, if_neg hslash]
        split_ifs
        · exact .quoted _ _ _
        · exact .refl _

/-- Where a scan stands in code behind a space, what follows has no bearing on its state. -/
theorem stateAfter_space (hspace : a.getLast? = some ' ') (hcode : (stateAfter r s a).mode = .code)
    (hr : r ≠ []) : stateAfter r s a = stateAfter ['\n'] s a := by
  have hrests : Rests s a r := by
    refine ⟨by rw [hcode]; trivial, fun hline => ?_, hr, by rw [hspace]; decide⟩
    rw [hcode] at hline
    cases hline
  have heq := Rests.stateAfter_eq (u := []) (by rwa [List.append_nil]) []
  exact heq.symm

/-- **A block comment hides a keyword and nothing else.** Put in behind a space, where the scan
stands in code with the comment behind it and without, it leaves the mask of what follows as it was
if and only if no keyword in front of it makes a slash behind it the beginning of a regular
expression. -/
theorem masked_behind_comment (hspace : a.getLast? = some ' ') (hcomment : ¬['*', '/'] <:+: t)
    (hwithout : (stateAfter b .start a).mode = .code)
    (hwith : (stateAfter ((LexicalPiece.blockComment t).text ++ b) .start a).mode = .code) :
    (mask (a ++ ((LexicalPiece.blockComment t).text ++ b))).drop
        (a.length + (LexicalPiece.blockComment t).text.length) =
      (mask (a ++ b)).drop a.length ↔ ¬OpensByKeyword a b := by
  have hdrop : (mask (a ++ b)).drop a.length = maskFrom (stateAfter b .start a) b := by
    rw [mask, maskFrom_append, List.drop_left' (length_maskBefore ..)]
  have hdropWith : (mask (a ++ ((LexicalPiece.blockComment t).text ++ b))).drop
      (a.length + (LexicalPiece.blockComment t).text.length) =
        maskFrom (stateAfter b (stateAfter ((LexicalPiece.blockComment t).text ++ b) .start a)
          (LexicalPiece.blockComment t).text) b := by
    rw [mask, maskFrom_append, maskFrom_append, ← List.append_assoc, List.drop_left']
    rw [List.length_append, length_maskBefore, length_maskBefore]
  rw [hdrop, hdropWith]
  by_cases hb : b = []
  · subst hb
    refine iff_of_true rfl ?_
    rintro ⟨w, r, hnil, -⟩
    simp at hnil
  have hsame : stateAfter ((LexicalPiece.blockComment t).text ++ b) .start a =
      stateAfter b .start a := by
    rw [stateAfter_space hspace hwith (by simp [hb]), stateAfter_space hspace hwithout hb]
  rw [hsame]
  have hstart : ScanState.start.recent = ([] : List Char).take keywordReach := rfl
  have hrecent := recent_stateAfter hstart b a
  rw [List.append_nil] at hrecent
  have hbeside : Beside [] a.reverse ('*' :: (t.reverse ++ '*' :: '/' :: a.reverse))
      (stateAfter b .start a)
      (stateAfter b (stateAfter b .start a) (LexicalPiece.blockComment t).text) := by
    refine ⟨hwithout, ?_, (last_blockComment hcomment hwithout b).symm, ?_, hrecent, ?_, ?_⟩
    · exact ((Piece.blockComment (P := fun _ => True) hcomment) _ b hwithout trivial).2.1
    · exact fun c hc => by cases hc
    · rw [recent_stateAfter hrecent]
      simp [LexicalPiece.text]
    · rw [List.head?_reverse, hspace]
      decide
  rw [eq_comm, hbeside.masks_eq_iff]
  unfold OpensByKeyword
  constructor
  · rintro hnone ⟨w, r, rfl, hw, hopens⟩
    rw [stateAfter_append] at hopens
    exact hnone w r rfl hw hopens
  · rintro hnone w r rfl hw hopens
    refine hnone ⟨w, r, rfl, hw, ?_⟩
    rwa [stateAfter_append]

/-- A division behind a comment that holds a quotation mark. -/
theorem masked_behind_comment_division :
    "return x ".toList.getLast? = some ' ' ∧ ¬['*', '/'] <:+: " it\x27s / [".toList ∧
      (stateAfter "/ 2 + y[1];\n".toList .start "return x ".toList).mode = .code ∧
      (stateAfter ((LexicalPiece.blockComment " it\x27s / [".toList).text ++ "/ 2 + y[1];\n".toList)
        .start "return x ".toList).mode = .code ∧
      (mask ("return x ".toList ++ ((LexicalPiece.blockComment " it\x27s / [".toList).text ++
          "/ 2 + y[1];\n".toList))).drop ("return x ".toList.length +
            (LexicalPiece.blockComment " it\x27s / [".toList).text.length) =
        (mask ("return x ".toList ++ "/ 2 + y[1];\n".toList)).drop "return x ".toList.length := by
  have hspace : "return x ".toList.getLast? = some ' ' := by decide
  have hcomment : ¬['*', '/'] <:+: " it\x27s / [".toList := by decide
  have hwithout : (stateAfter "/ 2 + y[1];\n".toList .start "return x ".toList).mode = .code := by
    decide +kernel
  have hwith : (stateAfter ((LexicalPiece.blockComment " it\x27s / [".toList).text ++
      "/ 2 + y[1];\n".toList) .start "return x ".toList).mode = .code := by decide +kernel
  refine ⟨hspace, hcomment, hwithout, hwith,
    (masked_behind_comment hspace hcomment hwithout hwith).2 ?_⟩
  rintro ⟨w, r, hb, hw, hkeyword, -⟩
  cases w with
  | nil =>
    obtain rfl := (List.cons.inj hb).2
    revert hkeyword
    decide +kernel
  | cons c cs =>
    obtain rfl := (List.cons.inj hb).1
    exact absurd (hw '/' List.mem_cons_self).1 (by decide)

/-- The scan of `a` ends in code, and yet the comment changes the mask of what follows it: a keyword
in front of it no longer counts, and a slash that divides at the beginning of a line finds the end
of a regular expression at the beginning of the comment. -/
theorem masked_behind_comment_astray :
    ("return ".toList.getLast? = some ' ' ∧
      (stateAfter [] .start "return ".toList).mode = .code ∧
      ¬['*', '/'] <:+: " x ".toList ∧
      mask ("return ".toList ++ " /\x7d/.test(s);\n".toList) =
        "return  \x22 \x22.test(s);\n".toList ∧
      mask ("return ".toList ++ ((LexicalPiece.blockComment " x ".toList).text ++
        " /\x7d/.test(s);\n".toList)) = "return         /\x7d/.test(s);\n".toList) ∧
    ("x\n  / ".toList.getLast? = some ' ' ∧
      (stateAfter [] .start "x\n  / ".toList).mode = .code ∧
      ¬['*', '/'] <:+: " it\x27s ".toList ∧
      mask ("x\n  / ".toList ++ "2;".toList) = "x\n  / 2;".toList ∧
      mask ("x\n  / ".toList ++ ((LexicalPiece.blockComment " it\x27s ".toList).text ++
        "2;".toList)) = "x\n  \x22 \x22* it\x27      ".toList) := by
  decide +kernel

end ApiScaffold.TypeScript
