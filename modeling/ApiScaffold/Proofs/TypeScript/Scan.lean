import ApiScaffold.TypeScript.Bracket
import Mathlib.Tactic

/-!
# Scanning a text piece by piece

The mask of a text is made of the masks of its pieces, each scanned with what follows it in sight.

* `maskBefore`, `stateAfter`, `problemsBefore`: the scan of a text that something follows;
* `Piece t m P`: wherever code ends, `t` has the mask `m` and ends in code again, provided that what
  follows satisfies `P`;
* `Alike`: two states that differ in nothing that the text behind an opening brace can notice;
* `patternEnd?_append`: a regular expression does not reach beyond the end of its line;
* `alike_scan`: alike states mask the same text alike, so that the mask of a text between braces
  does not depend on what stands around them.
-/

namespace ApiScaffold.TypeScript

/-! ### Lists up to a character -/

section Lists

variable {α : Type} {p : α → Bool} {a : α}

theorem takeWhile_append_of_not (ha : p a = false) (w x : List α) :
    (w ++ a :: x).takeWhile p = w.takeWhile p := by
  induction w with
  | nil => simp [ha]
  | cons b w ih =>
    rw [List.cons_append, List.takeWhile_cons, List.takeWhile_cons, ih]

theorem dropWhile_append_of_not (ha : p a = false) (w x : List α) :
    (w ++ a :: x).dropWhile p = w.dropWhile p ++ a :: x := by
  induction w with
  | nil => simp [ha]
  | cons b w ih =>
    rw [List.cons_append, List.dropWhile_cons, List.dropWhile_cons, ih]
    split <;> rfl

end Lists

/-! ### Scans of a part -/

/-- The state after a text that `rest` follows. -/
def stateAfter (rest : List Char) (s : ScanState) : List Char → ScanState
  | [] => s
  | c :: cs => stateAfter rest (s.next c (cs ++ rest)) cs

/-- The mask of a text that `rest` follows. -/
def maskBefore (rest : List Char) (s : ScanState) : List Char → List Char
  | [] => []
  | c :: cs => shown s c (cs ++ rest) :: maskBefore rest (s.next c (cs ++ rest)) cs

/-- The literals that end too early in a text that `rest` follows. -/
def problemsBefore (rest : List Char) (s : ScanState) : List Char → List SourceProblem
  | [] => []
  | c :: cs => lineEndProblem s c ++ problemsBefore rest (s.next c (cs ++ rest)) cs

variable {s s' : ScanState} {t u m n r : List Char}

theorem length_maskBefore (r : List Char) (s : ScanState) (t : List Char) :
    (maskBefore r s t).length = t.length := by
  induction t generalizing s with
  | nil => rfl
  | cons c cs ih => simp [maskBefore, ih]

theorem maskFrom_append (s : ScanState) (t r : List Char) :
    maskFrom s (t ++ r) = maskBefore r s t ++ maskFrom (stateAfter r s t) r := by
  induction t generalizing s with
  | nil => rfl
  | cons c cs ih => rw [List.cons_append, maskFrom, maskBefore, stateAfter, ih, List.cons_append]

theorem literalProblemsFrom_append (s : ScanState) (t r : List Char) :
    literalProblemsFrom s (t ++ r) =
      problemsBefore r s t ++ literalProblemsFrom (stateAfter r s t) r := by
  induction t generalizing s with
  | nil => rfl
  | cons c cs ih =>
    rw [List.cons_append, literalProblemsFrom, problemsBefore, stateAfter, ih, List.append_assoc]

theorem maskBefore_append (r : List Char) (s : ScanState) (t u : List Char) :
    maskBefore r s (t ++ u) =
      maskBefore (u ++ r) s t ++ maskBefore r (stateAfter (u ++ r) s t) u := by
  induction t generalizing s with
  | nil => rfl
  | cons c cs ih =>
    rw [List.cons_append, maskBefore, maskBefore, stateAfter, ih, List.append_assoc,
      List.cons_append]

theorem stateAfter_append (r : List Char) (s : ScanState) (t u : List Char) :
    stateAfter r s (t ++ u) = stateAfter r (stateAfter (u ++ r) s t) u := by
  induction t generalizing s with
  | nil => rfl
  | cons c cs ih => rw [List.cons_append, stateAfter, stateAfter, ih, List.append_assoc]

theorem problemsBefore_append (r : List Char) (s : ScanState) (t u : List Char) :
    problemsBefore r s (t ++ u) =
      problemsBefore (u ++ r) s t ++ problemsBefore r (stateAfter (u ++ r) s t) u := by
  induction t generalizing s with
  | nil => rfl
  | cons c cs ih =>
    rw [List.cons_append, problemsBefore, problemsBefore, stateAfter, ih, List.append_assoc,
      List.append_assoc]

/-! ### Pieces -/

/-- Where code ends, the text `t` has the mask `m` and no problem, and code ends again behind it,
provided that what follows satisfies `P`. -/
def Piece (t m : List Char) (P : List Char → Prop) : Prop :=
  ∀ s r, s.mode = .code → P r →
    maskBefore r s t = m ∧ (stateAfter r s t).mode = .code ∧ problemsBefore r s t = []

variable {P Q : List Char → Prop}

theorem Piece.nil : Piece [] [] P := fun _ _ hs _ => ⟨rfl, hs, rfl⟩

theorem Piece.append (ht : Piece t m P) (hu : Piece u n Q) (h : ∀ r, Q r → P (u ++ r)) :
    Piece (t ++ u) (m ++ n) Q := by
  intro s r hs hr
  obtain ⟨ht₁, ht₂, ht₃⟩ := ht s (u ++ r) hs (h r hr)
  obtain ⟨hu₁, hu₂, hu₃⟩ := hu _ r ht₂ hr
  refine ⟨?_, ?_, ?_⟩
  · rw [maskBefore_append, ht₁, hu₁]
  · rw [stateAfter_append, hu₂]
  · rw [problemsBefore_append, ht₃, hu₃, List.append_nil]

/-- A whole text that is a piece. -/
theorem Piece.mask_eq (h : Piece t m P) (hP : P []) : mask t = m := by
  have h₁ := (h .start [] rfl hP).1
  have h₂ := maskFrom_append .start t []
  rw [List.append_nil, h₁, maskFrom, List.append_nil] at h₂
  exact h₂

theorem Piece.literalProblems_eq_nil (h : Piece t m P) (hP : P []) : literalProblems t = [] := by
  obtain ⟨-, hmode, hproblems⟩ := h .start [] rfl hP
  have h₂ := literalProblemsFrom_append .start t []
  rw [List.append_nil, hproblems, literalProblemsFrom, ScanState.endProblem, hmode] at h₂
  exact h₂

/-- Whether a character of code is shown as it is and leaves the scan in code. -/
def isPlainCode (c : Char) : Bool := !isQuote c && c != '/'

theorem modeAfterCode_of_plain {c : Char} (hc : isPlainCode c = true) (s : ScanState)
    (r : List Char) : modeAfterCode s c r = .code := by
  simp only [isPlainCode, Bool.and_eq_true, Bool.not_eq_true', bne_iff_ne, ne_eq] at hc
  simp [modeAfterCode, hc.1, hc.2]

/-- Code without quotation marks and slashes is its own mask. -/
theorem Piece.of_plain (h : ∀ c ∈ t, isPlainCode c = true) : Piece t t P := by
  induction t with
  | nil => exact Piece.nil
  | cons c cs ih =>
    intro s r hs hr
    have hmode := modeAfterCode_of_plain (h c (List.mem_cons_self ..)) s (cs ++ r)
    have hnext : (s.next c (cs ++ r)).mode = .code := by
      simp [ScanState.next, nextMode, hs, hmode]
    obtain ⟨h₁, h₂, h₃⟩ := ih (fun d hd => h d (List.mem_cons_of_mem _ hd)) _ r hnext hr
    refine ⟨?_, ?_, ?_⟩
    · rw [maskBefore, h₁, shown, hs]
      simp [hmode]
    · rw [stateAfter, h₂]
    · rw [problemsBefore, h₃, lineEndProblem, hs]
      rfl

theorem Piece.of_all (h : t.all isPlainCode = true) : Piece t t P :=
  .of_plain (List.all_eq_true.1 h)

/-! ### Scans from mode to mode -/

/-- In a state, and with `r` behind it, the text `t` has the mask `m` and no problem, and leaves the
scan in the given mode. -/
structure ScansTo (s : ScanState) (t m r : List Char) (mode : Mode) : Prop where
  mask_eq : maskBefore r s t = m
  mode_eq : (stateAfter r s t).mode = mode
  problems_eq : problemsBefore r s t = []

section Scans

variable {a b : Mode} {c d : Char}

theorem ScansTo.nil (hs : s.mode = a) : ScansTo s [] [] r a := ⟨rfl, hs, rfl⟩

/-- A character that is shown as `d`, reveals no problem and leads to the mode `a`. -/
theorem ScansTo.cons (hshown : shown s c (t ++ r) = d) (hproblem : lineEndProblem s c = [])
    (hmode : nextMode s c (t ++ r) = a) (h : ∀ s', s'.mode = a → ScansTo s' t m r b) :
    ScansTo s (c :: t) (d :: m) r b := by
  obtain ⟨h₁, h₂, h₃⟩ := h (s.next c (t ++ r)) hmode
  exact ⟨by rw [maskBefore, hshown, h₁], by rw [stateAfter, h₂],
    by rw [problemsBefore, hproblem, h₃, List.append_nil]⟩

theorem ScansTo.trans (ht : ScansTo s t m (u ++ r) a)
    (hu : ScansTo (stateAfter (u ++ r) s t) u n r b) : ScansTo s (t ++ u) (m ++ n) r b :=
  ⟨by rw [maskBefore_append, ht.mask_eq, hu.mask_eq], by rw [stateAfter_append, hu.mode_eq],
    by rw [problemsBefore_append, ht.problems_eq, hu.problems_eq, List.append_nil]⟩

theorem Piece.scansTo (h : Piece t m P) (hs : s.mode = .code) (hr : P r) :
    ScansTo s t m r .code :=
  ⟨(h s r hs hr).1, (h s r hs hr).2.1, (h s r hs hr).2.2⟩

theorem Piece.of_scansTo (h : ∀ s r, s.mode = .code → P r → ScansTo s t m r .code) :
    Piece t m P := fun s r hs hr =>
  ⟨(h s r hs hr).mask_eq, (h s r hs hr).mode_eq, (h s r hs hr).problems_eq⟩

end Scans

/-! ### String literals -/

/-- The text between the quotation marks of a string literal: pairs of a backslash and any
character, and characters that are neither a backslash nor the quotation mark, and no line break
except between backquotes. -/
inductive LiteralText (mark : Char) : List Char → Prop
  | nil : LiteralText mark []
  | escape {c : Char} {cs : List Char} (h : LiteralText mark cs) :
      LiteralText mark ('\\' :: c :: cs)
  | plain {c : Char} {cs : List Char} (hmark : c ≠ mark) (hslash : c ≠ '\\')
      (hline : c = '\n' → mark = backquote) (h : LiteralText mark cs) : LiteralText mark (c :: cs)

section Literals

variable {mark : Char}

theorem LiteralText.scansTo (h : LiteralText mark t) (hmark : isQuote mark = true) {line : ℕ}
    (hr : r ≠ []) :
    ∀ s : ScanState, s.mode = .quoted mark line →
      ScansTo s t (t.map blank) r (.quoted mark line) := by
  induction h with
  | nil => exact fun s hs => .nil hs
  | @escape c cs _ ih =>
    intro s hs
    have hne : '\\' ≠ mark := fun h => absurd (h ▸ hmark) (by decide)
    have hempty : (cs ++ r).isEmpty = false := by simp [hr]
    refine .cons (a := .escaped mark line) ?_ ?_ ?_ fun s' hs' =>
      .cons (a := .quoted mark line) ?_ ?_ ?_ ih
    · rw [shown, hs]
      exact if_neg hne
    · rw [lineEndProblem, hs]
      exact if_neg fun h => absurd h.1 (by decide)
    · rw [nextMode, hs]
      dsimp only
      rw [if_neg hne, if_pos rfl]
    · rw [shown, hs', hempty]
      rfl
    · rw [lineEndProblem, hs']
    · rw [nextMode, hs']
  | @plain c cs hne hslash hline _ ih =>
    intro s hs
    have hbreak : ¬(c = '\n' ∧ mark ≠ backquote) := fun h => h.2 (hline h.1)
    refine .cons (a := .quoted mark line) ?_ ?_ ?_ ih
    · rw [shown, hs]
      exact if_neg hne
    · rw [lineEndProblem, hs]
      exact if_neg hbreak
    · rw [nextMode, hs]
      dsimp only
      rw [if_neg hne, if_neg hslash, if_neg hbreak]

/-- A quotation mark in code begins a literal. -/
theorem ScansTo.opens (hmark : isQuote mark = true) (hs : s.mode = .code) :
    ScansTo s [mark] [mark] r (.quoted mark s.line) := by
  have hopen : modeAfterCode s mark ([] ++ r) = .quoted mark s.line := if_pos hmark
  refine .cons ?_ ?_ ?_ fun _ => .nil
  · rw [shown, hs, hopen]
  · rw [lineEndProblem, hs]
  · rw [nextMode, hs, hopen]

/-- In a literal the same mark ends it. -/
theorem ScansTo.closes (hmark : isQuote mark = true) {line : ℕ} (hs : s.mode = .quoted mark line) :
    ScansTo s [mark] [mark] r .code := by
  refine .cons ?_ ?_ ?_ fun _ => .nil
  · rw [shown, hs]
    exact if_pos rfl
  · rw [lineEndProblem, hs]
    exact if_neg fun hline => absurd (hline.1 ▸ hmark) (by decide)
  · rw [nextMode, hs]
    exact if_pos rfl

/-- A string literal shows nothing but its quotation marks. -/
theorem Piece.quoted (hmark : isQuote mark = true) (h : LiteralText mark t) :
    Piece (mark :: (t ++ [mark])) (mark :: (t.map blank ++ [mark])) P := by
  refine .of_scansTo fun s r hs _ => ?_
  have hopen := ScansTo.opens (r := t ++ [mark] ++ r) hmark hs
  have htext := h.scansTo hmark (List.cons_ne_nil mark r) _ hopen.mode_eq
  exact hopen.trans (htext.trans (.closes hmark htext.mode_eq))

/-- A character that a string literal may hold as it is. -/
def isPlainText (c : Char) : Bool := !isQuote c && c != '\\' && c != '\n' && c != '\r'

theorem literalText_of_plain (h : ∀ c ∈ t, isPlainText c = true) :
    LiteralText '\x22' t ∧ t.map blank = List.replicate t.length ' ' := by
  induction t with
  | nil => exact ⟨.nil, rfl⟩
  | cons c cs ih =>
    obtain ⟨h₁, h₂⟩ := ih fun d hd => h d (List.mem_cons_of_mem _ hd)
    have hc := h c (List.mem_cons_self ..)
    simp only [isPlainText, isQuote, Bool.and_eq_true, Bool.not_eq_true', Bool.or_eq_false_iff,
      beq_eq_false_iff_ne, bne_iff_ne, ne_eq] at hc
    obtain ⟨⟨⟨⟨⟨-, hquote⟩, -⟩, hslash⟩, hline⟩, -⟩ := hc
    refine ⟨.plain hquote hslash (fun h => absurd h hline) h₁, ?_⟩
    rw [List.map_cons, h₂, blank, if_neg hline]
    rfl

/-- A string literal between double quotation marks shows nothing but these. -/
theorem Piece.literal (h : ∀ c ∈ t, isPlainText c = true) :
    Piece ('\x22' :: (t ++ ['\x22'])) ('\x22' :: (List.replicate t.length ' ' ++ ['\x22'])) P := by
  obtain ⟨htext, hblank⟩ := literalText_of_plain h
  rw [← hblank]
  exact .quoted rfl htext

end Literals

/-! ### Regular expressions end on their line -/

theorem patternLength?_cons {c : Char} (hc : c ≠ '\\') (k : Bool) (cs : List Char) :
    patternLength? k (c :: cs) =
      if c = '\n' then none
      else if k then (patternLength? (c != ']') cs).map (· + 1)
      else if c = '[' then (patternLength? true cs).map (· + 1)
      else if c = '/' then some 0
      else (patternLength? false cs).map (· + 1) := by
  rw [patternLength?]
  · exact fun h _ => hc h
  · exact fun _ _ h _ => hc h

/-- A regular expression that begins on a line of code ends there or nowhere. What follows the line
does not matter, if a brace closes at its end. -/
theorem patternLength?_append (k : Bool) (t r r' : List Char) :
    patternLength? k (t ++ '\x7d' :: '\n' :: r) = patternLength? k (t ++ '\x7d' :: '\n' :: r') := by
  -- An escape takes two characters at once.
  induction hn : t.length using Nat.strong_induction_on generalizing k t with
  | _ size ih =>
    cases t with
    | nil => cases k <;> simp [patternLength?]
    | cons c cs =>
      rw [List.length_cons] at hn
      by_cases hc : c = '\\'
      · subst hc
        cases cs with
        | nil => simp [patternLength?]
        | cons d ds =>
          rw [List.length_cons] at hn
          have hd := ih ds.length (by omega) k ds rfl
          simp only [List.cons_append, patternLength?, hd]
      · have hcs := fun k => ih cs.length (by omega) k cs rfl
        simp only [List.cons_append, patternLength?_cons hc, hcs]

theorem patternLength?_lt {k : Bool} {t r : List Char} {n : ℕ}
    (h : patternLength? k (t ++ '\x7d' :: '\n' :: r) = some n) : n < t.length := by
  induction hn : t.length using Nat.strong_induction_on generalizing k t n with
  | _ size ih =>
    cases t with
    | nil => cases k <;> simp [patternLength?] at h
    | cons c cs =>
      rw [List.length_cons] at hn
      by_cases hc : c = '\\'
      · subst hc
        cases cs with
        | nil => simp [patternLength?] at h
        | cons d ds =>
          rw [List.length_cons] at hn
          simp only [List.cons_append, patternLength?] at h
          obtain ⟨m, hm, rfl⟩ := Option.map_eq_some_iff.1 h
          have := ih ds.length (by omega) hm rfl
          omega
      · have hcs : ∀ k m, (patternLength? k (cs ++ '\x7d' :: '\n' :: r)).map (· + 1) = some m →
            m < size := by
          intro k m hm
          obtain ⟨m', hm', rfl⟩ := Option.map_eq_some_iff.1 hm
          have := ih cs.length (by omega) hm' rfl
          omega
        rw [List.cons_append, patternLength?_cons hc] at h
        split_ifs at h
        · exact hcs _ n h
        · exact hcs _ n h
        · cases h
          omega
        · exact hcs _ n h

/-- The end of a regular expression and its flags do not depend on what follows its line either. -/
theorem patternEnd?_append (t r r' : List Char) :
    patternEnd? (t ++ '\x7d' :: '\n' :: r) = patternEnd? (t ++ '\x7d' :: '\n' :: r') := by
  unfold patternEnd?
  rw [patternLength?_append false t r r']
  cases h : patternLength? false (t ++ '\x7d' :: '\n' :: r') with
  | none => rfl
  | some n =>
    have hn := patternLength?_lt h
    have hbrace : Text.isIdentifierChar '\x7d' = false := by decide
    simp only [Option.map_some, List.drop_append_of_le_length (show n + 1 ≤ t.length by omega)]
    rw [takeWhile_append_of_not hbrace, takeWhile_append_of_not hbrace]

/-! ### States behind an opening brace -/

/-- Two modes that differ in nothing but the line they remember. -/
inductive SameMode : Mode → Mode → Prop
  | refl (m : Mode) : SameMode m m
  | blockOpen (l l' : ℕ) : SameMode (.blockOpen l) (.blockOpen l')
  | block (l l' : ℕ) (star : Bool) : SameMode (.block l star) (.block l' star)
  | quoted (mark : Char) (l l' : ℕ) : SameMode (.quoted mark l) (.quoted mark l')
  | escaped (mark : Char) (l l' : ℕ) : SameMode (.escaped mark l) (.escaped mark l')

/-- Two texts, read backwards, are the same as far as an opening brace or beyond. -/
def SameToBrace (w w' : List Char) : Prop :=
  w = w' ∨ ∃ u x y, w = u ++ '\x7b' :: x ∧ w' = u ++ '\x7b' :: y

/-- Two states that agree on everything but lines and what was read before an opening brace. -/
structure Alike (s s' : ScanState) : Prop where
  mode : SameMode s.mode s'.mode
  last : s.last = s'.last
  recent : SameToBrace s.recent s'.recent

theorem SameToBrace.cons_take {w w' : List Char} (h : SameToBrace w w') (c : Char) (size : ℕ) :
    SameToBrace ((c :: w).take size) ((c :: w').take size) := by
  rcases h with rfl | ⟨u, x, y, rfl, rfl⟩
  · exact Or.inl rfl
  · rw [← List.cons_append, ← List.cons_append, List.take_append, List.take_append]
    cases hk : size - (c :: u).length with
    | zero => exact Or.inl rfl
    | succ k =>
      -- The brace is still in sight.
      have hall : (c :: u).take size = c :: u := List.take_of_length_le (by omega)
      rw [hall]
      exact Or.inr ⟨c :: u, x.take k, y.take k, rfl, rfl⟩

theorem trailingIdentifier_reverse (w : List Char) :
    trailingIdentifier w.reverse =
      (((w.dropWhile Text.isBlank).takeWhile Text.isIdentifierChar).reverse).dropWhile
        fun c => !Text.isIdentifierStart c := by
  simp [trailingIdentifier, Text.takeSuffixWhile, Text.trimRight, Text.dropSuffixWhile]

/-- An identifier at the end of a text does not reach beyond a brace. -/
theorem SameToBrace.trailingIdentifier_eq {w w' : List Char} (h : SameToBrace w w') :
    trailingIdentifier w.reverse = trailingIdentifier w'.reverse := by
  rcases h with rfl | ⟨u, x, y, rfl, rfl⟩
  · rfl
  · have hblank : Text.isBlank '\x7b' = false := by decide
    have hword : Text.isIdentifierChar '\x7b' = false := by decide
    rw [trailingIdentifier_reverse, trailingIdentifier_reverse, dropWhile_append_of_not hblank,
      dropWhile_append_of_not hblank, takeWhile_append_of_not hword, takeWhile_append_of_not hword]

/-- The mode after a slash depends on the next character and on the end of a regular expression. -/
theorem modeAfterCode_slash (s : ScanState) (r : List Char) :
    modeAfterCode s '/' r =
      if r.head? = some '/' then .lineComment
      else if r.head? = some '*' then .blockOpen s.line
      else if patternAllowed s then
        match patternEnd? r with
        | some (body, flags) => .pattern body flags
        | none => .code
      else .code := by
  cases r with
  | nil => rfl
  | cons d ds =>
    by_cases h₁ : d = '/'
    · simp [modeAfterCode, isQuote, backquote, h₁]
    · by_cases h₂ : d = '*'
      · simp [modeAfterCode, isQuote, backquote, h₂]
      · have hquote : isQuote '/' = false := by decide
        cases hend : patternEnd? (d :: ds) with
        | none => simp [modeAfterCode, hquote, h₁, h₂, hend]
        | some lengths => simp [modeAfterCode, hquote, h₁, h₂, hend]

namespace SameMode

variable {x y : List Char}

/-- Two states in which a slash opens the same go on alike after a character of code. -/
theorem modeAfterCode (hallowed : patternAllowed s = patternAllowed s') (c : Char)
    (hhead : x.head? = y.head?) (hend : patternEnd? x = patternEnd? y) :
    SameMode (modeAfterCode s c x) (modeAfterCode s' c y) := by
  by_cases hslash : c = '/'
  · rw [hslash, modeAfterCode_slash, modeAfterCode_slash, hallowed, hend, hhead]
    split_ifs
    · exact .refl _
    · exact .blockOpen _ _
    · exact .refl _
    · exact .refl _
  · by_cases hquote : isQuote c = true
    · simp only [TypeScript.modeAfterCode, hquote, if_true]
      exact .quoted _ _ _
    · simp only [TypeScript.modeAfterCode, hquote, hslash, if_false]
      exact .refl _

variable {c : Char}

/-- In code alone the rest of the text counts. -/
theorem nextMode (hmode : SameMode s.mode s'.mode)
    (hcode : SameMode (TypeScript.modeAfterCode s c x) (TypeScript.modeAfterCode s' c y)) :
    SameMode (nextMode s c x) (nextMode s' c y) := by
  unfold TypeScript.nextMode
  generalize s.mode = m at hmode
  generalize s'.mode = m' at hmode
  cases hmode with
  | refl =>
    cases m with
    | code => exact hcode
    | pattern body flags => cases body <;> exact .refl _
    | _ => exact .refl _
  | blockOpen l l' => exact .block l l' false
  | block l l' star =>
    dsimp only
    split_ifs
    · exact .refl _
    · exact .block l l' _
  | quoted mark l l' =>
    dsimp only
    split_ifs
    · exact .refl _
    · exact .escaped mark l l'
    · exact .refl _
    · exact .quoted mark l l'
  | escaped mark l l' => exact .quoted mark l l'

/-- The last significant character is replaced by the same in both states, or in none. -/
theorem nextLast (hmode : SameMode s.mode s'.mode)
    (hcode : SameMode (TypeScript.modeAfterCode s c x) (TypeScript.modeAfterCode s' c y)) :
    (nextLast s c x = s.last ∧ nextLast s' c y = s'.last) ∨
      ∃ d, nextLast s c x = some d ∧ nextLast s' c y = some d ∧
        (d = '\n' ∨ Text.isBlank c = false) := by
  have hpattern : ∀ n f, TypeScript.modeAfterCode s c x = .pattern n f →
      Text.isBlank c = false := by
    intro n f h
    by_cases hslash : c = '/'
    · rw [hslash]
      decide
    · unfold TypeScript.modeAfterCode at h
      rw [if_neg hslash] at h
      split_ifs at h
  have hplain : ∀ {l l' : Option Char},
      ((if c = '\n' ∨ !Text.isBlank c then some c else l) = l ∧
        (if c = '\n' ∨ !Text.isBlank c then some c else l') = l') ∨
      ∃ d, (if c = '\n' ∨ !Text.isBlank c then some c else l) = some d ∧
        (if c = '\n' ∨ !Text.isBlank c then some c else l') = some d ∧
        (d = '\n' ∨ Text.isBlank c = false) := by
    intro l l'
    by_cases h : c = '\n' ∨ !Text.isBlank c
    · exact Or.inr ⟨c, if_pos h, if_pos h, by simpa using h⟩
    · exact Or.inl ⟨if_neg h, if_neg h⟩
  unfold TypeScript.nextLast
  generalize s.mode = m at hmode
  generalize s'.mode = m' at hmode
  generalize TypeScript.modeAfterCode s c x = n at hcode hpattern
  generalize TypeScript.modeAfterCode s' c y = n' at hcode
  cases hmode with
  | refl =>
    cases m with
    | code =>
      cases hcode with
      | refl =>
        cases n with
        | lineComment | blockOpen => exact Or.inl ⟨rfl, rfl⟩
        | pattern n f => exact Or.inr ⟨_, rfl, rfl, Or.inr (hpattern n f rfl)⟩
        | _ => exact hplain
      | blockOpen => exact Or.inl ⟨rfl, rfl⟩
      | _ => exact hplain
    | lineComment =>
      dsimp only
      split_ifs
      · exact Or.inr ⟨_, rfl, rfl, Or.inl rfl⟩
      · exact Or.inl ⟨rfl, rfl⟩
    | _ => exact Or.inl ⟨rfl, rfl⟩
  | _ => exact Or.inl ⟨rfl, rfl⟩

/-- Such states show the same. -/
theorem shown (hmode : SameMode s.mode s'.mode)
    (hcode : SameMode (TypeScript.modeAfterCode s c x) (TypeScript.modeAfterCode s' c y))
    (hempty : x.isEmpty = y.isEmpty) : shown s c x = shown s' c y := by
  unfold TypeScript.shown
  rw [hempty]
  generalize s.mode = m at hmode
  generalize s'.mode = m' at hmode
  generalize TypeScript.modeAfterCode s c x = n at hcode
  generalize TypeScript.modeAfterCode s' c y = n' at hcode
  cases hmode with
  | refl =>
    cases m with
    | code => cases hcode <;> rfl
    | pattern body flags => cases body <;> rfl
    | _ => rfl
  | _ => rfl

theorem lineEndProblem_eq_nil_iff (hmode : SameMode s.mode s'.mode) (c : Char) :
    lineEndProblem s c = [] ↔ lineEndProblem s' c = [] := by
  unfold lineEndProblem
  generalize s.mode = m at hmode
  generalize s'.mode = m' at hmode
  cases hmode with
  | refl => rfl
  | quoted mark l l' => dsimp only; split_ifs <;> simp
  | _ => rfl

end SameMode

namespace Alike

theorem patternAllowed_eq (h : Alike s s') : patternAllowed s = patternAllowed s' := by
  unfold patternAllowed
  rw [h.last, h.recent.trailingIdentifier_eq]

/-- Alike states go on alike after a character of code, with the same rest of the line in sight. -/
theorem modeAfterCode (h : Alike s s') (c : Char) (t r r' : List Char) :
    SameMode (modeAfterCode s c (t ++ '\x7d' :: '\n' :: r))
      (modeAfterCode s' c (t ++ '\x7d' :: '\n' :: r')) :=
  .modeAfterCode h.patternAllowed_eq c (by cases t <;> rfl) (patternEnd?_append t r r')

/-- Alike states go on alike. -/
theorem next (h : Alike s s') (c : Char) (t r r' : List Char) :
    Alike (s.next c (t ++ '\x7d' :: '\n' :: r)) (s'.next c (t ++ '\x7d' :: '\n' :: r')) where
  mode := h.mode.nextMode (h.modeAfterCode c t r r')
  last := by
    rcases h.mode.nextLast (h.modeAfterCode c t r r') with ⟨h₁, h₂⟩ | ⟨d, h₁, h₂, -⟩
    · exact h₁.trans (h.last.trans h₂.symm)
    · exact h₁.trans h₂.symm
  recent := h.recent.cons_take c keywordReach

/-- Alike states show the same. -/
theorem shown (h : Alike s s') (c : Char) (t r r' : List Char) :
    shown s c (t ++ '\x7d' :: '\n' :: r) = shown s' c (t ++ '\x7d' :: '\n' :: r') :=
  h.mode.shown (h.modeAfterCode c t r r') (by cases t <;> rfl)

end Alike

/-- **Alike states mask the same text alike** and end alike, if a brace ends its line; the lines
below do not matter. -/
theorem alike_scan (h : Alike s s') (t r r' : List Char) :
    maskBefore ('\x7d' :: '\n' :: r) s t = maskBefore ('\x7d' :: '\n' :: r') s' t ∧
      Alike (stateAfter ('\x7d' :: '\n' :: r) s t) (stateAfter ('\x7d' :: '\n' :: r') s' t) ∧
      (problemsBefore ('\x7d' :: '\n' :: r) s t = [] ↔
        problemsBefore ('\x7d' :: '\n' :: r') s' t = []) := by
  induction t generalizing s s' with
  | nil => exact ⟨rfl, h, Iff.rfl⟩
  | cons c cs ih =>
    obtain ⟨h₁, h₂, h₃⟩ := ih (h.next c cs r r')
    refine ⟨?_, h₂, ?_⟩
    · rw [maskBefore, maskBefore, h.shown c cs r r', h₁]
    · rw [problemsBefore, problemsBefore, List.append_eq_nil_iff, List.append_eq_nil_iff, h₃,
        h.mode.lineEndProblem_eq_nil_iff c]

end ApiScaffold.TypeScript
