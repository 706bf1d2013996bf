import ApiScaffold.Proofs.TypeScript.Scan

/-!
# The lexical pieces of a source text

* `LexicalPiece` is a piece of code, a string literal or a comment, with its text and its mask, and
  `LexicalPiece.Sound` says what may stand in it and behind it;
* `Lexical` says so of pieces one after the other;
* `scan_pieces`: such pieces are masked one by one, and the scan finds no fault with them.

No piece notices what its neighbours hold: quotation marks and the signs that begin a comment count
in code alone. A line comment leaves the scan outside code, and the line break behind it leads back.
-/

namespace ApiScaffold.TypeScript

/-! ### Pieces -/

/-- A piece of a source text: code without quotation marks and slashes, a string literal of the
given quotation mark, or a comment. -/
inductive LexicalPiece where
  | code (text : List Char)
  | literal (mark : Char) (content : List Char)
  | blockComment (body : List Char)
  | lineComment (body : List Char)
  deriving DecidableEq, Repr

/-- Nothing follows, or a line break does. -/
def LineEnds (r : List Char) : Prop := r.head?.all (· == '\n') = true

namespace LexicalPiece

/-- The piece as it stands in a source text. -/
def text : LexicalPiece → List Char
  | code t => t
  | literal mark t => mark :: (t ++ [mark])
  | blockComment t => '/' :: '*' :: (t ++ ['*', '/'])
  | lineComment t => '/' :: '/' :: t

/-- The mask of the piece: code stays, a literal keeps its quotation marks, and all else is blanked
up to its line breaks. -/
def masked : LexicalPiece → List Char
  | code t => t
  | literal mark t => mark :: (t.map blank ++ [mark])
  | blockComment t => (blockComment t).text.map blank
  | lineComment t => (lineComment t).text.map blank

/-- The piece is what it should be, with the text `r` behind it. -/
def Sound (r : List Char) : LexicalPiece → Prop
  | code t => ∀ c ∈ t, isQuote c = false ∧ c ≠ '/'
  | literal mark t => isQuote mark = true ∧ LiteralText mark t
  | blockComment t => ¬['*', '/'] <:+: t
  | lineComment t => '\n' ∉ t ∧ LineEnds r

/-- Pieces one after the other. -/
def textOf (ps : List LexicalPiece) : List Char := ps.flatMap text

/-- The masks of pieces one after the other. -/
def maskedOf (ps : List LexicalPiece) : List Char := ps.flatMap masked

end LexicalPiece

/-- Each of the pieces is what it should be, with the others behind it. -/
def Lexical : List LexicalPiece → Prop
  | [] => True
  | p :: ps => p.Sound (LexicalPiece.textOf ps) ∧ Lexical ps

/-! ### Deciding what is lexical -/

theorem literalText_cons_iff {mark c : Char} {cs : List Char} :
    LiteralText mark (c :: cs) ↔
      if c = '\\' then ∃ d ds, cs = d :: ds ∧ LiteralText mark ds
      else c ≠ mark ∧ (c = '\n' → mark = backquote) ∧ LiteralText mark cs := by
  constructor
  · intro h
    cases h with
    | @escape d ds h => exact ⟨d, ds, rfl, h⟩
    | plain hmark hslash hline h =>
      rw [if_neg hslash]
      exact ⟨hmark, hline, h⟩
  · intro h
    split_ifs at h with hc
    · obtain ⟨d, ds, rfl, h⟩ := h
      subst hc
      exact .escape h
    · exact .plain h.1 hc h.2.1 h.2.2

instance decidableLiteralText (mark : Char) : (t : List Char) → Decidable (LiteralText mark t)
  | [] => isTrue .nil
  | [c] => decidable_of_iff (c ≠ '\\' ∧ c ≠ mark ∧ (c = '\n' → mark = backquote)) <| by
      by_cases hc : c = '\\' <;> simp [literalText_cons_iff, hc, LiteralText.nil]
  | c :: d :: ds =>
    have := decidableLiteralText mark ds
    have := decidableLiteralText mark (d :: ds)
    decidable_of_iff (if c = '\\' then LiteralText mark ds
      else c ≠ mark ∧ (c = '\n' → mark = backquote) ∧ LiteralText mark (d :: ds)) <| by
      simp [literalText_cons_iff (c := c)]

instance (r : List Char) : DecidablePred (LexicalPiece.Sound r)
  | .code t => decidable_of_iff (t.all (fun c => !isQuote c && c != '/') = true) <| by
      simp [LexicalPiece.Sound]
  | .literal mark t => inferInstanceAs (Decidable (isQuote mark = true ∧ LiteralText mark t))
  | .blockComment t => inferInstanceAs (Decidable ¬['*', '/'] <:+: t)
  | .lineComment t => inferInstanceAs (Decidable ('\n' ∉ t ∧ r.head?.all (· == '\n') = true))

instance decidableLexical : DecidablePred Lexical
  | [] => isTrue trivial
  | p :: ps =>
    have := decidableLexical ps
    inferInstanceAs (Decidable (p.Sound (LexicalPiece.textOf ps) ∧ Lexical ps))

/-! ### Comments -/

section Comments

variable {s : ScanState} {t r : List Char} {line : ℕ}

/-- A character of a block comment does not end it, nor does it make up an end with the next. -/
theorem notInfix_cons {star : Bool} {c : Char} {cs : List Char}
    (h : ¬['*', '/'] <:+: if star then '*' :: c :: cs else c :: cs) :
    ¬(c = '/' ∧ star = true) ∧ ¬['*', '/'] <:+: if c == '*' then '*' :: cs else cs := by
  have hbody : ¬['*', '/'] <:+: c :: cs := by
    cases star with
    | false => exact h
    | true => exact fun hin => h (hin.trans (List.suffix_cons _ _).isInfix)
  refine ⟨?_, ?_⟩
  · rintro ⟨rfl, rfl⟩
    exact h ⟨[], cs, rfl⟩
  · split_ifs with hstar
    · rwa [eq_of_beq hstar] at hbody
    · exact fun hin => hbody (hin.trans (List.suffix_cons _ _).isInfix)

/-- A block comment goes on up to an asterisk with a slash behind it. -/
theorem scansTo_blockComment {star : Bool}
    (h : ¬['*', '/'] <:+: if star then '*' :: t else t) :
    ∀ s : ScanState, s.mode = .block line star →
      ScansTo s (t ++ ['*', '/']) ((t ++ ['*', '/']).map blank) r .code := by
  induction t generalizing star with
  | nil =>
    intro s hs
    refine .cons (a := .block line true) ?_ ?_ ?_ fun s' hs' =>
      .cons (a := .code) ?_ ?_ ?_ fun _ => .nil
    · rw [shown, hs]
    · rw [lineEndProblem, hs]
    · rw [nextMode, hs]
      rfl
    · rw [shown, hs']
    · rw [lineEndProblem, hs']
    · rw [nextMode, hs']
      rfl
  | cons c cs ih =>
    intro s hs
    obtain ⟨hclose, hrest⟩ := notInfix_cons h
    refine .cons (a := .block line (c == '*')) ?_ ?_ ?_ (ih hrest)
    · rw [shown, hs]
    · rw [lineEndProblem, hs]
    · rw [nextMode, hs]
      exact if_neg hclose

/-- A line comment goes on to the end of its line. -/
theorem scansTo_lineComment (h : '\n' ∉ t) :
    ∀ s : ScanState, s.mode = .lineComment → ScansTo s t (t.map blank) r .lineComment := by
  induction t with
  | nil => exact fun s hs => .nil hs
  | cons c cs ih =>
    intro s hs
    rw [List.mem_cons, not_or] at h
    refine .cons (a := .lineComment) ?_ ?_ ?_ (ih h.2)
    · rw [shown, hs]
    · rw [lineEndProblem, hs]
    · rw [nextMode, hs]
      exact if_neg (Ne.symm h.1)

/-- The line break behind a line comment, or the end of the text, leads back to code. -/
theorem lineComment_ends (hs : s.mode = .lineComment) (hr : LineEnds r) :
    maskFrom s r = maskFrom { s with mode := .code } r ∧
      literalProblemsFrom s r = literalProblemsFrom { s with mode := .code } r := by
  cases r with
  | nil => exact ⟨rfl, by rw [literalProblemsFrom, ScanState.endProblem, hs]; rfl⟩
  | cons c cs =>
    obtain rfl : c = '\n' := by simpa [LineEnds] using hr
    have hcode : modeAfterCode { s with mode := .code } '\n' cs = .code :=
      modeAfterCode_of_plain (by decide) _ _
    have hnext : s.next '\n' cs = ScanState.next { s with mode := .code } '\n' cs := by
      simp [ScanState.next, nextMode, nextLast, hs, hcode]
    constructor
    · rw [maskFrom, maskFrom, hnext, shown, shown, hs, hcode]
      rfl
    · rw [literalProblemsFrom, literalProblemsFrom, hnext, lineEndProblem, lineEndProblem, hs]

/-- A block comment shows nothing but its line breaks. -/
theorem Piece.blockComment {P : List Char → Prop} (h : ¬['*', '/'] <:+: t) :
    Piece (LexicalPiece.blockComment t).text (LexicalPiece.blockComment t).masked P := by
  refine .of_scansTo fun s r hs _ => ?_
  have hopen : modeAfterCode s '/' ('*' :: (t ++ ['*', '/']) ++ r) = .blockOpen s.line := rfl
  refine .cons (a := .blockOpen s.line) ?_ ?_ ?_ fun s' hs' =>
    .cons (a := .block s.line false) ?_ ?_ ?_ (scansTo_blockComment h)
  · rw [shown, hs]
    rfl
  · rw [lineEndProblem, hs]
  · rw [nextMode, hs, hopen]
  · rw [shown, hs']
  · rw [lineEndProblem, hs']
  · rw [nextMode, hs']

/-- A line comment shows nothing. -/
theorem scansTo_lineComment_text (hs : s.mode = .code) (h : '\n' ∉ t) :
    ScansTo s (LexicalPiece.lineComment t).text (LexicalPiece.lineComment t).masked r
      .lineComment := by
  have hopen : modeAfterCode s '/' ('/' :: t ++ r) = .lineComment := rfl
  refine .cons (a := .lineComment) ?_ ?_ ?_ (scansTo_lineComment (t := '/' :: t) ?_)
  · rw [shown, hs]
    rfl
  · rw [lineEndProblem, hs]
  · rw [nextMode, hs, hopen]
  · simpa using h

end Comments

/-! ### Sequences of pieces -/

/-- A piece leaves code behind, or a line comment that ends with its line. -/
theorem LexicalPiece.Sound.exists_scansTo {p : LexicalPiece} {r : List Char} (h : p.Sound r)
    {s : ScanState} (hs : s.mode = .code) :
    ∃ a, ScansTo s p.text p.masked r a ∧ (a = .code ∨ a = .lineComment ∧ LineEnds r) := by
  cases p with
  | code t =>
    have hplain : ∀ c ∈ t, isPlainCode c = true := fun c hc => by
      simp [isPlainCode, (h c hc).1, (h c hc).2]
    exact ⟨_, (Piece.of_plain (P := fun _ => True) hplain).scansTo hs trivial, Or.inl rfl⟩
  | literal mark t =>
    exact ⟨_, (Piece.quoted (P := fun _ => True) h.1 h.2).scansTo hs trivial, Or.inl rfl⟩
  | blockComment t =>
    exact ⟨_, (Piece.blockComment (P := fun _ => True) h).scansTo hs trivial, Or.inl rfl⟩
  | lineComment t => exact ⟨_, scansTo_lineComment_text hs h.1, Or.inr ⟨rfl, h.2⟩⟩

open LexicalPiece in
/-- Pieces that begin in code are masked one by one, without a problem. -/
theorem Lexical.scan {ps : List LexicalPiece} (h : Lexical ps) {s : ScanState}
    (hs : s.mode = .code) :
    literalProblemsFrom s (textOf ps) = [] ∧ maskFrom s (textOf ps) = maskedOf ps := by
  induction ps generalizing s with
  | nil =>
    refine ⟨?_, rfl⟩
    rw [textOf, List.flatMap_nil, literalProblemsFrom, ScanState.endProblem, hs]
  | cons p ps ih =>
    obtain ⟨hp, hps⟩ := h
    obtain ⟨a, hscan, ha⟩ := hp.exists_scansTo hs
    -- behind a line comment the rest is scanned as if it stood in code
    obtain ⟨s', hs', hmask, hproblems⟩ : ∃ s', s'.mode = .code ∧
        maskFrom (stateAfter (textOf ps) s p.text) (textOf ps) = maskFrom s' (textOf ps) ∧
        literalProblemsFrom (stateAfter (textOf ps) s p.text) (textOf ps) =
          literalProblemsFrom s' (textOf ps) := by
      rcases ha with rfl | ⟨rfl, hends⟩
      · exact ⟨_, hscan.mode_eq, rfl, rfl⟩
      · exact ⟨_, rfl, lineComment_ends hscan.mode_eq hends⟩
    obtain ⟨hnone, hrest⟩ := ih hps hs'
    have htext : textOf (p :: ps) = p.text ++ textOf ps := List.flatMap_cons ..
    rw [htext]
    constructor
    · rw [literalProblemsFrom_append, hscan.problems_eq, hproblems, hnone, List.append_nil]
    · rw [maskFrom_append, hscan.mask_eq, hmask, hrest]
      rfl

open LexicalPiece in
/-- **The scan recognises lexical pieces,** whatever stands in them and in whatever order: it finds
no fault with their text and masks each as it should. -/
theorem scan_pieces {ps : List LexicalPiece} (h : Lexical ps) :
    literalProblems (textOf ps) = [] ∧ mask (textOf ps) = maskedOf ps :=
  h.scan rfl

/-- Literals that hold the signs of comments, comments that hold quotation marks, escaped quotation
marks and line breaks, and comments that end where others begin. -/
def mixedPieces : List LexicalPiece :=
  [.code "f(".toList, .literal '\x22' "/* \\\x22 //".toList, .blockComment "/\n\x27*".toList,
    .literal '\x27' "\\\n\x22".toList, .blockComment [], .literal backquote "$\x7b\n\x7d".toList,
    .lineComment "* \x27".toList, .code "\n)".toList, .lineComment []]

open LexicalPiece in
theorem scan_pieces_mixed :
    Lexical mixedPieces ∧
      literalProblems (textOf mixedPieces) = [] ∧
        mask (textOf mixedPieces) = maskedOf mixedPieces := by
  have sound : Lexical mixedPieces := by decide +kernel
  exact ⟨sound, scan_pieces sound⟩

end ApiScaffold.TypeScript
