import ApiScaffold.Proofs.TypeScript.SelfContained

/-!
# Template literals

The scan takes a template literal for a string literal that may go on in the next line: it ends at
the next backquote. The expression in a substitution is not told from the text around it, so a
template literal in the expression ends the one around it, and its text is read as code.

* `template` is the template literal that holds nothing but a substitution;
* `Inside t m`: inside a template literal `t` has the mask `m`, and the literal goes on behind it;
* `spliced` is an expression cut at its backquotes, and `inside_spliced` says how it is masked;
* `template_brackets`: the brackets that the mask of such a template literal shows are those in the
  text of the template literals in the expression; without any it shows none.
-/

namespace ApiScaffold.TypeScript

/-- A template literal that holds nothing but the substitution of an expression. -/
def template (e : List Char) : List Char :=
  backquote :: ("$\x7b".toList ++ (e ++ ['\x7d']) ++ [backquote])

variable {t u m n : List Char}

/-! ### Inside a template literal -/

/-- Inside a template literal the text has the mask `m`, and the literal goes on behind it. -/
def Inside (t m : List Char) : Prop :=
  ∀ s r line, s.mode = .quoted backquote line → r ≠ [] →
    ∃ line', ScansTo s t m r (.quoted backquote line')

theorem Inside.append (ht : Inside t m) (hu : Inside u n) : Inside (t ++ u) (m ++ n) := by
  intro s r line hs hr
  obtain ⟨line', ht'⟩ := ht s (u ++ r) line hs (by simp [hr])
  obtain ⟨line'', hu'⟩ := hu _ r line' ht'.mode_eq hr
  exact ⟨line'', ht'.trans hu'⟩

theorem Inside.of_literalText (h : LiteralText backquote t) : Inside t (t.map blank) :=
  fun s r line hs hr => ⟨line, h.scansTo (by decide) hr s hs⟩

/-- A backquote in the literal ends it, and what follows is code up to the next one. -/
theorem Inside.of_piece (h : Piece t m fun _ => True) :
    Inside (backquote :: (t ++ [backquote])) (backquote :: (m ++ [backquote])) := by
  intro s r line hs _
  have hclose := ScansTo.closes (r := t ++ [backquote] ++ r) (by decide) hs
  have hcode := h.scansTo (r := [backquote] ++ r) hclose.mode_eq trivial
  exact ⟨_, hclose.trans (hcode.trans (.opens (by decide) hcode.mode_eq))⟩

/-- A template literal can stand anywhere in code, whatever it shows. -/
theorem Inside.piece {P : List Char → Prop} (h : Inside t m) :
    Piece (backquote :: (t ++ [backquote])) (backquote :: (m ++ [backquote])) P := by
  refine .of_scansTo fun s r hs _ => ?_
  have hmark : isQuote backquote = true := by decide
  have hopen := ScansTo.opens (r := t ++ [backquote] ++ r) hmark hs
  obtain ⟨line, htext⟩ := h _ ([backquote] ++ r) _ hopen.mode_eq (List.cons_ne_nil _ _)
  exact hopen.trans (htext.trans (.closes hmark htext.mode_eq))

/-- A text without a backquote goes on inside the literal, unless it ends in a backslash. -/
theorem literalText_of_notMem (h : backquote ∉ t) (hlast : t.getLast? ≠ some '\\') :
    LiteralText backquote t := by
  -- A backslash takes the next character with it.
  induction hn : t.length using Nat.strong_induction_on generalizing t with
  | _ size ih =>
    cases t with
    | nil => exact .nil
    | cons c cs =>
      rw [List.length_cons] at hn
      rw [List.mem_cons, not_or] at h
      by_cases hc : c = '\\'
      · subst hc
        cases cs with
        | nil => exact absurd rfl hlast
        | cons d ds =>
          rw [List.length_cons] at hn
          refine .escape (ih ds.length (by omega) (fun hmem => h.2 (.tail d hmem)) ?_ rfl)
          cases ds with
          | nil => simp
          | cons e es => simpa using hlast
      · refine .plain (Ne.symm h.1) hc (fun _ => rfl) (ih cs.length (by omega) h.2 ?_ rfl)
        cases cs with
        | nil => simp
        | cons d ds => simpa using hlast

/-! ### Expressions with template literals -/

/-- A text that can stand anywhere in code, with any brackets. -/
def Scannable (t : List Char) : Prop := ∃ m, Piece t m fun _ => True

theorem Scannable.piece (h : Scannable t) : Piece t (mask t) fun _ => True := by
  obtain ⟨m, hm⟩ := h
  rwa [hm.mask_eq trivial]

/-- An expression cut at its backquotes: the text in front of the first, and then the texts of its
template literals, each with what follows it. -/
def spliced (first : List Char) : List (List Char × List Char) → List Char
  | [] => first
  | p :: ps => first ++ (backquote :: (p.1 ++ [backquote]) ++ spliced p.2 ps)

/-- What the mask shows of the expression inside a template literal: the texts of its template
literals as code, and nothing else. -/
def shownInside (first : List Char) : List (List Char × List Char) → List Char
  | [] => first.map blank
  | p :: ps => first.map blank ++ (backquote :: (mask p.1 ++ [backquote]) ++ shownInside p.2 ps)

/-- The mask of the texts of the template literals. -/
def exposed (parts : List (List Char × List Char)) : List Char := parts.flatMap fun p => mask p.1

variable {first : List Char} {parts : List (List Char × List Char)}

theorem inside_spliced (hfirst : backquote ∉ first)
    (hparts : ∀ p ∈ parts, Scannable p.1 ∧ backquote ∉ p.2)
    (hescape : ¬['\\', backquote] <:+: spliced first parts) :
    Inside (spliced first parts ++ ['\x7d']) (shownInside first parts ++ [' ']) := by
  induction parts generalizing first with
  | nil =>
    have htext : LiteralText backquote (first ++ ['\x7d']) := by
      refine literalText_of_notMem ?_ (by simp)
      rw [List.mem_append, not_or]
      exact ⟨hfirst, by decide⟩
    simpa [shownInside, spliced, blank] using Inside.of_literalText htext
  | cons p ps ih =>
    obtain ⟨hcode, hafter⟩ := hparts p List.mem_cons_self
    have hend : first.getLast? ≠ some '\\' := by
      intro hlast
      obtain ⟨f, rfl⟩ := List.getLast?_eq_some_iff.1 hlast
      refine hescape ⟨f, p.1 ++ [backquote] ++ spliced p.2 ps, ?_⟩
      simp [spliced]
    have hrest : ¬['\\', backquote] <:+: spliced p.2 ps := fun hin =>
      hescape (hin.trans (((List.suffix_append _ _).trans (List.suffix_append _ _)).isInfix))
    have hall := (Inside.of_literalText (literalText_of_notMem hfirst hend)).append
      ((Inside.of_piece hcode.piece).append
        (ih hafter (fun q hq => hparts q (List.mem_cons_of_mem p hq)) hrest))
    simpa [shownInside, spliced] using hall

/-! ### Brackets -/

theorem filter_isBracket_map_blank (t : List Char) : (t.map blank).filter isBracket = [] := by
  refine List.filter_eq_nil_iff.2 fun c hc => ?_
  obtain ⟨d, -, rfl⟩ := List.mem_map.1 hc
  unfold blank
  split_ifs <;> decide

theorem filter_isBracket_shownInside (first : List Char) (parts : List (List Char × List Char)) :
    (shownInside first parts).filter isBracket = (exposed parts).filter isBracket := by
  have hmark : isBracket backquote = false := by decide
  induction parts generalizing first with
  | nil => exact filter_isBracket_map_blank first
  | cons p ps ih =>
    simp [shownInside, exposed, List.filter_append, filter_isBracket_map_blank, hmark, ih]

/-- **The brackets of a template literal are those of the template literals in it.** Whatever the
expression is, if no backquote in it is escaped, and the texts of the template literals in it can
stand in code, no literal is endless; and the template literal around it is balanced, or shows no
bracket, exactly if these texts, taken for code one after the other, are balanced, or show none.
So it is with any expression without a backquote. -/
theorem template_brackets (hfirst : backquote ∉ first)
    (hparts : ∀ p ∈ parts, Scannable p.1 ∧ backquote ∉ p.2)
    (hescape : ¬['\\', backquote] <:+: spliced first parts) :
    literalProblems (template (spliced first parts)) = [] ∧
      (balanceProblems (template (spliced first parts)) = [] ↔ Balanced (exposed parts)) ∧
      ((∀ c ∈ mask (template (spliced first parts)), isBracket c = false) ↔
        ∀ p ∈ parts, ∀ c ∈ mask p.1, isBracket c = false) := by
  have hopen : Inside "$\x7b".toList [' ', ' '] := .of_literalText (by decide)
  have hpiece : Piece (template (spliced first parts)) _ fun _ => True :=
    (hopen.append (inside_spliced hfirst hparts hescape)).piece
  have hproblems := hpiece.literalProblems_eq_nil trivial
  have hbrackets : (mask (template (spliced first parts))).filter isBracket =
      (exposed parts).filter isBracket := by
    have hmark : isBracket backquote = false := by decide
    have hspace : isBracket ' ' = false := by decide
    rw [hpiece.mask_eq trivial]
    simp [List.filter_append, hmark, hspace, filter_isBracket_shownInside]
  refine ⟨hproblems, ?_, ?_⟩
  · rw [balanceProblems, hproblems, List.nil_append, ← balanced_iff, ← balanced_filter_iff,
      hbrackets, balanced_filter_iff]
  · have hnone : ∀ t : List Char, (∀ c ∈ t, isBracket c = false) ↔ t.filter isBracket = [] :=
      fun t => by simp [List.filter_eq_nil_iff]
    rw [hnone, hbrackets, ← hnone]
    simp only [exposed, List.mem_flatMap]
    constructor
    · exact fun h p hp c hc => h c ⟨p, hp, hc⟩
    · rintro h c ⟨p, hp, hc⟩
      exact h p hp c hc

/-- A call whose arguments hold brackets in strings, comments and the text around a template
literal, but none in the template literal. -/
def templateCall : List Char × List (List Char × List Char) :=
  ("f('\x7d' + /* \x7b */ ".toList, [("a \\ b, ".toList, " + \x22(\x22, [1])".toList)])

theorem template_brackets_templateCall :
    backquote ∉ templateCall.1 ∧
      (∀ p ∈ templateCall.2, Scannable p.1 ∧ backquote ∉ p.2) ∧
      ¬['\\', backquote] <:+: spliced templateCall.1 templateCall.2 ∧
      balanceProblems (template (spliced templateCall.1 templateCall.2)) = [] ∧
      ∀ c ∈ mask (template (spliced templateCall.1 templateCall.2)), isBracket c = false := by
  have hfirst : backquote ∉ templateCall.1 := by decide
  have hparts : ∀ p ∈ templateCall.2, Scannable p.1 ∧ backquote ∉ p.2 := by
    intro p hp
    obtain rfl := List.mem_singleton.1 hp
    exact ⟨⟨_, .of_all (by decide)⟩, by decide⟩
  have hescape : ¬['\\', backquote] <:+: spliced templateCall.1 templateCall.2 := by
    decide +kernel
  have hnone : ∀ p ∈ templateCall.2, ∀ c ∈ mask p.1, isBracket c = false := by
    intro p hp
    obtain rfl := List.mem_singleton.1 hp
    exact List.all_iff_forall_prop.1 (by decide)
  obtain ⟨-, hbalanced, hshown⟩ := template_brackets hfirst hparts hescape
  refine ⟨hfirst, hparts, hescape, hbalanced.2 ?_, hshown.2 hnone⟩
  refine .of_plain fun c hc => ?_
  obtain ⟨p, hp, hc⟩ := List.mem_flatMap.1 hc
  exact hnone p hp c hc

/-- The text of a template literal in the expression is not passed over: a brace in it is taken for
one that closes nothing, a quotation mark for a string that does not end, and the braces of its own
substitutions are shown. -/
theorem template_astray :
    (balanceProblems "\x60\x7d\x60".toList = [] ∧
      balanceProblems (template "\x60\x7d\x60".toList) = [.unexpectedCloser 1 '\x7d']) ∧
    (balanceProblems "\x60\x27\x60".toList = [] ∧
      balanceProblems (template "\x60\x27\x60".toList) = [.unterminatedString 1]) ∧
    (balanceProblems "\x60$\x7bx\x7d\x60".toList = [] ∧
      mask (template "\x60$\x7bx\x7d\x60".toList) = "\x60  \x60$\x7bx\x7d\x60 \x60".toList) := by
  decide +kernel

end ApiScaffold.TypeScript
