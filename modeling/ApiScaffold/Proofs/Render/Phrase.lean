import ApiScaffold.Draft.Type
import ApiScaffold.Proofs.Text.Replace
import ApiScaffold.Proofs.TypeScript.SelfContained
import ApiScaffold.Render.Phrase

/-!
# Phrases that hold any text

The generated files show texts that may hold anything at all: descriptions in comments, names of
properties and values of enumerations in string literals.

* `Phrase`: a self-contained text on one line;
* `phrase_docComment`, `phrase_propertyKey`, `phrase_unionText`: what is written for such a text is
  a phrase, whatever the text is; each has its own way to keep the sign of its end out of it;
* `phrase_importLine`: a line of imports is one if its names are words and its module can stand
  between quotation marks;
* `indent_joinLines`: indenting a text indents its lines.
-/

namespace ApiScaffold.Render

open TypeScript

/-- A text on one line that can stand anywhere in code. -/
structure Phrase (t : List Char) : Prop where
  lineBreak_notMem : '\n' ∉ t
  selfContained : SelfContained t

namespace Phrase

variable {t u : List Char}

theorem nil : Phrase [] := ⟨List.not_mem_nil, .nil⟩

theorem append (ht : Phrase t) (hu : Phrase u) : Phrase (t ++ u) where
  lineBreak_notMem := by
    rw [List.mem_append, not_or]
    exact ⟨ht.lineBreak_notMem, hu.lineBreak_notMem⟩
  selfContained := ht.selfContained.append hu.selfContained

theorem of_all (h : t.all (fun c => isPlainCode c && !isBracket c && c != '\n') = true) :
    Phrase t where
  lineBreak_notMem hmem := absurd (List.all_eq_true.1 h _ hmem) (by decide)
  selfContained := .of_plain fun c hc => by
    have hplain := List.all_eq_true.1 h c hc
    simp only [Bool.and_eq_true, Bool.not_eq_true'] at hplain
    exact hplain.1

theorem of_identifier (h : ∀ c ∈ t, Text.isIdentifierChar c = true) : Phrase t where
  lineBreak_notMem hmem := absurd (h _ hmem) (by decide)
  selfContained := .of_plain fun c hc =>
    ⟨isPlainCode_of_isHeaderChar (isHeaderChar_of_isIdentifierChar (h c hc)),
      isBracket_of_isHeaderChar (isHeaderChar_of_isIdentifierChar (h c hc))⟩

theorem of_word (h : IsWord t) : Phrase t :=
  of_identifier fun c hc => isIdentifierChar_of_isWordChar (h c hc)

/-- A phrase between two brackets that belong together. -/
theorem pair {o c : Char} (ho : closerOf? o = some c) (ht : Phrase t) :
    Phrase (o :: (t ++ [c])) where
  lineBreak_notMem := by
    have hends : '\n' ≠ o ∧ '\n' ≠ c := by
      rcases closerOf?_eq_some_iff.1 ho with ⟨rfl, rfl⟩ | ⟨rfl, rfl⟩ | ⟨rfl, rfl⟩ <;> decide
    simp [hends, ht.lineBreak_notMem]
  selfContained := ht.selfContained.pair ho

/-- A text between quotation marks that needs no escape. -/
theorem literal (h : t.all isPlainText = true) : Phrase ('\x22' :: (t ++ ['\x22'])) where
  lineBreak_notMem hmem := by
    simp only [List.mem_cons, List.mem_append, List.not_mem_nil, or_false] at hmem
    rcases hmem with hmem | hmem | hmem
    · exact absurd hmem (by decide)
    · exact absurd (List.all_eq_true.1 h _ hmem) (by decide)
    · exact absurd hmem (by decide)
  selfContained := .quoted (by decide) (literalText_of_plain (List.all_eq_true.1 h)).1

theorem joinWith (ht : Phrase t) {ls : List (List Char)} (h : ∀ l ∈ ls, Phrase l) :
    Phrase (Text.joinWith t ls) where
  lineBreak_notMem hmem := by
    rcases Text.mem_joinWith hmem with hmem | ⟨l, hl, hmem⟩
    · exact ht.lineBreak_notMem hmem
    · exact (h l hl).lineBreak_notMem hmem
  selfContained := .joinWith ht.selfContained fun l hl => (h l hl).selfContained

end Phrase

/-! ### String literals -/

section Literals

variable {mark : Char} {t u : List Char}

theorem literalText_append (ht : LiteralText mark t) (hu : LiteralText mark u) :
    LiteralText mark (t ++ u) := by
  induction ht with
  | nil => exact hu
  | escape _ ih => exact .escape ih
  | plain hmark hslash hline _ ih => exact .plain hmark hslash hline ih

theorem literalText_flatMap {f : Char → List Char} (h : ∀ c, LiteralText mark (f c))
    (cs : List Char) : LiteralText mark (cs.flatMap f) :=
  Text.holds_flatMap .nil literalText_append fun c _ => h c

theorem isPlainText_of_mem_hexDigits {width n : ℕ} {c : Char} (h : c ∈ Text.hexDigits width n) :
    isPlainText c = true := by
  have hdigit : ∀ d < 16, isPlainText (Text.hexDigit d) = true := by decide
  induction width generalizing n with
  | zero => cases h
  | succ width ih =>
    rw [Text.hexDigits, List.mem_append, List.mem_singleton] at h
    rcases h with h | rfl
    · exact ih h
    · exact hdigit _ (Nat.mod_lt n (by decide))

/-- An escape keeps the literal open, and on its line. -/
theorem literalText_unitEscape (n : ℕ) :
    LiteralText '\x22' (Text.unitEscape n) ∧ '\n' ∉ Text.unitEscape n := by
  have hdigits : ∀ c ∈ Text.hexDigits 4 n, isPlainText c = true := fun c =>
    isPlainText_of_mem_hexDigits
  refine ⟨.escape (literalText_of_plain hdigits).1, ?_⟩
  simp only [Text.unitEscape, List.mem_cons, not_or]
  exact ⟨by decide, by decide, fun hmem => absurd (hdigits _ hmem) (by decide)⟩

theorem literalText_codeEscape (n : ℕ) :
    LiteralText '\x22' (Text.codeEscape n) ∧ '\n' ∉ Text.codeEscape n := by
  unfold Text.codeEscape Text.unitsOf
  split_ifs
  · simpa using literalText_unitEscape n
  · obtain ⟨h₁, hline₁⟩ := literalText_unitEscape (0xD800 + (n - 0x10000) / 0x400)
    obtain ⟨h₂, hline₂⟩ := literalText_unitEscape (0xDC00 + (n - 0x10000) % 0x400)
    have happend := literalText_append h₁ h₂
    simp only [List.flatMap_cons, List.flatMap_nil, List.append_nil, List.mem_append, not_or]
    exact ⟨happend, hline₁, hline₂⟩

/-- However a character is written, the literal stays open, and on its line. -/
theorem literalText_quoteChar (reach : Text.Reach) (c : Char) :
    LiteralText '\x22' (Text.quoteChar reach c) ∧ '\n' ∉ Text.quoteChar reach c := by
  have hescape : ∀ d, d ≠ '\n' → LiteralText '\x22' ['\\', d] ∧ '\n' ∉ ['\\', d] := fun d hd =>
    ⟨.escape .nil, by simpa using hd.symm⟩
  unfold Text.quoteChar
  split_ifs with hquote hslash hline
  · exact hescape _ (by decide)
  · exact hescape _ (by decide)
  · exact hescape _ (by decide)
  · exact hescape _ (by decide)
  · exact hescape _ (by decide)
  · exact hescape _ (by decide)
  · exact hescape _ (by decide)
  · exact literalText_unitEscape _
  · exact literalText_codeEscape _
  · exact ⟨.plain hquote hslash (fun h => absurd h hline) .nil, by simpa using Ne.symm hline⟩

/-- **A quoted text is a phrase,** whatever it holds. -/
theorem phrase_quote (reach : Text.Reach) (cs : List Char) : Phrase (Text.quote reach cs) where
  lineBreak_notMem hmem := by
    simp only [Text.quote, List.cons_append, List.mem_cons, List.mem_append, List.mem_flatMap,
      List.not_mem_nil, or_false] at hmem
    rcases hmem with h | ⟨c, -, h⟩ | h
    · exact absurd h (by decide)
    · exact (literalText_quoteChar reach c).2 h
    · exact absurd h (by decide)
  selfContained := .quoted (by decide) (literalText_flatMap
    (fun c => (literalText_quoteChar reach c).1) cs)

end Literals

/-- The name of a property is written as an identifier or as a literal. -/
theorem phrase_propertyKey (name : List Char) : Phrase (propertyKey name) := by
  unfold propertyKey
  split_ifs with h
  · obtain ⟨-, -, -, -, hname⟩ := exists_of_isIdentifier h
    exact .of_identifier hname
  · exact phrase_quote _ name

theorem phrase_unionText (texts : List String) : Phrase (Draft.unionText texts).toList := by
  rw [Draft.unionText, String.toList_intercalate, List.map_map]
  refine Phrase.joinWith (.of_all (by decide)) fun l hl => ?_
  obtain ⟨s, -, rfl⟩ := List.mem_map.1 hl
  rw [Function.comp_apply, String.toList_ofList]
  exact phrase_quote _ _

/-- **The union of any values is a phrase.** -/
theorem phrase_literalUnion {values : Value} {t : String} (h : Draft.literalUnion values = .ok t) :
    Phrase t.toList := by
  unfold Draft.literalUnion at h
  split at h
  · next vs _ =>
    cases htexts : Draft.literalTexts vs with
    | error e => rw [htexts] at h; cases h
    | ok texts =>
      rw [htexts] at h
      obtain rfl := Except.ok.inj h
      exact phrase_unionText texts
  · cases h

/-! ### Comments -/

/-- **A text in a comment is a phrase,** whatever it holds: in it an asterisk stands nowhere in
front of a slash, nor does one at its end. -/
theorem phrase_docComment (cs : List Char) : Phrase (docComment cs) := by
  have hends : Text.replaceAll "*/".toList "*\\/".toList =
      Text.replaceAll ['*', '/'] ['*', '\\', '/'] := rfl
  unfold docComment
  simp only [hends]
  have hgone := Text.not_infix_replaceAll (a := '*') (x := '\\') (b := '/') (by decide) (by decide)
    (by decide) (Text.joinWith [' '] (Text.words cs))
  have hline : '\n' ∉ Text.replaceAll ['*', '/'] ['*', '\\', '/']
      (Text.joinWith [' '] (Text.words cs)) := by
    intro hmem
    rcases Text.mem_replaceAll hmem with hmem | hmem
    · rcases Text.mem_joinWith hmem with hmem | ⟨w, hw, hmem⟩
      · exact absurd hmem (by decide)
      · exact absurd (Text.notMem_of_mem_splitWhere (List.mem_of_mem_filter hw) hmem) (by decide)
    · exact absurd hmem (by decide)
  generalize Text.replaceAll ['*', '/'] ['*', '\\', '/']
    (Text.joinWith [' '] (Text.words cs)) = line at hgone hline
  constructor
  · have hconstant : '\n' ∉ "/** ".toList ++ " */".toList := by decide
    simp only [List.mem_append, not_or] at hconstant ⊢
    exact ⟨⟨hconstant.1, hline⟩, hconstant.2⟩
  · have hbody : ¬['*', '/'] <:+: '*' :: ' ' :: (line ++ [' ']) := by
      simp only [Text.pair_infix_cons_iff, List.infix_concat_iff, List.suffix_concat_iff, not_or]
      refine ⟨by simp, by simp, ⟨by simp, ?_⟩, hgone⟩
      rintro ⟨w, hw, -⟩
      exact absurd (congrArg List.getLast? hw) (by simp)
    have hcomment := SelfContained.blockComment hbody
    simpa [LexicalPiece.text] using hcomment

/-! ### Lines -/

/-- A line of imports is a phrase. -/
theorem phrase_importLine {keyword module : String} {names : List String}
    (hkeyword : Phrase keyword.toList) (hnames : ∀ n ∈ names, IsWord n.toList)
    (hmodule : module.toList.all isPlainText = true) :
    Phrase (importLine keyword names module) := by
  have hlist : Phrase (commaList names) := by
    rw [commaList, String.toList_intercalate]
    refine Phrase.joinWith (.of_all (by decide)) fun l hl => ?_
    obtain ⟨n, hn, rfl⟩ := List.mem_map.1 hl
    exact .of_word (hnames n hn)
  have hspace : Phrase [' '] := .of_all (by decide)
  have hfrom : Phrase " from ".toList := .of_all (by decide)
  have hend : Phrase [';'] := .of_all (by decide)
  have hclause := ((hspace.append hlist).append hspace).pair (o := '\x7b') rfl
  have hall := (((hkeyword.append hspace).append hclause).append hfrom).append
    ((Phrase.literal hmodule).append hend)
  simpa [importLine] using hall

section Lines

variable {ls : List (List Char)}

/-- **Indenting a text indents its lines.** -/
theorem indent_joinLines (level : ℕ) (h : ∀ l ∈ ls, l ≠ [] ∧ '\n' ∉ l) (hne : ls ≠ []) :
    indent level (joinLines ls) = joinLines (ls.map (indentation level ++ ·)) := by
  unfold indent joinLines
  rw [Text.splitOn_joinWith (fun l hl => (h l hl).2) hne]
  congr 1
  refine List.map_congr_left fun l hl => ?_
  rw [List.isEmpty_eq_false_iff.2 (h l hl).1]
  rfl

end Lines

end ApiScaffold.Render
