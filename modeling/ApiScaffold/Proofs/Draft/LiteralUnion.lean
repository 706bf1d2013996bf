import ApiScaffold.Draft.Type
import ApiScaffold.Proofs.Document.JsonString
import ApiScaffold.Proofs.Text.Split

/-!
# Unions of literals, read back

The values of an enumeration are written as string literals with bars between them. Quotation marks,
backslashes, control characters and bars may all stand in the values, and the union tells them
nevertheless.

* `caption?` is the text by which a value is listed;
* `readUnion` reads string literals with bars between them, up to the end of a text;
* `literalUnion_eq`: the union of values is the union of their texts;
* `literalUnion_readBack`: it is read back as these texts, and tells them.
-/

namespace ApiScaffold.Draft

/-! ### Texts of values -/

/-- The text by which an enumeration lists a value; `none` if it has none. Truth values are written
in small letters. -/
def caption? : Value → Option String
  | .bool true => some "true"
  | .bool false => some "false"
  | v => v.written?

/-- The texts of values in order; `none` if one of them has none. -/
def captions? (vs : List Value) : Option (List String) := vs.mapM caption?

/-- Every truth value has a text, so that a value is listed exactly if it can be written. -/
theorem caption?_eq_none {v : Value} : caption? v = none ↔ v.written? = none := by
  unfold caption?
  split
  · exact ⟨nofun, nofun⟩
  · exact ⟨nofun, nofun⟩
  · exact Iff.rfl

theorem captions?_cons (v : Value) (vs : List Value) :
    captions? (v :: vs) = (caption? v).bind fun t => (captions? vs).map (t :: ·) := by
  rw [captions?, List.mapM_cons]
  cases caption? v with
  | none => rfl
  | some t => cases h : vs.mapM caption? <;> simp [captions?, h]

theorem captions?_eq_none {vs : List Value} :
    captions? vs = none ↔ ∃ v ∈ vs, v.written? = none := by
  induction vs with
  | nil => simp [captions?]
  | cons v vs ih =>
    rw [captions?_cons, List.exists_mem_cons_iff, ← ih, ← caption?_eq_none]
    cases caption? v <;> simp

theorem captions?_eq_some_nil {vs : List Value} : captions? vs = some [] ↔ vs = [] := by
  cases vs with
  | nil => simp [captions?]
  | cons v vs =>
    rw [captions?_cons]
    cases caption? v <;> simp

theorem literalText_eq (v : Value) :
    literalText v = (caption? v).elim (.error (.misuse .badText)) .ok := by
  unfold literalText caption?
  split
  · next b => cases b <;> rfl
  · unfold textOf
    split <;> simp_all

theorem literalTexts_eq (vs : List Value) :
    literalTexts vs = (captions? vs).elim (.error (.misuse .badText)) .ok := by
  induction vs with
  | nil => rfl
  | cons v vs ih =>
    rw [literalTexts, literalText_eq, ih, captions?_cons]
    cases caption? v with
    | none => rfl
    | some t => cases captions? vs <;> rfl

theorem parts?_of_items? {values : Value} {vs : List Value} (h : values.items? = some vs) :
    parts? values = some vs := by
  unfold Value.items? at h
  unfold parts?
  split at h
  · next items hitems =>
    rw [hitems]
    exact h
  · cases h

/-- The union of values is that of their texts. -/
theorem literalUnion_eq {values : Value} {vs : List Value} (h : values.items? = some vs) :
    literalUnion values =
      (captions? vs).elim (.error (.misuse .badText)) fun ts => .ok (unionText ts) := by
  rw [literalUnion, parts?_of_items? h]
  dsimp only
  rw [literalTexts_eq]
  cases captions? vs <;> rfl

/-! ### Reading literals -/

/-- What stands between two literals. -/
def bar : List Char := " | ".toList

/-- Reads string literals with bars between them, from the first one to the end of the text. -/
def readLiterals (cs : List Char) : Option (List String) :=
  match _read : Json.stringAt? cs with
  | none => none
  | some (t, rest) =>
    if rest = [] then some [String.ofList t]
    else
      match _barred : Text.dropLeading? bar rest with
      | none => none
      | some more => (readLiterals more).map (String.ofList t :: ·)
termination_by cs.length
decreasing_by
  have := Json.length_of_stringAt? _read
  rw [Text.dropLeading?_eq_some_iff.1 _barred, List.length_append] at this
  omega

/-- Reads string literals with bars between them; a text that is empty holds none. -/
def readUnion (cs : List Char) : Option (List String) :=
  if cs = [] then some [] else readLiterals cs

/-- A text as a string literal. -/
def quoted (t : String) : List Char := Text.quote .unicode t.toList

theorem toList_unionText (ts : List String) :
    (unionText ts).toList = Text.joinWith bar (ts.map quoted) := by
  rw [unionText, String.toList_intercalate, List.map_map]
  simp only [Function.comp_def, String.toList_ofList]
  rfl

theorem readLiterals_quoted (t : String) : readLiterals (quoted t) = some [t] := by
  have hread : Json.stringAt? (quoted t) = some (t.toList, []) := by
    simpa [quoted] using Json.stringAt?_quote t.toList []
  rw [readLiterals]
  split <;> simp_all

theorem readLiterals_quoted_bar (t : String) (more : List Char) :
    readLiterals (quoted t ++ bar ++ more) = (readLiterals more).map (t :: ·) := by
  have hread : Json.stringAt? (quoted t ++ bar ++ more) = some (t.toList, bar ++ more) := by
    rw [List.append_assoc]
    exact Json.stringAt?_quote t.toList (bar ++ more)
  have hbar : Text.dropLeading? bar (bar ++ more) = some more :=
    Text.dropLeading?_eq_some_iff.2 rfl
  have hne : bar ++ more ≠ [] := by simp [bar]
  conv_lhs => rw [readLiterals]
  split
  · simp_all
  · next u rest hu =>
    obtain ⟨rfl, rfl⟩ := Prod.mk.inj (Option.some.inj (hread.symm.trans hu))
    rw [if_neg hne]
    split <;> simp_all

theorem readLiterals_joinWith {ts : List String} (hne : ts ≠ []) :
    readLiterals (Text.joinWith bar (ts.map quoted)) = some ts := by
  induction ts with
  | nil => exact absurd rfl hne
  | cons t ts ih =>
    by_cases hts : ts = []
    · subst hts
      simpa [Text.joinWith] using readLiterals_quoted t
    · rw [List.map_cons, Text.joinWith_cons _ _ (by simpa using hts), readLiterals_quoted_bar,
        ih hts]
      rfl

/-- **The union of texts is read back as these texts.** -/
theorem readUnion_unionText (ts : List String) : readUnion (unionText ts).toList = some ts := by
  by_cases hts : ts = []
  · subst hts
    rfl
  · have hread := readLiterals_joinWith hts
    have hne : Text.joinWith bar (ts.map quoted) ≠ [] := by
      intro hnil
      rw [hnil, readLiterals] at hread
      cases hread
    rw [toList_unionText, readUnion, if_neg hne, hread]

theorem unionText_injective : Function.Injective unionText := by
  intro ts us h
  have hread := readUnion_unionText ts
  rw [h, readUnion_unionText us] at hread
  exact (Option.some.inj hread).symm

/-- Only a union of nothing is empty. -/
theorem unionText_eq_empty {ts : List String} : unionText ts = "" ↔ ts = [] :=
  unionText_injective.eq_iff (b := [])

/-- **A union of literals is decodable.** Two lists have the same union exactly if their values have
the same texts in the same order, and a union is read back as the texts of its values. Values of
which one has no text have no union. -/
theorem literalUnion_readBack {values values' : Value} {us vs : List Value}
    (hus : values.items? = some us) (hvs : values'.items? = some vs) :
    (literalUnion values = literalUnion values' ↔ captions? us = captions? vs) ∧
      match captions? us with
      | some ts => ∃ s, literalUnion values = .ok s ∧ readUnion s.toList = some ts
      | none => literalUnion values = .error (.misuse .badText) := by
  rw [literalUnion_eq hus, literalUnion_eq hvs]
  constructor
  · cases captions? us with
    | none => cases captions? vs <;> simp
    | some ts =>
      cases captions? vs with
      | none => simp
      | some ts' => simp [unionText_injective.eq_iff]
  · cases captions? us with
    | none => rfl
    | some ts => exact ⟨unionText ts, rfl, readUnion_unionText ts⟩

/-- Values whose texts hold what ends a literal and what stands between two. -/
def barredValues : Value := .list [.text "a\x22 | \x22b\\", .bool true, .text "\x00"]

/-- The same texts, split at other places. -/
def splitValues : Value := .list [.text "a", .text "b\\", .text "true", .text "\x00"]

theorem literalUnion_readBack_barred :
    (barredValues.items? = some [.text "a\x22 | \x22b\\", .bool true, .text "\x00"] ∧
        splitValues.items? = some [.text "a", .text "b\\", .text "true", .text "\x00"]) ∧
      literalUnion barredValues ≠ literalUnion splitValues ∧
      ∃ s, literalUnion barredValues = .ok s ∧
        readUnion s.toList = some ["a\x22 | \x22b\\", "true", "\x00"] := by
  have hbarred : barredValues.items? =
      some [.text "a\x22 | \x22b\\", .bool true, .text "\x00"] := rfl
  have hsplit : splitValues.items? =
      some [.text "a", .text "b\\", .text "true", .text "\x00"] := rfl
  obtain ⟨htells, hread⟩ := literalUnion_readBack hbarred hsplit
  have hcaptions : captions? [.text "a\x22 | \x22b\\", .bool true, .text "\x00"] =
      some ["a\x22 | \x22b\\", "true", "\x00"] := by decide +kernel
  rw [hcaptions] at hread
  exact ⟨⟨hbarred, hsplit⟩, fun h => absurd (htells.1 h) (by decide +kernel), hread⟩

end ApiScaffold.Draft
