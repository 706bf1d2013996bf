import ApiScaffold.Proofs.TypeScript.Declaration
import ApiScaffold.Proofs.TypeScript.MethodBody
import ApiScaffold.Proofs.TypeScript.Outline
import ApiScaffold.Render.Phrase
import Mathlib.Data.Bool.AllAny
import Mathlib.Data.List.TakeWhile

/-!
# Methods that are written one below the other

* `MethodText` is a method with the blanks in front of it, `MethodText.Sound` says that its parts
  are what they should be, its body being any text that fits;
* `piece_textOf`, `neutral_maskedOf`: methods below each other are masked one by one, and brackets
  outside are not affected by them;
* `membersFrom_maskedOf`: they are the members that are found;
* `bodySpan?` is the place of the text between the braces of a member, `bodySpan?_eq` that of the
  body of a method.
-/

namespace ApiScaffold.TypeScript

/-- A method of a class: the blanks in front of it, its name, its parameters, what stands between
these and its braces, and the text between the braces. -/
structure MethodText where
  lead : List Char
  name : List Char
  params : List Char
  result : List Char
  body : List Char
  deriving DecidableEq, Repr

/-- A character of a header: no bracket, semicolon or carriage return, and none that begins a
literal or comment. -/
def isHeaderChar (c : Char) : Bool := isPlainCode c && !isBracket c && c != ';' && c != '\r'

namespace MethodText

/-- The method from its name up to its opening brace. -/
def signature (e : MethodText) : List Char :=
  e.name ++ '(' :: (e.params ++ ')' :: (e.result ++ [' ']))

/-- The method with a text between its braces, without the blanks in front of it. -/
def around (e : MethodText) (t : List Char) : List Char :=
  e.signature ++ '\x7b' :: (t ++ ['\x7d'])

/-- The method as it stands in a source text. -/
def text (e : MethodText) : List Char := e.lead ++ e.around e.body

/-- The mask of the method. -/
def masked (e : MethodText) : List Char := e.lead ++ e.around (maskedBody e.body)

/-- The parts of the method are what they should be; it begins a line. -/
structure Sound (e : MethodText) : Prop where
  lineBreak : e.lead.head? = some '\n'
  lead : ∀ c ∈ e.lead, c = ' ' ∨ c = '\n'
  name : Render.isIdentifier e.name = true
  params : ∀ c ∈ e.params, isHeaderChar c = true
  result : ∀ c ∈ e.result, isHeaderChar c = true
  body : Fits e.body
  noReturn : '\r' ∉ e.body

theorem length_around (e : MethodText) (t : List Char) :
    (e.around t).length = e.signature.length + (t.length + 2) := by
  simp [around]

@[simp] theorem length_masked (e : MethodText) : e.masked.length = e.text.length := by
  simp [masked, text, length_around]

end MethodText

/-! ### Characters -/

theorem ne_of_isIdentifierChar {c d : Char} (hc : Text.isIdentifierChar c = true)
    (hd : Text.isIdentifierChar d = false) : c ≠ d := by
  rintro rfl
  rw [hc] at hd
  cases hd

theorem isHeaderChar_eq_true_iff {c : Char} :
    isHeaderChar c = true ↔
      c ∉ ['\x27', '\x22', backquote, '/', '(', ')', '[', ']', '\x7b', '\x7d', ';', '\r'] := by
  simp only [isHeaderChar, isPlainCode, isQuote, isBracket, closerOf?, isCloser, List.mem_cons,
    List.not_mem_nil, or_false, not_or, Bool.and_eq_true, Bool.not_eq_true', Bool.or_eq_false_iff,
    beq_eq_false_iff_ne, bne_iff_ne, ne_eq]
  split_ifs <;> simp_all [and_assoc]

theorem isHeaderChar_of_isIdentifierChar {c : Char} (h : Text.isIdentifierChar c = true) :
    isHeaderChar c = true := by
  rw [isHeaderChar_eq_true_iff]
  intro hmem
  have hall : ∀ d ∈ ['\x27', '\x22', backquote, '/', '(', ')', '[', ']', '\x7b', '\x7d', ';', '\r'],
      Text.isIdentifierChar d = false := List.all_iff_forall_prop.1 (by decide)
  rw [hall c hmem] at h
  cases h

theorem isIdentifierChar_of_isWordChar {c : Char} (h : Text.isWordChar c = true) :
    Text.isIdentifierChar c = true := by
  rw [Text.isIdentifierChar, h]
  rfl

theorem isHeaderChar_of_isWordChar {c : Char} (h : Text.isWordChar c = true) :
    isHeaderChar c = true :=
  isHeaderChar_of_isIdentifierChar (isIdentifierChar_of_isWordChar h)

theorem isBlank_of_isIdentifierChar {c : Char} (h : Text.isIdentifierChar c = true) :
    Text.isBlank c = false := by
  by_contra hblank
  have hword := isWordChar_of_isBlank (Bool.not_eq_false _ ▸ hblank)
  simp only [Text.isIdentifierChar, hword, Bool.false_or, beq_iff_eq] at h
  rw [h] at hblank
  exact hblank (by decide)

theorem isPlainCode_of_isHeaderChar {c : Char} (h : isHeaderChar c = true) :
    isPlainCode c = true := by
  simp only [isHeaderChar, Bool.and_eq_true] at h
  exact h.1.1.1

theorem isPlainText_of_isIdentifierChar {c : Char} (h : Text.isIdentifierChar c = true) :
    isPlainText c = true := by
  have hne : ∀ d, Text.isIdentifierChar d = false → c ≠ d := fun d => ne_of_isIdentifierChar h
  have h₁ := hne '\x27' (by decide)
  have h₂ := hne '\x22' (by decide)
  have h₃ := hne backquote (by decide)
  have h₄ := hne '\\' (by decide)
  have h₅ := hne '\n' (by decide)
  have h₆ := hne '\r' (by decide)
  simp [isPlainText, isQuote, h₁, h₂, h₃, h₄, h₅, h₆]

theorem isBracket_of_isHeaderChar {c : Char} (h : isHeaderChar c = true) : isBracket c = false := by
  simp only [isHeaderChar, Bool.and_eq_true, Bool.not_eq_true'] at h
  exact h.1.1.2

theorem isIdentifierChar_of_isIdentifierStart {c : Char} (h : Text.isIdentifierStart c = true) :
    Text.isIdentifierChar c = true := by
  simp only [Text.isIdentifierStart, Bool.or_eq_true, beq_iff_eq] at h
  rcases h with (halpha | rfl) | rfl
  · have hascii : c.toNat < 128 := by
      unfold Char.isAlpha Char.isUpper Char.isLower at halpha
      simp only [Bool.or_eq_true, Bool.and_eq_true, decide_eq_true_eq, UInt32.le_iff_toNat_le,
        ge_iff_le] at halpha
      have hz : 'z'.val.toNat = 122 := rfl
      have hZ : 'Z'.val.toNat = 90 := rfl
      have hc : c.toNat = c.val.toNat := rfl
      omega
    simp [Text.isIdentifierChar, Text.isWordChar, Text.isAlphanumeric, hascii, Char.isAlphanum,
      halpha]
  · decide
  · decide

/-- An identifier begins with a character that may begin one, and holds only such that may be in
one. -/
theorem exists_of_isIdentifier {name : List Char} (h : Render.isIdentifier name = true) :
    ∃ c cs, name = c :: cs ∧ Text.isIdentifierStart c = true ∧
      ∀ d ∈ name, Text.isIdentifierChar d = true := by
  cases name with
  | nil => cases h
  | cons c cs =>
    simp only [Render.isIdentifier, Bool.and_eq_true, List.all_eq_true] at h
    refine ⟨c, cs, rfl, h.1, fun d hd => ?_⟩
    rcases List.mem_cons.1 hd with rfl | hd
    · exact isIdentifierChar_of_isIdentifierStart h.1
    · exact h.2 d hd

/-! ### Masks -/

/-- The text goes on with a new line. -/
def LineBreakAhead (r : List Char) : Prop := ∃ r', r = '\n' :: r'

variable {e : MethodText} {es : List MethodText}

theorem MethodText.Sound.lead_header (h : e.Sound) : ∀ c ∈ e.lead, isHeaderChar c = true := by
  intro c hc
  rcases h.lead c hc with rfl | rfl
  · decide
  · decide

theorem MethodText.Sound.lead_blank (h : e.Sound) : ∀ c ∈ e.lead, Text.isBlank c = true := by
  intro c hc
  rcases h.lead c hc with rfl | rfl
  · decide
  · decide

/-- In front of its braces a method holds the characters of a header and two parentheses. -/
theorem MethodText.Sound.mem_front (h : e.Sound) {c : Char} (hc : c ∈ e.lead ++ e.signature) :
    isHeaderChar c = true ∨ c = '(' ∨ c = ')' := by
  obtain ⟨-, -, -, -, hname⟩ := exists_of_isIdentifier h.name
  simp only [signature, List.mem_append, List.mem_cons, List.not_mem_nil, or_false] at hc
  rcases hc with hc | hc | hc | hc | hc | hc | rfl
  · exact Or.inl (h.lead_header c hc)
  · exact Or.inl (isHeaderChar_of_isIdentifierChar (hname c hc))
  · exact Or.inr (Or.inl hc)
  · exact Or.inl (h.params c hc)
  · exact Or.inr (Or.inr hc)
  · exact Or.inl (h.result c hc)
  · exact Or.inl (by decide)

theorem MethodText.Sound.signature_plain (h : e.Sound) :
    ∀ c ∈ e.signature, isPlainCode c = true := by
  intro c hc
  rcases h.mem_front (List.mem_append_right _ hc) with hc | rfl | rfl
  · exact isPlainCode_of_isHeaderChar hc
  · decide
  · decide

/-- A method is a piece of code, whatever blanks stand in front of it, if its line ends with it. -/
theorem MethodText.Sound.piece_around (h : e.Sound) {lead : List Char}
    (hlead : ∀ c ∈ lead, isPlainCode c = true) :
    Piece (lead ++ e.around e.body) (lead ++ e.around (maskedBody e.body)) LineBreakAhead := by
  have hbody : Piece ('\x7b' :: (e.body ++ ['\x7d'])) _ LineBreakAhead := h.body.piece
  have hrest : Piece (e.around e.body) (e.around (maskedBody e.body)) LineBreakAhead :=
    (Piece.of_plain (P := fun _ => True) h.signature_plain).append hbody fun _ _ => trivial
  exact (Piece.of_plain (P := fun _ => True) hlead).append hrest fun _ _ => trivial

theorem MethodText.Sound.lead_plain (h : e.Sound) : ∀ c ∈ e.lead, isPlainCode c = true :=
  fun c hc => isPlainCode_of_isHeaderChar (h.lead_header c hc)

theorem MethodText.Sound.piece (h : e.Sound) : Piece e.text e.masked LineBreakAhead :=
  h.piece_around h.lead_plain

theorem MethodText.Sound.neutral (h : e.Sound) : Neutral e.masked := by
  obtain ⟨-, -, -, -, hname⟩ := exists_of_isIdentifier h.name
  have hlead : Neutral e.lead :=
    .of_plain fun c hc => isBracket_of_isHeaderChar (h.lead_header c hc)
  have hname : Neutral e.name :=
    .of_plain fun c hc => isBracket_of_isHeaderChar (isHeaderChar_of_isIdentifierChar (hname c hc))
  have hparams : Neutral ('(' :: (e.params ++ [')'])) :=
    (Neutral.of_plain fun c hc => isBracket_of_isHeaderChar (h.params c hc)).round
  have hresult : Neutral (e.result ++ [' ']) :=
    (Neutral.of_plain fun c hc => isBracket_of_isHeaderChar (h.result c hc)).append
      (.of_all (by decide))
  have hall := hlead.append (hname.append (hparams.append (hresult.append h.body.neutral)))
  simpa [masked, around, signature] using hall

/-- Methods below each other. -/
def textOf (es : List MethodText) : List Char := es.flatMap (·.text)

/-- The mask of methods below each other. -/
def maskedOf (es : List MethodText) : List Char := es.flatMap (·.masked)

@[simp] theorem textOf_nil : textOf [] = [] := rfl

@[simp] theorem maskedOf_nil : maskedOf [] = [] := rfl

@[simp] theorem textOf_cons (e : MethodText) (es : List MethodText) :
    textOf (e :: es) = e.text ++ textOf es := rfl

@[simp] theorem maskedOf_cons (e : MethodText) (es : List MethodText) :
    maskedOf (e :: es) = e.masked ++ maskedOf es := rfl

@[simp] theorem textOf_append (es fs : List MethodText) :
    textOf (es ++ fs) = textOf es ++ textOf fs := List.flatMap_append

@[simp] theorem maskedOf_append (es fs : List MethodText) :
    maskedOf (es ++ fs) = maskedOf es ++ maskedOf fs := List.flatMap_append

@[simp] theorem length_maskedOf (es : List MethodText) :
    (maskedOf es).length = (textOf es).length := by
  induction es with
  | nil => rfl
  | cons e es ih => simp [ih]

theorem MethodText.Sound.return_notMem (h : e.Sound) : '\r' ∉ e.text := by
  intro hmem
  rw [text, around, ← List.append_assoc] at hmem
  simp only [List.mem_append (s := e.lead ++ e.signature), List.mem_append (s := e.body),
    List.mem_cons, List.not_mem_nil, or_false] at hmem
  rcases hmem with hc | hc | hc | hc
  · exact absurd (h.mem_front hc) (by decide)
  · exact absurd hc (by decide)
  · exact h.noReturn hc
  · exact absurd hc (by decide)

theorem length_le_textOf (es : List MethodText) : es.length ≤ (textOf es).length := by
  induction es with
  | nil => exact Nat.zero_le _
  | cons e es ih =>
    have he : 2 ≤ e.text.length := by
      rw [MethodText.text, List.length_append, MethodText.length_around]
      omega
    simp only [textOf_cons, List.length_append, List.length_cons]
    omega

theorem MethodText.Sound.lineBreakAhead (h : e.Sound) (r : List Char) :
    LineBreakAhead (e.text ++ r) := by
  obtain ⟨cs, hcs⟩ := List.head?_eq_some_iff.1 h.lineBreak
  exact ⟨_, by rw [text, hcs, List.cons_append, List.cons_append]⟩

theorem lineBreakAhead_textOf (h : ∀ e ∈ es, e.Sound) {r : List Char} (hr : LineBreakAhead r) :
    LineBreakAhead (textOf es ++ r) := by
  cases es with
  | nil => exact hr
  | cons e es =>
    rw [textOf_cons, List.append_assoc]
    exact (h e (List.mem_cons_self ..)).lineBreakAhead _

theorem piece_textOf (h : ∀ e ∈ es, e.Sound) : Piece (textOf es) (maskedOf es) LineBreakAhead := by
  induction es with
  | nil => exact Piece.nil
  | cons e es ih =>
    have hes : ∀ e ∈ es, e.Sound := fun e he => h e (List.mem_cons_of_mem _ he)
    exact (h e (List.mem_cons_self ..)).piece.append (ih hes) fun r hr =>
      lineBreakAhead_textOf hes hr

theorem neutral_maskedOf (h : ∀ e ∈ es, e.Sound) : Neutral (maskedOf es) := by
  induction es with
  | nil => exact Neutral.nil
  | cons e es ih =>
    exact (h e (List.mem_cons_self ..)).neutral.append
      (ih fun e he => h e (List.mem_cons_of_mem _ he))

/-! ### Outlines -/

/-- The brace in front of a body closes behind it. -/
theorem Fits.closingOffset?_eq {t : List Char} (h : Fits t) (r : List Char) :
    closingOffset? ('\x7b' :: (maskedBody t ++ '\x7d' :: r)) = some (t.length + 1) := by
  simp [closingOffset?, closerOf?, h.closing r]

theorem balanced_of_header {xs : List Char} (h : ∀ c ∈ xs, isHeaderChar c = true) : Balanced xs :=
  .of_plain fun c hc => isBracket_of_isHeaderChar (h c hc)

section Header

variable {c : Char} {w gap : List Char}

/-- There is no list of type parameters at the end of a header that ends with another character,
blanks apart. -/
theorem dropGeneric_last (hblank : Text.isBlank c = false) (hc : c ≠ '>')
    (hgap : ∀ d ∈ gap, Text.isBlank d = true) : dropGeneric (w ++ c :: gap) = w ++ c :: gap := by
  simp only [dropGeneric, trimRight_append w hblank hgap, List.reverse_append,
    List.reverse_singleton, List.singleton_append]
  split
  · next heq => exact absurd (List.cons.inj heq).1 hc
  · rfl

/-- Nor is there a mark that says whether it is optional. -/
theorem dropMarker_last (hblank : Text.isBlank c = false) (hc : c ≠ '?' ∧ c ≠ '!')
    (hgap : ∀ d ∈ gap, Text.isBlank d = true) : dropMarker (w ++ c :: gap) = w ++ c :: gap := by
  simp only [dropMarker, trimRight_append w hblank hgap, List.reverse_append,
    List.reverse_singleton, List.singleton_append]
  split
  · next heq => exact absurd (List.cons.inj heq).1 hc.1
  · next heq => exact absurd (List.cons.inj heq).1 hc.2
  · rfl

/-- Such a header ends in the identifier at its end. -/
theorem nameOf_last (hblank : Text.isBlank c = false) (hc : c ≠ '>' ∧ c ≠ '?' ∧ c ≠ '!')
    (hgap : ∀ d ∈ gap, Text.isBlank d = true) :
    nameOf (w ++ c :: gap) = String.ofList (trailingIdentifier (w ++ c :: gap)) := by
  rw [nameOf, dropGeneric_last hblank hc.1 hgap, dropMarker_last hblank hc.2 hgap]

/-- Blanks behind it make no difference to its name. -/
theorem nameOf_append_blanks (hblank : Text.isBlank c = false) (hc : c ≠ '>' ∧ c ≠ '?' ∧ c ≠ '!')
    (hgap : ∀ d ∈ gap, Text.isBlank d = true) : nameOf (w ++ c :: gap) = nameOf (w ++ [c]) := by
  have hnil : ∀ d ∈ ([] : List Char), Text.isBlank d = true := List.forall_mem_nil _
  rw [nameOf_last hblank hc hgap, nameOf_last hblank hc hnil, trailingIdentifier,
    trailingIdentifier, trimRight_append w hblank hgap, trimRight_append w hblank hnil]

end Header

section Identifier

variable {name gap : List Char}

/-- An identifier ends with a character that may be in one. -/
theorem exists_concat_of_isIdentifier (h : Render.isIdentifier name = true) :
    ∃ w c, name = w ++ [c] ∧ Text.isIdentifierChar c = true := by
  obtain ⟨c, cs, rfl, -, hname⟩ := exists_of_isIdentifier h
  have hconcat := List.dropLast_concat_getLast (List.cons_ne_nil c cs)
  exact ⟨_, _, hconcat.symm, hname _ (List.getLast_mem _)⟩

variable (h : Render.isIdentifier name = true) (hgap : ∀ c ∈ gap, Text.isBlank c = true)

include h hgap

theorem dropMarker_identifier : dropMarker (name ++ gap) = name ++ gap := by
  obtain ⟨w, c, rfl, hc⟩ := exists_concat_of_isIdentifier h
  rw [List.append_assoc, List.singleton_append,
    dropMarker_last (isBlank_of_isIdentifierChar hc)
      ⟨ne_of_isIdentifierChar hc (by decide), ne_of_isIdentifierChar hc (by decide)⟩ hgap]

theorem trailingIdentifier_identifier : trailingIdentifier (name ++ gap) = name := by
  obtain ⟨w, d, hwd, hd⟩ := exists_concat_of_isIdentifier h
  obtain ⟨c, cs, hcs, hstart, hname⟩ := exists_of_isIdentifier h
  have htrim : Text.trimRight (name ++ gap) = name := by
    rw [hwd, List.append_assoc, List.singleton_append,
      trimRight_append w (isBlank_of_isIdentifierChar hd) hgap]
  have hall : name.reverse.takeWhile Text.isIdentifierChar = name.reverse :=
    List.takeWhile_eq_self_iff.2 fun d hd => hname d (List.mem_reverse.1 hd)
  rw [trailingIdentifier, htrim, Text.takeSuffixWhile, hall, List.reverse_reverse, hcs,
    List.dropWhile_cons, hstart]
  rfl

/-- The name that an identifier ends in, blanks behind it apart, is the identifier. -/
theorem nameOf_identifier : nameOf (name ++ gap) = String.ofList name := by
  have hlast := trailingIdentifier_identifier h hgap
  obtain ⟨w, c, rfl, hc⟩ := exists_concat_of_isIdentifier h
  rw [List.append_assoc, List.singleton_append] at hlast ⊢
  rw [nameOf_last (isBlank_of_isIdentifierChar hc) ⟨ne_of_isIdentifierChar hc (by decide),
    ne_of_isIdentifierChar hc (by decide), ne_of_isIdentifierChar hc (by decide)⟩ hgap, hlast]

end Identifier

/-- The outline of a method, behind the blanks in front of it. -/
theorem MethodText.Sound.outlineFrom_eq (h : e.Sound) (room : ℕ) (r : List Char) :
    outlineFrom [] 0 ((e.around (maskedBody e.body)).length + room)
        (e.around (maskedBody e.body) ++ r) =
      ⟨String.ofList e.name, .method, (e.around (maskedBody e.body)).length⟩ := by
  obtain ⟨-, -, -, -, hname⟩ := exists_of_isIdentifier h.name
  have hnameHeader : ∀ c ∈ e.name, isHeaderChar c = true :=
    fun c hc => isHeaderChar_of_isIdentifierChar (hname c hc)
  have hresult : ∀ c ∈ e.result ++ [' '], isHeaderChar c = true := by
    intro c hc
    rcases List.mem_append.1 hc with hc | hc
    · exact h.result c hc
    · rw [List.mem_singleton.1 hc]
      decide
  have hsplit : e.around (maskedBody e.body) ++ r = e.name ++ ('(' :: (e.params ++ ')' ::
      ((e.result ++ [' ']) ++ '\x7b' :: (maskedBody e.body ++ '\x7d' :: r)))) := by
    simp [around, signature]
  have hlen : (e.around (maskedBody e.body)).length + room = e.name.length +
      (e.params.length + 2 + ((e.result ++ [' ']).length + (e.body.length + 1 + room + 1))) := by
    simp [around, signature]
    omega
  -- From the opening brace on, up to the end of the body.
  have hbody : methodTail 0 (e.body.length + 1 + room + 1)
      ('\x7b' :: (maskedBody e.body ++ '\x7d' :: r)) = e.body.length + 2 := by
    rw [methodTail, if_pos rfl, h.body.closingOffset?_eq]
    dsimp only
    omega
  have hends : Outside (fun u c => ¬EndsOutline ([].reverse ++ u) c) e.name := by
    rintro u c v hu -
    have hc : Text.isIdentifierChar c = true := hname c (by simp [hu])
    have hne : ∀ d, Text.isIdentifierChar d = false → c ≠ d := fun d => ne_of_isIdentifierChar hc
    rintro (hc | hc | hc)
    · exact hne _ (by decide) hc.1
    · exact hne _ (by decide) hc
    · exact hne _ (by decide) hc.1
  have htail : Outside (fun _ c => ¬EndsTail c) (e.result ++ [' ']) := by
    rintro u c v hu -
    have hc := hresult c (by simp [hu])
    rintro (rfl | rfl) <;> exact absurd hc (by decide)
  have hequals : '=' ∉ e.name.reverse ++ [] := fun hmem =>
    ne_of_isIdentifierChar (hname _ (by simpa using hmem)) (by decide) rfl
  rw [hsplit, hlen, (balanced_of_header hnameHeader).outlineFrom_append hends,
    outlineFrom_params (balanced_of_header h.params) hequals,
    (balanced_of_header hresult).methodTail_append htail, hbody]
  simp only [List.reverse_append, List.reverse_reverse, List.reverse_nil, List.nil_append,
    Outline.mk.injEq, true_and]
  constructor
  · simpa using nameOf_identifier h.name (List.forall_mem_nil _)
  · simp [around, signature]
    omega

/-! ### Members -/

/-- Methods below each other as members of a class, from an offset on. -/
def membersAt (pos : ℕ) : List MethodText → List Member
  | [] => []
  | e :: es => ⟨String.ofList e.name, .method, pos, pos + e.text.length⟩ ::
      membersAt (pos + e.text.length) es

theorem leading_append {p : Char → Bool} {xs ys : List Char} {room : ℕ}
    (hx : ∀ c ∈ xs, p c = true) (hy : ys.head?.any p = false) (hroom : xs.length ≤ room) :
    leading p room (xs ++ ys) = xs.length := by
  have htake : (ys.take (room - xs.length)).takeWhile p = [] := by
    cases ys with
    | nil => simp
    | cons y ys =>
      rw [List.head?_cons, Option.any_some] at hy
      cases room - xs.length <;> simp [hy]
  rw [leading, List.take_append, List.take_of_length_le hroom, List.takeWhile_append_of_pos hx,
    htake, List.append_nil]

theorem decoratorsLength_of_ne {c : Char} (hc : c ≠ '@') (steps room : ℕ) (cs : List Char) :
    decoratorsLength steps room (c :: cs) = 0 := by
  unfold decoratorsLength
  split
  · rfl
  · split
    · next heq => exact absurd (List.cons.inj heq).1 hc
    · rfl

theorem MethodText.Sound.membersFrom_eq (h : e.Sound) (steps pos room : ℕ) (r : List Char) :
    membersFrom (steps + 1) pos (e.text.length + room) (e.masked ++ r) =
      ⟨String.ofList e.name, .method, pos, pos + e.text.length⟩ ::
        membersFrom steps (pos + e.text.length) room r := by
  obtain ⟨c, cs, hcs, hstart, hname⟩ := exists_of_isIdentifier h.name
  have hc : Text.isIdentifierChar c = true := hname c (by simp [hcs])
  have hhead : ∃ ds, e.around (maskedBody e.body) ++ r = c :: ds := by
    rw [around, signature, hcs]
    exact ⟨_, rfl⟩
  obtain ⟨ds, hds⟩ := hhead
  have hblank : Text.isBlank c = false := isBlank_of_isIdentifierChar hc
  have hlen : e.text.length = e.lead.length + (e.around (maskedBody e.body)).length := by
    rw [← length_masked, masked, List.length_append]
  have hgap : leading Text.isBlank (e.text.length + room) (e.masked ++ r) = e.lead.length := by
    rw [masked, List.append_assoc]
    exact leading_append h.lead_blank (by rw [hds]; simpa using hblank) (by omega)
  have hpos : 0 < (e.around (maskedBody e.body)).length := by rw [length_around]; omega
  have hhere : (e.masked ++ r).drop e.lead.length = e.around (maskedBody e.body) ++ r := by
    rw [masked, List.append_assoc, List.drop_left]
  have hdrop : (e.masked ++ r).drop e.text.length = r := by
    rw [← length_masked, List.drop_left]
  have hsemicolon : (e.around (maskedBody e.body) ++ r).head? ≠ some ';' := by
    rw [hds, List.head?_cons]
    exact fun heq => ne_of_isIdentifierChar hc (by decide) (Option.some.inj heq)
  have hdecorators : ∀ room,
      decoratorsLength steps room (e.around (maskedBody e.body) ++ r) = 0 := by
    intro room
    rw [hds]
    exact decoratorsLength_of_ne (ne_of_isIdentifierChar hc (by decide)) steps room ds
  -- Behind the blanks there is neither a semicolon nor a decorator, but the outline of the method.
  rw [membersFrom]
  dsimp only
  rw [hgap, if_neg (by omega), hhere, if_neg hsemicolon, hdecorators, List.drop_zero,
    show e.text.length + room - e.lead.length - 0 =
      (e.around (maskedBody e.body)).length + room by omega, h.outlineFrom_eq]
  dsimp only
  rw [show e.lead.length + 0 + (e.around (maskedBody e.body)).length = e.text.length by omega,
    show max e.text.length (e.lead.length + 0 + 1) = e.text.length by omega, hdrop,
    Nat.add_sub_cancel_left]

/-- **Methods below each other are the members that are found,** if nothing but blanks is left
behind them. -/
theorem membersFrom_maskedOf (h : ∀ e ∈ es, e.Sound) {steps : ℕ} (hsteps : es.length ≤ steps)
    (pos : ℕ) {room : ℕ} {r : List Char} (hr : leading Text.isBlank room r = room) :
    membersFrom steps pos ((textOf es).length + room) (maskedOf es ++ r) = membersAt pos es := by
  induction es generalizing steps pos with
  | nil =>
    cases steps with
    | zero => rfl
    | succ steps =>
      rw [membersFrom]
      simp [hr, membersAt]
  | cons e es ih =>
    cases steps with
    | zero => exact absurd hsteps (by simp)
    | succ steps =>
      rw [textOf_cons, maskedOf_cons, List.length_append, Nat.add_assoc, List.append_assoc,
        (h e (List.mem_cons_self ..)).membersFrom_eq,
        ih (fun e he => h e (List.mem_cons_of_mem _ he)) (by simpa using hsteps), membersAt]

/-! ### The text between the braces of a member -/

/-- The place and the length of the text between the first brace of a member and the brace that
closes it, if this one ends the member. -/
def bodySpan? (masked : List Char) (m : Member) : Option (ℕ × ℕ) := do
  let gap ← openingOffset? (masked.drop m.start)
  let size ← closingOffset? (masked.drop (m.start + gap))
  if m.start + gap + size + 1 = m.stop then some (m.start + gap + 1, size - 1) else none

theorem openingOffset?_append {xs : List Char} (h : '\x7b' ∉ xs) (r : List Char) :
    openingOffset? (xs ++ '\x7b' :: r) = some xs.length := by
  unfold openingOffset?
  induction xs with
  | nil => simp [List.findIdx?_cons]
  | cons x xs ih =>
    rw [List.mem_cons, not_or] at h
    rw [List.cons_append, List.findIdx?_cons, ih h.2]
    simp [Ne.symm h.1]

theorem MethodText.Sound.brace_notMem (h : e.Sound) : '\x7b' ∉ e.lead ++ e.signature := by
  exact fun hmem => absurd (h.mem_front hmem) (by decide)

/-- The place of the body of a method between other texts. -/
theorem MethodText.Sound.bodySpan?_eq (h : e.Sound) (name : String) (kind : MemberKind)
    (before after : List Char) :
    bodySpan? (before ++ (e.masked ++ after))
        ⟨name, kind, before.length, before.length + e.text.length⟩ =
      some (before.length + (e.lead ++ e.signature).length + 1, e.body.length) := by
  have hsplit : e.masked ++ after =
      (e.lead ++ e.signature) ++ '\x7b' :: (maskedBody e.body ++ '\x7d' :: after) := by
    simp [masked, around]
  have hlen : e.text.length = (e.lead ++ e.signature).length + (e.body.length + 2) := by
    simp [text, around]
    omega
  simp only [bodySpan?, Option.bind_eq_bind]
  rw [List.drop_left, hsplit, openingOffset?_append h.brace_notMem, Option.bind_some,
    ← List.append_assoc, List.drop_append_of_le_length (by simp), ← List.length_append,
    List.drop_length, List.nil_append, h.body.closingOffset?_eq, Option.bind_some,
    List.length_append, if_pos (by omega), Nat.add_sub_cancel]

end ApiScaffold.TypeScript
