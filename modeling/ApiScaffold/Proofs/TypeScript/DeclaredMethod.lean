import ApiScaffold.Proofs.TypeScript.Decorators
import ApiScaffold.Proofs.TypeScript.Reports

/-!
# Methods that are declared in a class

* `MethodDecl` is the declaration of a method in a masked text: decorators, a name, type parameters,
  parameters, the type of the result, and a body; `MethodDecl.Formed` says that its parts are what
  they should be;
* `MethodDecl.Legible` is what the search for members relies on in front of the parameters, since it
  reads no types: an equals sign, angle brackets inside each other or the end of a line there may
  mislead it, and so may a brace in the type of the result, unless this is plain
  (`MethodDecl.PlainResult`);
* `MethodDecl.Formed.memberAt_eq`: a legible declaration is found behind blanks, with what is taken
  for its tail;
* `findClass?_method`: it is reported as the method that it is if the type of its result is plain,
  and no member in front reaches over its beginning.
-/

namespace ApiScaffold.TypeScript

/-! ### Declarations -/

/-- The declaration of a method: its decorators, its name and the blanks behind it, its type
parameters and the blanks behind them, its parameters, what stands between these and its braces, and
the text between the braces. -/
structure MethodDecl where
  decorators : List Decorator
  name : List Char
  gap : List Char
  typeParams : Option (List Char × List Char)
  params : List Char
  result : List Char
  body : List Char
  deriving DecidableEq, Repr

namespace MethodDecl

/-- Type parameters as they stand in a text. -/
def typeText : Option (List Char × List Char) → List Char
  | none => []
  | some (params, gap) => '<' :: (params ++ '>' :: gap)

/-- What stands between the decorators and the parameters. -/
def header (d : MethodDecl) : List Char := d.name ++ (d.gap ++ typeText d.typeParams)

/-- The declaration up to the end of its parameters. -/
def front (d : MethodDecl) : List Char :=
  Decorator.textOf d.decorators ++ (d.header ++ '(' :: (d.params ++ [')']))

/-- What follows the parameters. -/
def tail (d : MethodDecl) : List Char := d.result ++ '\x7b' :: (d.body ++ ['\x7d'])

/-- The declaration as it stands in a text. -/
def text (d : MethodDecl) : List Char := d.front ++ d.tail

/-- The parts of a declaration are what they should be. -/
structure Formed (d : MethodDecl) : Prop where
  decorators : Decorator.AllFormed d.header d.decorators
  ne_nil : d.name ≠ []
  name : ∀ c ∈ d.name, Text.isIdentifierChar c = true
  gap : ∀ c ∈ d.gap, Text.isBlank c = true
  typeParams : ∀ p ∈ d.typeParams, Balanced p.1
  typeGap : ∀ p ∈ d.typeParams, ∀ c ∈ p.2, Text.isBlank c = true
  params : Balanced d.params
  result : Balanced d.result
  /-- The type of the result stands behind a colon. -/
  colon : (d.result.dropWhile Text.isBlank).head?.all (· == ':') = true
  body : Balanced d.body

instance instDecidableFormed (d : MethodDecl) : Decidable d.Formed :=
  decidable_of_iff (Decorator.AllFormed d.header d.decorators ∧ d.name ≠ [] ∧
      d.name.all Text.isIdentifierChar = true ∧ d.gap.all Text.isBlank = true ∧
      (∀ p ∈ d.typeParams, Balanced p.1) ∧
      (∀ p ∈ d.typeParams, p.2.all Text.isBlank = true) ∧ Balanced d.params ∧
      Balanced d.result ∧ (d.result.dropWhile Text.isBlank).head?.all (· == ':') = true ∧
      Balanced d.body) <| by
    simp only [List.all_eq_true]
    exact ⟨fun ⟨h₁, h₂, h₃, h₄, h₅, h₆, h₇, h₈, h₉, h₁₀⟩ =>
        ⟨h₁, h₂, h₃, h₄, h₅, h₆, h₇, h₈, h₉, h₁₀⟩,
      fun ⟨h₁, h₂, h₃, h₄, h₅, h₆, h₇, h₈, h₉, h₁₀⟩ =>
        ⟨h₁, h₂, h₃, h₄, h₅, h₆, h₇, h₈, h₉, h₁₀⟩⟩

/-- The search for members can read what stands in front of the parameters. -/
structure Legible (d : MethodDecl) : Prop where
  /-- The name begins with an ASCII letter, an underscore or a dollar sign. -/
  name : Render.isIdentifier d.name = true
  /-- There is no equals sign, -/
  equals : '=' ∉ d.header
  /-- outside brackets neither a parenthesis nor the end of a line that cannot go on, -/
  header : Outside (fun u c => ¬EndsOutline u c) d.header
  /-- and no angle bracket inside the type parameters. -/
  angles : ∀ p ∈ d.typeParams, '<' ∉ p.1 ∧ '>' ∉ p.1

/-- The type of the result shows no brace and no semicolon outside its brackets. -/
def PlainResult (d : MethodDecl) : Prop := Outside (fun _ c => ¬EndsTail c) d.result

instance instDecidablePlainResult (d : MethodDecl) : Decidable d.PlainResult :=
  inferInstanceAs (Decidable (Outside (fun _ c => ¬EndsTail c) d.result))

instance instDecidableLegible (d : MethodDecl) : Decidable d.Legible :=
  decidable_of_iff (Render.isIdentifier d.name = true ∧ '=' ∉ d.header ∧
      Outside (fun u c => ¬EndsOutline u c) d.header ∧ ∀ p ∈ d.typeParams, '<' ∉ p.1 ∧ '>' ∉ p.1)
    ⟨fun ⟨h₁, h₂, h₃, h₄⟩ => ⟨h₁, h₂, h₃, h₄⟩, fun ⟨h₁, h₂, h₃, h₄⟩ => ⟨h₁, h₂, h₃, h₄⟩⟩

end MethodDecl

/-! ### The member that is found -/

/-- A pair of angle brackets at the end of a header, holding none, is left out. -/
theorem dropGeneric_append (u : List Char) {params gap : List Char}
    (hparams : '<' ∉ params ∧ '>' ∉ params) (hgap : ∀ c ∈ gap, Text.isBlank c = true) :
    dropGeneric (u ++ '<' :: (params ++ '>' :: gap)) = u := by
  have hinside : ∀ c ∈ params.reverse, (c != '<' && c != '>') = true := fun c hc => by
    rw [List.mem_reverse] at hc
    rw [Bool.and_eq_true, bne_iff_ne, bne_iff_ne]
    exact ⟨fun heq => hparams.1 (heq ▸ hc), fun heq => hparams.2 (heq ▸ hc)⟩
  have htrim : (Text.trimRight (u ++ '<' :: (params ++ '>' :: gap))).reverse =
      '>' :: (params.reverse ++ '<' :: u.reverse) := by
    rw [← List.cons_append, ← List.append_assoc, trimRight_append _ (by decide) hgap]
    simp
  simp only [dropGeneric, htrim, List.dropWhile_append_of_pos hinside]
  simp

namespace MethodDecl

variable {d : MethodDecl} {gap r : List Char}

theorem Formed.balanced_header (h : d.Formed) : Balanced d.header := by
  have hblank : ∀ {gap : List Char}, (∀ c ∈ gap, Text.isBlank c = true) → Balanced gap :=
    fun hgap => .of_plain fun c hc => isBracket_of_isBlank (hgap c hc)
  refine Balanced.append (.of_plain fun c hc => ?_) ((hblank h.gap).append ?_)
  · exact isBracket_of_isHeaderChar (isHeaderChar_of_isIdentifierChar (h.name c hc))
  · cases hparams : d.typeParams with
    | none => exact .nil
    | some p =>
      exact .plain (by decide) ((h.typeParams p hparams).append
        (.plain (by decide) (hblank (h.typeGap p hparams))))

/-- The header of a legible declaration shows its name. -/
theorem Formed.nameOf_header (h : d.Formed) (hd : d.Legible) :
    nameOf d.header = String.ofList d.name := by
  have hgap := h.gap
  cases hparams : d.typeParams with
  | none =>
    rw [header, hparams, typeText, List.append_nil]
    exact nameOf_identifier hd.name hgap
  | some p =>
    rw [header, hparams, typeText, nameOf, ← List.append_assoc,
      dropGeneric_append _ (hd.angles p hparams) (h.typeGap p hparams),
      dropMarker_identifier hd.name hgap, trailingIdentifier_identifier hd.name hgap]

/-- A declaration begins neither with a blank nor with a semicolon. -/
theorem Formed.exists_text (h : d.Formed) (r : List Char) :
    ∃ c cs, d.text ++ r = c :: cs ∧ Text.isBlank c = false ∧ c ≠ ';' := by
  cases hdecorators : d.decorators with
  | nil =>
    obtain ⟨c, cs, hcs⟩ := List.exists_cons_of_ne_nil h.ne_nil
    have hc := h.name c (by simp [hcs])
    exact ⟨c, _, by rw [text, front, header, hdecorators, hcs]; rfl, isBlank_of_isIdentifierChar hc,
      ne_of_isIdentifierChar hc (by decide)⟩
  | cons a as =>
    exact ⟨'@', _, by rw [text, front, hdecorators]; rfl, by decide, by decide⟩

/-- The outline of a legible declaration, behind its decorators. -/
theorem Formed.outlineFrom_header (h : d.Formed) (hd : d.Legible) (room : ℕ) (r : List Char) :
    outlineFrom [] 0 (d.header.length + (d.params.length + 2 + room))
        (d.header ++ '(' :: (d.params ++ ')' :: r)) =
      ⟨String.ofList d.name, .method,
        d.header.length + (methodTail 0 room r + (d.params.length + 2))⟩ := by
  have hequals : '=' ∉ d.header.reverse ++ [] := by simpa using hd.equals
  rw [h.balanced_header.outlineFrom_append (by simpa using hd.header),
    outlineFrom_params h.params hequals, List.append_nil, List.reverse_reverse,
    List.length_reverse, h.nameOf_header hd]

/-- **A legible declaration behind blanks is found there,** with what is taken for its tail. -/
theorem Formed.memberAt_eq (h : d.Formed) (hd : d.Legible)
    (hgap : ∀ c ∈ gap, Text.isBlank c = true) {steps : ℕ} (hsteps : d.front.length ≤ steps)
    (pos room : ℕ) (r : List Char) :
    memberAt steps pos (gap.length + (d.front.length + room)) (gap ++ (d.front ++ r)) =
      ⟨String.ofList d.name, .method, pos,
        pos + (gap.length + (d.front.length + methodTail 0 room r))⟩ := by
  obtain ⟨c, cs, hcs⟩ := List.exists_cons_of_ne_nil h.ne_nil
  have hc : Text.isIdentifierChar c = true := h.name c (by simp [hcs])
  obtain ⟨hs, hheader⟩ : ∃ hs, d.header = c :: hs := ⟨_, by rw [header, hcs]; rfl⟩
  have hlen : d.front.length =
      (Decorator.textOf d.decorators).length + (d.header.length + (d.params.length + 2)) := by
    simp [front]
  have hfront : d.front ++ r =
      Decorator.textOf d.decorators ++ (d.header ++ '(' :: (d.params ++ ')' :: r)) := by
    simp [front]
  -- behind the decorators
  have hformed := h.decorators
  rw [hheader] at hformed
  have hcount := Decorator.length_le_textOf d.decorators
  have hdecorators := Decorator.decoratorsLength_textOf hc hformed
    (by omega : d.decorators.length ≤ steps) (r := hs ++ '(' :: (d.params ++ ')' :: r))
    (hs.length + (d.params.length + 2 + room))
  rw [← List.cons_append, ← hheader, show hs.length + (d.params.length + 2 + room) + 1 =
    d.header.length + (d.params.length + 2 + room) by rw [hheader, List.length_cons]; omega]
    at hdecorators
  have hlead : leading Text.isBlank (gap.length + (d.front.length + room)) (gap ++ (d.front ++ r)) =
      gap.length := by
    obtain ⟨a, hblank, -, hhead⟩ := Decorator.head_textOf hc d.decorators
    obtain ⟨as, has⟩ := hhead (hs ++ '(' :: (d.params ++ ')' :: r))
    refine leading_append hgap ?_ (by omega)
    rw [hfront, hheader, List.cons_append, has]
    simpa using hblank
  rw [memberAt, hlead, List.drop_left, Nat.add_sub_cancel_left, hfront, hlen,
    show (Decorator.textOf d.decorators).length + (d.header.length + (d.params.length + 2)) + room =
      (Decorator.textOf d.decorators).length + (d.header.length + (d.params.length + 2 + room)) by
      omega, hdecorators, List.drop_left, Nat.add_sub_cancel_left, h.outlineFrom_header hd]
  simp only [Member.mk.injEq, true_and]
  omega

/-- What is taken for the tail is the tail, if the type of the result is plain, and only then. -/
theorem Formed.methodTail_tail (h : d.Formed) (room : ℕ) (r : List Char) :
    methodTail 0 (d.tail.length + room) (d.tail ++ r) = d.tail.length ↔ d.PlainResult := by
  have hsplit : d.tail ++ r = d.result ++ '\x7b' :: (d.body ++ '\x7d' :: r) := by simp [tail]
  have hlen : d.tail.length = d.result.length + (d.body.length + 2) := by simp [tail]
  rw [hsplit, hlen, Nat.add_assoc]
  constructor
  · intro heq
    by_contra hplain
    have hle := (h.result.splitsAt_methodTail_of_not hplain (d.body.length + 2 + room)
      ('\x7b' :: (d.body ++ '\x7d' :: r))).le
    omega
  · intro hplain
    rw [h.result.methodTail_append hplain, methodTail_braces h.body, Nat.add_comm]

/-- A legible declaration is found as a method of its name. Its length is that of the declaration if
the type of the result is plain, and only then. -/
theorem Formed.exists_foundAs (h : d.Formed) (hd : d.Legible) (r tail : List Char) :
    ∃ size, FoundAs (d.text ++ r) tail (String.ofList d.name) .method size ∧ 0 < size ∧
      (size = d.text.length ↔ d.PlainResult) := by
  have hfront : 0 < d.front.length := by simp [front]
  refine ⟨d.front.length + methodTail 0 (d.tail.length + r.length) (d.tail ++ (r ++ tail)),
    fun gap steps pos hgap hsteps => ?_, by omega, ?_⟩
  · rw [List.length_append, List.length_append, text, List.length_append] at hsteps
    have := h.memberAt_eq hd hgap (by omega : d.front.length ≤ steps) pos
      (d.tail.length + r.length) (d.tail ++ (r ++ tail))
    simpa only [text, List.length_append, List.append_assoc, Nat.add_assoc] using this
  · rw [← h.methodTail_tail r.length (r ++ tail), text, List.length_append, Nat.add_left_cancel_iff]

end MethodDecl

/-- **Methods that are declared in a class.** A declaration that the search can read up to the end
of its parameters is reported as one method of its name that ends with its body, exactly if the type
of its result is plain and no member in front reaches over its beginning; and none does behind the
brace of the class, behind a semicolon, or behind braces and a line break, outside all brackets. -/
theorem findClass?_method {source above below : List Char} {name : String} {body : ClassBody}
    {d : MethodDecl} (balanced : balanceProblems source = [])
    (found : findClass? source name = some body) (formed : d.Formed) (legible : d.Legible)
    (split : mask source = above ++ (d.text ++ below)) (inside : body.opening < above.length)
    (ends : above.length + d.text.length ≤ body.closing) :
    (Reported (mask source) body.members above.length d.text.length (String.ofList d.name) .method ↔
        d.PlainResult ∧ ∀ m ∈ body.members, ¬m.Straddles (mask source) above.length) ∧
      (Breaks (above.drop (body.opening + 1)) →
        ∀ m ∈ body.members, ¬m.Straddles (mask source) above.length) :=
  findBody?_reported (balanced_mask balanced) found split inside ends formed.exists_text
    (formed.exists_foundAs legible)

/-- A class with a property and a method, whose decorators, type parameters and result hold
brackets of all kinds. -/
def petSource : List Char :=
  ["class PetService \x7b\n", "  count = 1;\n\n", "  @Get() @bar.Baz(\x7b a: [1] \x7d)\n",
    "  find<T extends \x7b a: string; b: Array \x7d>", "(id: T): [T, \x7b a: 1 \x7d] \x7b\n",
    "    return [id, \x7b a: 1 \x7d];\n", "  \x7d\n\x7d\n"].flatMap String.toList

/-- The declaration of its method. -/
def findDecl : MethodDecl where
  decorators := [⟨"Get".toList, some ([], []), [' ']⟩,
    ⟨"bar.Baz".toList, some ([], "\x7b a: [1] \x7d".toList), "\n  ".toList⟩]
  name := "find".toList
  gap := []
  typeParams := some ("T extends \x7b a: string; b: Array \x7d".toList, [])
  params := "id: T".toList
  result := ": [T, \x7b a: 1 \x7d] ".toList
  body := "\n    return [id, \x7b a: 1 \x7d];\n  ".toList

/-- The body of the class. -/
def petBody : ClassBody :=
  ⟨"PetService", 17, 160, [⟨"count", .property, 18, 31⟩, ⟨"find", .method, 31, 159⟩]⟩

theorem findClass?_method_pet :
    ((balanceProblems petSource = [] ∧ findClass? petSource "PetService" = some petBody ∧
        findDecl.Formed ∧ findDecl.Legible ∧
        mask petSource = petSource.take 35 ++ (findDecl.text ++ petSource.drop 159)) ∧
      petBody.opening < (petSource.take 35).length ∧
        (petSource.take 35).length + findDecl.text.length ≤ petBody.closing) ∧
    ((Reported (mask petSource) petBody.members (petSource.take 35).length findDecl.text.length
          (String.ofList findDecl.name) .method ↔ findDecl.PlainResult ∧
            ∀ m ∈ petBody.members, ¬m.Straddles (mask petSource) (petSource.take 35).length) ∧
      (Breaks ((petSource.take 35).drop (petBody.opening + 1)) →
        ∀ m ∈ petBody.members, ¬m.Straddles (mask petSource) (petSource.take 35).length)) ∧
    findDecl.PlainResult ∧ Breaks ((petSource.take 35).drop (petBody.opening + 1)) := by
  have balanced : balanceProblems petSource = [] := by decide +kernel
  have found : findClass? petSource "PetService" = some petBody := by decide +kernel
  have formed : findDecl.Formed := by decide +kernel
  have legible : findDecl.Legible := by decide +kernel
  have split : mask petSource = petSource.take 35 ++ (findDecl.text ++ petSource.drop 159) := by
    decide +kernel
  have inside : petBody.opening < (petSource.take 35).length := by decide +kernel
  have ends : (petSource.take 35).length + findDecl.text.length ≤ petBody.closing := by
    decide +kernel
  have plain : findDecl.PlainResult := by decide +kernel
  -- the property in front ends with a semicolon
  have front : (petSource.take 35).drop (petBody.opening + 1) =
      "\n  count = 1".toList ++ ';' :: "\n\n  ".toList := by decide +kernel
  have breaks : Breaks ((petSource.take 35).drop (petBody.opening + 1)) := by
    rw [front]
    exact .behind (by decide +kernel) (.semicolon (List.all_iff_forall_prop.1 (by decide)))
  exact ⟨⟨⟨balanced, found, formed, legible, split⟩, inside, ends⟩,
    findClass?_method balanced found formed legible split inside ends, plain, breaks⟩

/-- A declaration that stands in a class of a balanced text, outside the brackets in it, and is not
listed. -/
def MethodDecl.Missed (d : MethodDecl) (source : List Char) (name : String) (pos : ℕ) : Prop :=
  balanceProblems source = [] ∧ d.Formed ∧ ∃ body ∈ findClass? source name,
    (body.opening < pos ∧ pos + d.text.length ≤ body.closing ∧
      Balanced ((mask source).extract (body.opening + 1) pos) ∧ d.text <+: (mask source).drop pos) ∧
    ¬Listed body.members pos d.text.length (String.ofList d.name) .method

/-- A method with the given type parameters, parameters, result and body. -/
def methodOf (typeParams : Option String) (params result body : String) : MethodDecl where
  decorators := []
  name := "find".toList
  gap := []
  typeParams := typeParams.map fun t => (t.toList, [])
  params := params.toList
  result := result.toList
  body := body.toList

/-- An object type in the result ends the method early; angle brackets inside the type parameters
hide its name; a default there makes it a property; and a property in front swallows it if the line
ends with an operator. -/
theorem methodOf_missed :
    (methodOf none "id: string" ": \x7b id: string \x7d " "\n    return \x7b id \x7d;\n  ").Missed
        (["class A \x7b\n", "  find(id: string): \x7b id: string \x7d \x7b\n",
          "    return \x7b id \x7d;\n", "  \x7d\n\x7d\n"].flatMap String.toList) "A" 12 ∧
      (methodOf (some "T extends Array<string>") "id: T" " " "\n    return id;\n  ").Missed
        (["class A \x7b\n", "  find<T extends Array<string>>(id: T) \x7b\n",
          "    return id;\n", "  \x7d\n\x7d\n"].flatMap String.toList) "A" 12 ∧
      (methodOf (some "T = string") "id: T" " " "\n    return id;\n  ").Missed
        (["class A \x7b\n", "  find<T = string>(id: T) \x7b\n",
          "    return id;\n", "  \x7d\n\x7d\n"].flatMap String.toList) "A" 12 ∧
      (methodOf none "id: string" " " "\n    return id;\n  ").Missed
        (["class A \x7b\n", "  count = total++\n", "  find(id: string) \x7b\n",
          "    return id;\n", "  \x7d\n\x7d\n"].flatMap String.toList) "A" 30 := by
  refine ⟨⟨by decide +kernel, by decide +kernel,
      ⟨"A", 8, 70, [⟨"find", .method, 9, 44⟩, ⟨"", .property, 44, 69⟩]⟩,
      by decide +kernel, by decide +kernel, by decide +kernel⟩,
    ⟨by decide +kernel, by decide +kernel, ⟨"A", 8, 70, [⟨"", .method, 9, 69⟩]⟩,
      by decide +kernel, by decide +kernel, by decide +kernel⟩,
    ⟨by decide +kernel, by decide +kernel, ⟨"A", 8, 57, [⟨"T", .property, 9, 56⟩]⟩,
      by decide +kernel, by decide +kernel, by decide +kernel⟩,
    ⟨by decide +kernel, by decide +kernel, ⟨"A", 8, 68, [⟨"count", .property, 9, 67⟩]⟩,
      by decide +kernel, by decide +kernel, by decide +kernel⟩⟩

end ApiScaffold.TypeScript
