import ApiScaffold.Proofs.Reconcile
import ApiScaffold.Proofs.TypeScript.Decorators
import ApiScaffold.Proofs.TypeScript.Reports

/-!
# Properties that are declared in a class

The search for members reads a property up to its semicolon, but it ends it at a line break before
that if the line cannot go on: it looks at the last character of the line, not at the next line.

* `PropertyDecl` is the declaration of a property with a value in a masked text,
  `PropertyDecl.Formed` says that its parts are what they should be;
* `PropertyDecl.LinesGoOn` says that each of its lines ends, outside brackets, with a character
  after which a property goes on;
* `PropertyDecl.Formed.exists_foundAs`: the declaration is found as a property of its name, with its
  semicolon if its lines go on;
* `findClass?_property`: it is reported as the property that it is exactly if its lines go on and no
  member in front reaches over its beginning; and then each reconciliation keeps it as it is.
-/

namespace ApiScaffold.TypeScript

/-! ### Declarations -/

/-- The declaration of a property: its name, the blanks behind it, and what stands between the
equals sign and the semicolon. -/
structure PropertyDecl where
  name : List Char
  gap : List Char
  value : List Char
  deriving DecidableEq, Repr

namespace PropertyDecl

/-- The declaration up to its semicolon. -/
def front (d : PropertyDecl) : List Char := d.name ++ (d.gap ++ '=' :: d.value)

/-- The declaration as it stands in a text. -/
def text (d : PropertyDecl) : List Char := d.front ++ [';']

/-- The parts of a declaration are what they should be. -/
structure Formed (d : PropertyDecl) : Prop where
  ne_nil : d.name ≠ []
  /-- The name of a private property begins with a hash. -/
  name : ∀ c ∈ d.name, Text.isIdentifierChar c = true ∨ c = '#'
  gap : ∀ c ∈ d.gap, Text.isBlank c = true
  value : Balanced d.value
  /-- There is no semicolon outside the brackets of the value. -/
  semicolon : Outside (fun _ c => c ≠ ';') d.value

instance instDecidableFormed (d : PropertyDecl) : Decidable d.Formed :=
  decidable_of_iff (d.name ≠ [] ∧
      (d.name.all fun c => Text.isIdentifierChar c || c == '#') = true ∧
      d.gap.all Text.isBlank = true ∧ Balanced d.value ∧ Outside (fun _ c => c ≠ ';') d.value) <| by
    simp only [List.all_eq_true, Bool.or_eq_true, beq_iff_eq]
    exact ⟨fun ⟨h₁, h₂, h₃, h₄, h₅⟩ => ⟨h₁, h₂, h₃, h₄, h₅⟩,
      fun ⟨h₁, h₂, h₃, h₄, h₅⟩ => ⟨h₁, h₂, h₃, h₄, h₅⟩⟩

/-- Each line of the declaration that ends outside brackets ends with a character after which a
property goes on. -/
def LinesGoOn (d : PropertyDecl) : Prop :=
  Outside (fun u c => c = '\n' → endsProperty u = false) d.front

instance instDecidableLinesGoOn (d : PropertyDecl) : Decidable d.LinesGoOn :=
  inferInstanceAs (Decidable (Outside _ d.front))

end PropertyDecl

/-! ### The member that is found -/

/-- A text that begins with an outline is found with it behind any blanks. -/
theorem FoundAs.of_outlineFrom {c : Char} {cs t tail : List Char} {name : String}
    {kind : MemberKind} {size : ℕ} (ht : t = c :: cs) (hblank : Text.isBlank c = false)
    (hc : c ≠ '@') (h : outlineFrom [] 0 t.length (t ++ tail) = ⟨name, kind, size⟩) :
    FoundAs t tail name kind size := by
  intro gap steps pos hgap _
  have hlead : leading Text.isBlank (gap.length + t.length) (gap ++ (t ++ tail)) = gap.length :=
    leading_append hgap (by rw [ht]; simpa using hblank) (Nat.le_add_right _ _)
  have hdecorators : decoratorsLength steps t.length (t ++ tail) = 0 := by
    rw [ht]
    exact decoratorsLength_of_ne hc _ _ _
  rw [List.append_assoc, List.length_append, memberAt, hlead, List.drop_left,
    Nat.add_sub_cancel_left, hdecorators, List.drop_zero, Nat.sub_zero, h, Nat.add_zero,
    ← Nat.add_assoc]

namespace PropertyDecl

variable {d : PropertyDecl} {u v r : List Char} {c : Char}

/-- The characters of a name are neither blanks nor brackets, and none of those that end a name. -/
theorem Formed.name_cases (h : d.Formed) (hc : c ∈ d.name) :
    Text.isBlank c = false ∧ isBracket c = false ∧
      c ∉ ['@', ':', '=', ';', '\n', '>', '?', '!'] := by
  rcases h.name c hc with hc | rfl
  · refine ⟨isBlank_of_isIdentifierChar hc,
      isBracket_of_isHeaderChar (isHeaderChar_of_isIdentifierChar hc), fun hmem => ?_⟩
    have hall : ∀ c ∈ ['@', ':', '=', ';', '\n', '>', '?', '!'], Text.isIdentifierChar c = false :=
      List.all_iff_forall_prop.1 (by decide)
    rw [hall c hmem] at hc
    cases hc
  · decide

theorem Formed.balanced_front (h : d.Formed) : Balanced d.front :=
  .append (.of_plain fun _ hc => (h.name_cases hc).2.1) <|
    .append (.of_plain fun _ hc => isBracket_of_isBlank (h.gap _ hc)) <|
      .plain (by decide) h.value

/-- A parenthesis or a semicolon stands in the value. -/
theorem Formed.exists_value (h : d.Formed) (hsplit : d.front = u ++ c :: v)
    (hc : c = '(' ∨ c = ';') :
    ∃ u', u = d.name ++ (d.gap ++ '=' :: u') ∧ d.value = u' ++ c :: v := by
  have hhead : c ∉ d.name ++ (d.gap ++ ['=']) := by
    intro hmem
    simp only [List.mem_append, List.mem_singleton] at hmem
    rcases hmem with hmem | hmem | rfl
    · obtain ⟨-, hbracket, hmark⟩ := h.name_cases hmem
      rcases hc with rfl | rfl
      · cases hbracket
      · exact hmark (by decide)
    · have hblank := h.gap c hmem
      rcases hc with rfl | rfl <;> exact absurd hblank (by decide)
    · rcases hc with hc | hc <;> exact absurd hc (by decide)
  obtain ⟨u', rfl, hvalue⟩ := exists_append_of_notMem (y := d.value) (u := u) hhead
    (by rw [← hsplit, front]; simp)
  exact ⟨u', by simp, hvalue⟩

/-- The outline of the declaration ends in front of its semicolon only with a line that cannot go
on. -/
theorem Formed.endsOutline_iff (h : d.Formed) (hsplit : d.front = u ++ c :: v) (hu : Balanced u) :
    EndsOutline u c ↔ c = '\n' ∧ endsProperty u = true := by
  refine ⟨?_, fun hends => Or.inr (Or.inr hends)⟩
  rintro (⟨rfl, hequals⟩ | rfl | hends)
  · obtain ⟨u', rfl, -⟩ := h.exists_value hsplit (Or.inl rfl)
    exact absurd (by simp) hequals
  · obtain ⟨u', rfl, hvalue⟩ := h.exists_value hsplit (Or.inr rfl)
    have hhead : Balanced (d.name ++ (d.gap ++ ['='])) :=
      .append (.of_plain fun _ hc => (h.name_cases hc).2.1) <|
        .append (.of_plain fun _ hc => isBracket_of_isBlank (h.gap _ hc)) (.plain (by decide) .nil)
    rw [show d.name ++ (d.gap ++ '=' :: u') = d.name ++ (d.gap ++ ['=']) ++ u' by simp] at hu
    exact absurd rfl (h.semicolon u' ';' v hvalue (hu.of_append hhead))
  · exact hends

theorem Formed.linesGoOn_iff (h : d.Formed) :
    d.LinesGoOn ↔ Outside (fun u c => ¬EndsOutline u c) d.front := by
  refine forall₅_congr fun u c v hsplit hu => ?_
  dsimp only
  rw [h.endsOutline_iff hsplit hu, not_and, Bool.not_eq_true]

/-- Blanks behind the name make no difference to it. -/
theorem Formed.nameOf_append (h : d.Formed) (hu : ∀ c ∈ u, Text.isBlank c = true) :
    nameOf (d.name ++ u) = nameOf d.name := by
  have hlast := h.name_cases (List.getLast_mem h.ne_nil)
  have hmarks : d.name.getLast h.ne_nil ≠ '>' ∧ d.name.getLast h.ne_nil ≠ '?' ∧
      d.name.getLast h.ne_nil ≠ '!' := by
    simp only [List.mem_cons, List.not_mem_nil, or_false, not_or] at hlast
    exact hlast.2.2.2.2.2.2.2
  rw [← List.dropLast_append_getLast h.ne_nil, List.append_assoc, List.singleton_append,
    nameOf_append_blanks hlast.1 hmarks hu]

/-- A part of the declaration that holds its name shows it. -/
theorem Formed.nameOf_propertyHeader (h : d.Formed) (hu : u <+: d.gap ++ '=' :: r) :
    nameOf (propertyHeader (d.name ++ u)) = nameOf d.name := by
  have hname : ∀ c ∈ d.name, !(c == ':' || c == '=' || c == ';' || c == '\n') := by
    intro c hc
    have hmark := (h.name_cases hc).2.2
    simp only [List.mem_cons, List.not_mem_nil, or_false, not_or] at hmark
    simp [hmark]
  rw [propertyHeader, List.takeWhile_append_of_pos hname]
  refine h.nameOf_append fun c hc => h.gap c ?_
  have hequals : '=' ∉ u.takeWhile fun c => !(c == ':' || c == '=' || c == ';' || c == '\n') :=
    fun hmem => absurd (List.mem_takeWhile_imp hmem) (by decide)
  obtain ⟨t, ht⟩ := (List.takeWhile_prefix _).trans hu
  obtain ⟨u', hgap, -⟩ := exists_append_of_notMem hequals ht
  rw [hgap]
  exact List.mem_append_left _ hc

/-- The name also stands in a part of the declaration without the blanks at its end. -/
theorem Formed.nameOf_trimRight (h : d.Formed) (hu : u <+: d.gap ++ '=' :: r) :
    nameOf (propertyHeader (Text.trimRight (d.name ++ u))) = nameOf d.name := by
  have htrim : Text.trimRight (d.name ++ u) = d.name ++ Text.trimRight u := by
    have hlast := (h.name_cases (List.getLast_mem h.ne_nil)).1
    rw [← List.dropLast_append_getLast h.ne_nil, List.append_assoc, List.singleton_append,
      trimRight_append_cons _ _ hlast, List.append_assoc, List.singleton_append]
  rw [htrim]
  have htrimmed : Text.trimRight u <+: u :=
    ⟨_, Text.dropSuffixWhile_append_takeSuffixWhile Text.isBlank u⟩
  exact h.nameOf_propertyHeader (htrimmed.trans hu)

/-- The outline of the declaration ends with its semicolon if its lines go on, and otherwise in
front of the end of a line. -/
theorem Formed.outlineFrom_text (h : d.Formed) (room : ℕ) (r : List Char) :
    ∃ size, outlineFrom [] 0 (d.text.length + room) (d.text ++ r) =
      ⟨nameOf d.name, .property, size⟩ ∧ 0 < size ∧ (size = d.text.length ↔ d.LinesGoOn) := by
  have hlen : d.text.length + room = d.front.length + (room + 1) := by
    rw [text, List.length_append, List.length_singleton]
    omega
  have htext : d.text ++ r = d.front ++ ';' :: r := by simp [text]
  rw [hlen, htext]
  by_cases hgo : d.LinesGoOn
  · refine ⟨d.front.length + 1, ?_, Nat.succ_pos _, by simp [hgo, text]⟩
    rw [h.balanced_front.outlineFrom_append (by simpa using h.linesGoOn_iff.1 hgo), outlineFrom,
      if_neg (by decide), if_neg (by decide), if_pos rfl, propertyOutline, List.append_nil,
      List.reverse_reverse, List.length_reverse, front,
      h.nameOf_propertyHeader (List.prefix_refl _)]
  · obtain ⟨u, c, v, hsplit, hu, hfirst, hends⟩ := exists_first (mt h.linesGoOn_iff.2 hgo)
    obtain ⟨rfl, hline⟩ := (h.endsOutline_iff hsplit hu).1 (not_not.1 hends)
    have hname : '\n' ∉ d.name := fun hmem => (h.name_cases hmem).2.2 (by decide)
    obtain ⟨u', rfl, hrest⟩ := exists_append_of_notMem hname (by rw [← hsplit, front])
    refine ⟨(d.name ++ u').length, ?_, ?_, ?_⟩
    · rw [hsplit, List.append_assoc (d.name ++ u'), List.length_append, Nat.add_assoc,
        hu.outlineFrom_append (by simpa using hfirst), List.append_nil, List.cons_append,
        List.length_cons, Nat.add_right_comm, outlineFrom, if_neg (by decide), if_neg (by decide),
        if_neg (by decide), List.reverse_reverse, if_pos ⟨rfl, hline⟩, propertyOutline,
        h.nameOf_trimRight ⟨_, hrest.symm⟩, List.length_reverse]
    · rw [List.length_append]
      exact Nat.add_pos_left (List.length_pos_iff.2 h.ne_nil) _
    · have hlt : (d.name ++ u').length < d.text.length := by
        rw [text, hsplit]
        simp
      exact iff_of_false hlt.ne hgo

/-- A declaration begins with its name. -/
theorem Formed.exists_text (h : d.Formed) :
    ∃ c cs, d.text = c :: cs ∧ Text.isBlank c = false ∧ c ≠ ';' ∧ c ≠ '@' := by
  obtain ⟨c, cs, hcs⟩ := List.exists_cons_of_ne_nil h.ne_nil
  obtain ⟨hblank, -, hmark⟩ := h.name_cases (by rw [hcs]; exact List.mem_cons_self ..)
  refine ⟨c, _, by rw [text, front, hcs]; rfl, hblank, ?_, ?_⟩ <;>
    exact fun heq => hmark (by rw [heq]; decide)

/-- A declaration is found as a property of its name. Its length is that of the declaration if its
lines go on, and only then. -/
theorem Formed.exists_foundAs (h : d.Formed) (r tail : List Char) :
    ∃ size, FoundAs (d.text ++ r) tail (nameOf d.name) .property size ∧ 0 < size ∧
      (size = d.text.length ↔ d.LinesGoOn) := by
  obtain ⟨size, hsize, hpos, hiff⟩ := h.outlineFrom_text r.length (r ++ tail)
  obtain ⟨c, cs, hcs, hblank, -, hat⟩ := h.exists_text
  rw [← List.append_assoc, ← List.length_append] at hsize
  exact ⟨size, .of_outlineFrom (by rw [hcs]; rfl) hblank hat hsize, hpos, hiff⟩

end PropertyDecl

/-! ### What a reconciliation leaves -/

section Kept

variable {masked source : List Char} {ms : List Member} {name : String} {kind : MemberKind}
  {pos size : ℕ} {body : ClassBody}

/-- A text that is reported is the end of a member of its kind. -/
theorem Reported.exists_member (h : Reported masked ms pos size name kind) :
    ∃ m ∈ ms, m.name = name ∧ m.kind = kind ∧ m.start ≤ pos ∧ m.stop = pos + size := by
  obtain ⟨m, hm, heq⟩ := List.map_eq_singleton_iff.1 h.listed
  obtain ⟨hname, hkind, hstop⟩ : m.name = name ∧ m.kind = kind ∧ m.stop = pos + size := by
    simpa using heq
  have hmem : m ∈ overlapping ms pos (pos + size) := by
    rw [hm]
    exact List.mem_singleton_self m
  exact ⟨m, (List.mem_filter.1 hmem).1, hname, hkind, (h.begins m hmem).1, hstop⟩

/-- **Each reconciliation keeps a property that is reported,** if it puts imports above the
class. -/
theorem Reported.infix_apply (h : Reported masked body.members pos size name .property)
    {className : String} (found : findClass? source className = some body) {s : Service}
    (above : Reconcile.ImportsAbove s source className) (settings : Settings) :
    source.extract pos (pos + size) <:+:
      Splice.apply source (Reconcile.changes settings s source body).edits := by
  obtain ⟨m, hm, -, hkind, hstart, hstop⟩ := h.exists_member
  have hkept : m ∈ Reconcile.kept s body :=
    Reconcile.mem_kept.2 ⟨hm, by simp [Reconcile.isRemoved, hkind]⟩
  have hkeeps : _ <:+: Reconcile.reconciled settings s source body :=
    Reconcile.kept_infix found above hkept
  rw [Reconcile.apply_edits found above]
  have hsuffix := List.drop_suffix (pos - m.start) ((source.drop m.start).take (m.stop - m.start))
  rw [List.drop_take, List.drop_drop, Nat.add_sub_cancel' hstart, Nat.sub_sub,
    Nat.add_sub_cancel' hstart, hstop, ← List.extract_eq_take_drop] at hsuffix
  rw [hstop] at hkeeps
  exact hsuffix.isInfix.trans hkeeps

end Kept

/-! ### Properties of a class -/

/-- **Properties that are declared in a class.** The declaration of a property with a value is
reported as one property that ends with its semicolon, exactly if each of its lines ends with a
character after which a property goes on, and no member in front reaches over its beginning; and
none does behind the brace of the class, behind a semicolon, or behind braces and a line break,
outside all brackets. What is reported is kept by each reconciliation that puts its imports above
the class. -/
theorem findClass?_property {source above below : List Char} {name : String} {body : ClassBody}
    {d : PropertyDecl} (balanced : balanceProblems source = [])
    (found : findClass? source name = some body) (formed : d.Formed)
    (split : mask source = above ++ (d.text ++ below)) (inside : body.opening < above.length)
    (ends : above.length + d.text.length ≤ body.closing) :
    (Reported (mask source) body.members above.length d.text.length (nameOf d.name) .property ↔
        d.LinesGoOn ∧ ∀ m ∈ body.members, ¬m.Straddles (mask source) above.length) ∧
      (Breaks (above.drop (body.opening + 1)) →
        ∀ m ∈ body.members, ¬m.Straddles (mask source) above.length) ∧
      (Reported (mask source) body.members above.length d.text.length (nameOf d.name) .property →
        ∀ (settings : Settings) (s : Service), Reconcile.ImportsAbove s source name →
          source.extract above.length (above.length + d.text.length) <:+:
            Splice.apply source (Reconcile.changes settings s source body).edits) := by
  have hreported := findBody?_reported (balanced_mask balanced) found split inside ends
    (fun r => by
      obtain ⟨c, cs, hcs, hblank, hsemicolon, -⟩ := formed.exists_text
      exact ⟨c, _, by rw [hcs]; rfl, hblank, hsemicolon⟩)
    formed.exists_foundAs
  exact ⟨hreported.1, hreported.2, fun h settings s himports =>
    h.infix_apply found himports settings⟩

/-- A class with a property over two lines and a method. -/
def totalSource : List Char :=
  ["class A \x7b\n", "  total = first +\n", "    second(\x7b a: [1] \x7d);\n\n",
    "  list() \x7b\n  \x7d\n\x7d\n"].flatMap String.toList

/-- The declaration of the property. -/
def totalDecl : PropertyDecl where
  name := "total".toList
  gap := [' ']
  value := " first +\n    second(\x7b a: [1] \x7d)".toList

/-- The body of the class. -/
def totalBody : ClassBody :=
  ⟨"A", 8, 68, [⟨"total", .property, 9, 51⟩, ⟨"list", .method, 51, 67⟩]⟩

/-- A service without operations. -/
def bareService : Service where
  name := "A"
  description := ""
  methods := []
  imports := []

theorem findClass?_property_total :
    ((balanceProblems totalSource = [] ∧ findClass? totalSource "A" = some totalBody ∧
        totalDecl.Formed ∧
        mask totalSource = totalSource.take 12 ++ (totalDecl.text ++ totalSource.drop 51)) ∧
      totalBody.opening < (totalSource.take 12).length ∧
        (totalSource.take 12).length + totalDecl.text.length ≤ totalBody.closing) ∧
    Reported (mask totalSource) totalBody.members (totalSource.take 12).length
      totalDecl.text.length (nameOf totalDecl.name) .property ∧
    totalSource.extract (totalSource.take 12).length
        ((totalSource.take 12).length + totalDecl.text.length) <:+:
      Splice.apply totalSource (Reconcile.changes {} bareService totalSource totalBody).edits := by
  have balanced : balanceProblems totalSource = [] := by decide +kernel
  have found : findClass? totalSource "A" = some totalBody := by decide +kernel
  have formed : totalDecl.Formed := by decide +kernel
  have split : mask totalSource =
      totalSource.take 12 ++ (totalDecl.text ++ totalSource.drop 51) := by
    decide +kernel
  have inside : totalBody.opening < (totalSource.take 12).length := by decide +kernel
  have ends : (totalSource.take 12).length + totalDecl.text.length ≤ totalBody.closing := by
    decide +kernel
  have linesGoOn : totalDecl.LinesGoOn := by decide +kernel
  -- the property stands behind the brace of the class
  have breaks : Breaks ((totalSource.take 12).drop (totalBody.opening + 1)) :=
    .blank (List.all_iff_forall_prop.1 (by decide +kernel))
  obtain ⟨hiff, hbreaks, hkept⟩ := findClass?_property balanced found formed split inside ends
  have hreported := hiff.2 ⟨linesGoOn, hbreaks breaks⟩
  exact ⟨⟨⟨balanced, found, formed, split⟩, inside, ends⟩, hreported,
    hkept hreported {} bareService (Or.inl (by decide +kernel))⟩

/-- A declaration that stands in a class of a balanced text, outside the brackets in it, and is not
listed. -/
def PropertyDecl.Missed (d : PropertyDecl) (source : List Char) (name : String) (pos : ℕ) : Prop :=
  balanceProblems source = [] ∧ d.Formed ∧ ∃ body ∈ findClass? source name,
    (body.opening < pos ∧ pos + d.text.length ≤ body.closing ∧
      Balanced ((mask source).extract (body.opening + 1) pos) ∧ d.text <+: (mask source).drop pos) ∧
    ¬Listed body.members pos d.text.length (nameOf d.name) .property

/-- A class with a property whose value goes on in a line that begins with a full stop. -/
def chainSource : List Char :=
  ["class A \x7b\n", "  total = items\n", "    .map(x => x);\n", "\x7d\n"].flatMap String.toList

/-- A property with the given name, blanks behind it, and value. -/
def propertyOf (name gap value : String) : PropertyDecl := ⟨name.toList, gap.toList, value.toList⟩

/-- A line that begins with a full stop, with a question mark, with an operator or with the equals
sign itself ends a property early, and so does the end of a line in a template. A reconciliation
that takes the rest for a method cuts it out. A division behind `++` is taken for the beginning of a
regular expression, which hides the semicolon. -/
theorem propertyOf_missed :
    (propertyOf "total" " " " items\n    .map(x => x)").Missed chainSource "A" 12 ∧
      (propertyOf "total" " " " ready\n    ? first(1)\n    : second(2)").Missed
        (["class A \x7b\n", "  total = ready\n", "    ? first(1)\n", "    : second(2);\n",
          "\x7d\n"].flatMap String.toList) "A" 12 ∧
      (propertyOf "total" " " " first\n    + second(1)").Missed
        (["class A \x7b\n", "  total = first\n", "    + second(1);\n",
          "\x7d\n"].flatMap String.toList) "A" 12 ∧
      (propertyOf "count" "\n    " " 1").Missed
        (["class A \x7b\n", "  count\n", "    = 1;\n", "\x7d\n"].flatMap String.toList) "A" 12 ∧
      (propertyOf "text" " " " \x60\n   \x60.trim()").Missed
        (["class A \x7b\n", "  text = \x60\n", "  a\x60.trim();\n",
          "\x7d\n"].flatMap String.toList) "A" 12 ∧
      (∃ body ∈ findClass? chainSource "A", Reconcile.ImportsAbove bareService chainSource "A" ∧
        Splice.apply chainSource (Reconcile.changes {} bareService chainSource body).edits =
          ["class A \x7b\n", "  total = items\n", "\x7d\n"].flatMap String.toList) ∧
      findClass? (["class A \x7b\n", "  half = count++ / 2; rest = 3 / 4;\n",
          "\x7d\n"].flatMap String.toList) "A" =
        some ⟨"A", 8, 46, [⟨"half", .property, 9, 45⟩]⟩ := by
  refine ⟨⟨by decide +kernel, by decide +kernel,
      ⟨"A", 8, 44, [⟨"total", .property, 9, 25⟩, ⟨"map", .method, 25, 43⟩]⟩,
      by decide +kernel, by decide +kernel, by decide +kernel⟩,
    ⟨by decide +kernel, by decide +kernel,
      ⟨"A", 8, 58, [⟨"total", .property, 9, 25⟩, ⟨"first", .method, 25, 57⟩]⟩,
      by decide +kernel, by decide +kernel, by decide +kernel⟩,
    ⟨by decide +kernel, by decide +kernel,
      ⟨"A", 8, 43, [⟨"total", .property, 9, 25⟩, ⟨"second", .method, 25, 42⟩]⟩,
      by decide +kernel, by decide +kernel, by decide +kernel⟩,
    ⟨by decide +kernel, by decide +kernel,
      ⟨"A", 8, 27, [⟨"count", .property, 9, 17⟩, ⟨"", .property, 17, 26⟩]⟩,
      by decide +kernel, by decide +kernel, by decide +kernel⟩,
    ⟨by decide +kernel, by decide +kernel,
      ⟨"A", 8, 34, [⟨"text", .property, 9, 20⟩, ⟨"trim", .method, 20, 33⟩]⟩,
      by decide +kernel, by decide +kernel, by decide +kernel⟩,
    ⟨⟨"A", 8, 44, [⟨"total", .property, 9, 25⟩, ⟨"map", .method, 25, 43⟩]⟩, by decide +kernel,
      Or.inl (by decide +kernel), by decide +kernel⟩,
    by decide +kernel⟩

end ApiScaffold.TypeScript
