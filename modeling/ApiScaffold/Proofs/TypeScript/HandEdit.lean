import ApiScaffold.Proofs.TypeScript.Layout

/-!
# Reading and replacing the body of a method

* `bodyText?` is the text between the braces of a method of a class, `replaceBody?` the source text
  with another text in its place;
* `Layout.Sound.bodyText?_eq`, `Layout.Sound.replaceBody?_eq`: in a service file these are the body
  of the method, and the file with another body;
* `Layout.Sound.withBody`: the file stays sound if the other body fits.
-/

namespace ApiScaffold.TypeScript

/-- The place and the length of the text between the braces of the first method of the given
name. -/
def methodSpan? (source : List Char) (b : ClassBody) (method : String) : Option (ℕ × ℕ) :=
  (b.methods.find? fun m => m.name == method).bind (bodySpan? (mask source))

/-- The text between the braces of a method. -/
def bodyText? (source : List Char) (b : ClassBody) (method : String) : Option (List Char) :=
  (methodSpan? source b method).map fun span => (source.drop span.1).take span.2

/-- The source text with another text between the braces of a method. -/
def replaceBody? (source : List Char) (b : ClassBody) (method : String) (t : List Char) :
    Option (List Char) :=
  (methodSpan? source b method).map fun span =>
    source.take span.1 ++ t ++ source.drop (span.1 + span.2)

variable {l : Layout} {e : MethodText} {es before after : List MethodText}

/-! ### Members of a layout -/

theorem membersAt_append (pos : ℕ) (es fs : List MethodText) :
    membersAt pos (es ++ fs) = membersAt pos es ++ membersAt (pos + (textOf es).length) fs := by
  induction es generalizing pos with
  | nil => rfl
  | cons e es ih =>
    rw [List.cons_append, membersAt, membersAt, ih, textOf_cons, List.length_append,
      Nat.add_assoc pos, List.cons_append]

theorem kind_of_mem_membersAt {pos : ℕ} {m : Member} (h : m ∈ membersAt pos es) :
    m.kind = .method := by
  induction es generalizing pos with
  | nil => cases h
  | cons e es ih =>
    rcases List.mem_cons.1 h with rfl | h
    · rfl
    · exact ih h

theorem map_name_membersAt (pos : ℕ) (es : List MethodText) :
    (membersAt pos es).map (·.name) = es.map fun e => String.ofList e.name := by
  induction es generalizing pos with
  | nil => rfl
  | cons e es ih => rw [membersAt, List.map_cons, ih, List.map_cons]

/-- All members of a service file are methods. -/
theorem Layout.methods_classBody (l : Layout) :
    l.classBody.methods = membersAt (l.opening + 1) l.methods := by
  rw [ClassBody.methods, classBody, List.filter_eq_self]
  intro m hm
  rw [kind_of_mem_membersAt hm]
  rfl

theorem Layout.map_name_methods (l : Layout) :
    l.classBody.methods.map (·.name) = l.methods.map fun e => String.ofList e.name := by
  rw [methods_classBody, map_name_membersAt]

theorem find?_membersAt (pos : ℕ) (h : ∀ e' ∈ before, e'.name ≠ e.name) :
    (membersAt pos (before ++ e :: after)).find? (fun m => m.name == String.ofList e.name) =
      some ⟨String.ofList e.name, .method, pos + (textOf before).length,
        pos + (textOf before).length + e.text.length⟩ := by
  have hnone : (membersAt pos before).find? (fun m => m.name == String.ofList e.name) = none := by
    rw [List.find?_eq_none]
    intro m hm
    have hname := List.mem_map_of_mem (f := (·.name)) hm
    rw [map_name_membersAt] at hname
    obtain ⟨e', he', heq⟩ := List.mem_map.1 hname
    rw [← heq, beq_iff_eq, String.ofList_inj]
    exact h e' he'
  rw [membersAt_append, List.find?_append, hnone, Option.none_or, membersAt, List.find?_cons,
    beq_self_eq_true]

/-! ### One method of a layout -/

namespace Layout

/-- The file up to a method. -/
def upTo (l : Layout) (before : List MethodText) : List Char :=
  linesOf l.imports ++ (l.header ++ '\x7b' :: textOf before)

theorem length_upTo (l : Layout) (before : List MethodText) :
    (l.upTo before).length = l.opening + 1 + (textOf before).length := by
  simp [upTo, opening]
  omega

theorem text_split (hl : l.methods = before ++ e :: after) :
    l.text = l.upTo before ++ (e.text ++ (textOf after ++ fileEnd)) := by
  simp [text, frame, upTo, hl]

theorem masked_split (hl : l.methods = before ++ e :: after) :
    ∃ front back, front.length = (l.upTo before).length ∧
      l.masked = front ++ (e.masked ++ back) := by
  refine ⟨maskedLines l.imports ++ (l.header ++ '\x7b' :: maskedOf before),
    maskedOf after ++ fileEnd, by simp [upTo], ?_⟩
  simp [masked, frame, hl]

/-- The body of a method in the text of the file. -/
theorem text_split_body (hl : l.methods = before ++ e :: after) :
    l.text = (l.upTo before ++ (e.lead ++ (e.signature ++ ['\x7b']))) ++
      (e.body ++ ('\x7d' :: (textOf after ++ fileEnd))) := by
  rw [text_split hl]
  simp [MethodText.text, MethodText.around]

theorem length_upToBody (l : Layout) (before : List MethodText) (e : MethodText) :
    (l.upTo before ++ (e.lead ++ (e.signature ++ ['\x7b']))).length =
      (l.upTo before).length + (e.lead ++ e.signature).length + 1 := by
  simp
  omega

theorem Sound.methodSpan?_eq (h : l.Sound) (hl : l.methods = before ++ e :: after)
    (hname : ∀ e' ∈ before, e'.name ≠ e.name) :
    methodSpan? l.text l.classBody (String.ofList e.name) =
      some ((l.upTo before ++ (e.lead ++ (e.signature ++ ['\x7b']))).length, e.body.length) := by
  have he : e.Sound := h.methods e (by rw [hl]; simp)
  obtain ⟨front, back, hfront, hmasked⟩ := masked_split hl
  rw [methodSpan?, methods_classBody, hl, find?_membersAt _ hname, Option.bind_some, h.mask_text,
    hmasked, ← length_upTo, ← hfront, he.bodySpan?_eq, hfront, length_upToBody]

/-- **The text between the braces of a method is its body.** -/
theorem Sound.bodyText?_eq (h : l.Sound) (hl : l.methods = before ++ e :: after)
    (hname : ∀ e' ∈ before, e'.name ≠ e.name) :
    bodyText? l.text l.classBody (String.ofList e.name) = some e.body := by
  rw [bodyText?, h.methodSpan?_eq hl hname, Option.map_some, text_split_body hl, List.drop_left,
    List.take_left]

/-- **Another text between the braces of a method is another body.** -/
theorem Sound.replaceBody?_eq (h : l.Sound) (hl : l.methods = before ++ e :: after)
    (hname : ∀ e' ∈ before, e'.name ≠ e.name) (t : List Char) :
    replaceBody? l.text l.classBody (String.ofList e.name) t =
      some { l with methods := before ++ { e with body := t } :: after }.text := by
  have hnew :=
    text_split_body (l := { l with methods := before ++ { e with body := t } :: after }) rfl
  rw [replaceBody?, h.methodSpan?_eq hl hname, Option.map_some, text_split_body hl, List.take_left,
    ← List.drop_drop, List.drop_left, List.drop_left, hnew, List.append_assoc]
  rfl

/-- A file with another body that fits is sound. -/
theorem Sound.withBody (h : l.Sound) (hl : l.methods = before ++ e :: after) {t : List Char}
    (ht : Fits t) (hreturn : '\r' ∉ t) :
    { l with methods := before ++ { e with body := t } :: after }.Sound := by
  refine ⟨h.imports, h.imports_ne, h.className, h.className_ne, fun e' he' => ?_⟩
  rcases List.mem_cons.1 (List.perm_middle.mem_iff.1 he') with rfl | he'
  · have he := h.methods e (by rw [hl]; simp)
    exact ⟨he.lineBreak, he.lead, he.name, he.params, he.result, ht, hreturn⟩
  · refine h.methods e' ?_
    rw [hl]
    exact List.perm_middle.mem_iff.2 (List.mem_cons_of_mem e he')

/-- If the body of a method can be replaced, the file has a first method of this name, and the text
is that of the file with the other body. -/
theorem Sound.exists_of_replaceBody? (h : l.Sound) {method : String} {t source : List Char}
    (hreplace : replaceBody? l.text l.classBody method t = some source) :
    ∃ before e after, l.methods = before ++ e :: after ∧ method = String.ofList e.name ∧
      source = { l with methods := before ++ { e with body := t } :: after }.text := by
  cases hfirst : l.methods.find? fun e => String.ofList e.name == method with
  | none =>
    have hnone : l.classBody.methods.find? (fun m => m.name == method) = none := by
      rw [List.find?_eq_none] at hfirst ⊢
      intro m hm
      have hname := List.mem_map_of_mem (f := (·.name)) hm
      rw [l.map_name_methods] at hname
      obtain ⟨e, he, heq⟩ := List.mem_map.1 hname
      exact heq ▸ hfirst e he
    rw [replaceBody?, methodSpan?, hnone] at hreplace
    cases hreplace
  | some e =>
    obtain ⟨hname, before, after, hl, hbefore⟩ := List.find?_eq_some_iff_append.1 hfirst
    obtain rfl := eq_of_beq hname
    have hothers : ∀ e' ∈ before, e'.name ≠ e.name := by
      intro e' he' heq
      simpa [heq] using hbefore e' he'
    rw [h.replaceBody?_eq hl hothers] at hreplace
    exact ⟨before, e, after, hl, rfl, (Option.some.inj hreplace).symm⟩

end Layout

end ApiScaffold.TypeScript
