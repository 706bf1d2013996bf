import ApiScaffold.Proofs.TypeScript.DeclaredMethod
import ApiScaffold.Proofs.TypeScript.Layout

/-!
# Classes that are written as a whole

A class is written as a head, methods below each other, and a brace.

* `WrittenMethod` is a method as it is written, together with the declaration that its mask shows:
  its literals, and so its decorators, may hold anything;
* `membersFrom_maskedMethods`: methods below each other are the members that are found, each from
  its blanks to its brace;
* `WrittenClass` is such a class with what stands above it; `WrittenClass.Sound.sourceProblems_eq`
  and `WrittenClass.Sound.exists_findClass?`: it passes the check and lists its methods in order.
-/

namespace ApiScaffold.TypeScript

/-! ### Methods as they are written -/

/-- A method as it is written in a class: the blanks in front of it, its text, and the declaration
that the mask of this text shows. -/
structure WrittenMethod where
  lead : List Char
  source : List Char
  decl : MethodDecl
  deriving DecidableEq, Repr

namespace WrittenMethod

/-- The method as it stands in a source text. -/
def text (e : WrittenMethod) : List Char := e.lead ++ e.source

/-- The mask of the method. -/
def masked (e : WrittenMethod) : List Char := e.lead ++ e.decl.text

/-- The mask of the text is a declaration that the search for members can read. -/
structure Sound (e : WrittenMethod) : Prop where
  lead : ∀ c ∈ e.lead, c = ' ' ∨ c = '\n'
  source : Piece e.source e.decl.text fun _ => True
  formed : e.decl.Formed
  legible : e.decl.Legible
  plainResult : e.decl.PlainResult

end WrittenMethod

/-- Methods below each other. -/
def textOfMethods (es : List WrittenMethod) : List Char := es.flatMap (·.text)

/-- The mask of methods below each other. -/
def maskedMethods (es : List WrittenMethod) : List Char := es.flatMap (·.masked)

/-- Methods below each other as members of a class, from an offset on. -/
def spansFrom (pos : ℕ) : List WrittenMethod → List Member
  | [] => []
  | e :: es => ⟨String.ofList e.decl.name, .method, pos, pos + e.text.length⟩ ::
      spansFrom (pos + e.text.length) es

section Methods

variable {e : WrittenMethod} {es : List WrittenMethod} {t m : List Char} {P : List Char → Prop}

/-- A piece of code is as long as its mask. -/
theorem Piece.length_eq (h : Piece t m P) (hP : P []) : m.length = t.length := by
  rw [← (h .start [] rfl hP).1, length_maskBefore]

@[simp] theorem textOfMethods_cons (e : WrittenMethod) (es : List WrittenMethod) :
    textOfMethods (e :: es) = e.text ++ textOfMethods es := rfl

@[simp] theorem maskedMethods_cons (e : WrittenMethod) (es : List WrittenMethod) :
    maskedMethods (e :: es) = e.masked ++ maskedMethods es := rfl

namespace WrittenMethod.Sound

theorem lead_blank (h : e.Sound) : ∀ c ∈ e.lead, Text.isBlank c = true := by
  intro c hc
  rcases h.lead c hc with rfl | rfl <;> decide

theorem piece (h : e.Sound) : Piece e.text e.masked fun _ => True := by
  have hlead : Piece e.lead e.lead fun _ => True := by
    refine .of_plain fun c hc => ?_
    rcases h.lead c hc with rfl | rfl <;> decide
  exact hlead.append h.source fun _ _ => trivial

theorem length_masked (h : e.Sound) : e.masked.length = e.text.length := h.piece.length_eq trivial

end WrittenMethod.Sound

theorem Decorator.AllFormed.balanced {r : List Char} {ds : List Decorator}
    (h : Decorator.AllFormed r ds) : Balanced (Decorator.textOf ds) := by
  induction ds with
  | nil => exact .nil
  | cons d ds ih =>
    obtain ⟨hd, hds⟩ := h
    have hblank : ∀ {gap : List Char}, (∀ c ∈ gap, Text.isBlank c = true) → Balanced gap :=
      fun hgap => .of_plain fun c hc => isBracket_of_isBlank (hgap c hc)
    have hname : Balanced d.name := .of_plain fun c hc =>
      isBracket_of_class (p := isDecoratorChar) (List.all_iff_forall_prop.1 (by decide))
        (hd.name c hc)
    have hcall : Balanced (Decorator.callText d.call) := by
      cases hcall : d.call with
      | none => exact .nil
      | some p => exact (hblank (hd.lead p hcall)).append (.pair rfl (hd.args p hcall) .nil)
    rw [Decorator.textOf_cons]
    exact (Balanced.plain (by decide) (hname.append (hcall.append (hblank hd.gap)))).append (ih hds)

theorem MethodDecl.Formed.balanced {d : MethodDecl} (h : d.Formed) : Balanced d.text :=
  (h.decorators.balanced.append (h.balanced_header.append (.pair rfl h.params .nil))).append
    (h.result.append (.pair rfl h.body .nil))

theorem WrittenMethod.Sound.balanced (h : e.Sound) : Balanced e.masked :=
  .append (.of_plain fun c hc => isBracket_of_isBlank (h.lead_blank c hc)) h.formed.balanced

theorem piece_textOfMethods (h : ∀ e ∈ es, e.Sound) :
    Piece (textOfMethods es) (maskedMethods es) fun _ => True := by
  induction es with
  | nil => exact .nil
  | cons e es ih =>
    exact (h e List.mem_cons_self).piece.append (ih fun k hk => h k (List.mem_cons_of_mem e hk))
      fun _ _ => trivial

theorem balanced_maskedMethods (h : ∀ e ∈ es, e.Sound) : Balanced (maskedMethods es) := by
  induction es with
  | nil => exact .nil
  | cons e es ih =>
    exact (h e List.mem_cons_self).balanced.append (ih fun k hk => h k (List.mem_cons_of_mem e hk))

/-- One step of the search for members: it passes over a method. -/
theorem WrittenMethod.Sound.membersFrom_eq (h : e.Sound) {rest tail : List Char}
    (hrest : Balanced rest) {steps : ℕ} (hsteps : (e.masked ++ rest).length ≤ steps) (pos : ℕ) :
    membersFrom (steps + 1) pos (e.masked ++ rest).length (e.masked ++ rest ++ tail) =
      ⟨String.ofList e.decl.name, .method, pos, pos + e.text.length⟩ ::
        membersFrom steps (pos + e.text.length) rest.length (rest ++ tail) := by
  obtain ⟨size, hfound, -, hsize⟩ := h.formed.exists_foundAs h.legible rest tail
  obtain rfl := hsize.2 h.plainResult
  have hsplit : e.masked ++ rest = e.lead ++ (e.decl.text ++ rest) := by simp [masked]
  have hmember := hfound e.lead steps pos h.lead_blank (by rwa [← hsplit])
  rw [← hsplit, Nat.add_assoc, ← List.length_append, ← masked, h.length_masked] at hmember
  obtain ⟨c, cs, hcs, hblank, hsemicolon⟩ := h.formed.exists_text rest
  rcases (h.balanced.append hrest).membersFrom_cases steps pos tail with ⟨hnone, -⟩ |
    ⟨gap, behind, heq, hgap, -, -⟩ | ⟨span, behind, heq, -, -, -, hstop, hlater⟩
  · -- the declaration is not blank
    rw [hnone c (by rw [hsplit, hcs]; simp)] at hblank
    cases hblank
  · -- nor does it begin with a semicolon
    obtain ⟨pre, hlead, -⟩ := exists_behind_semicolon hblank hsemicolon hgap
      (by rw [← hcs, ← hsplit, heq])
    exact absurd (h.lead_blank ';' (by simp [hlead])) (by decide)
  · rw [hmember] at hstop hlater
    have hlen : span.length = e.masked.length := by
      rw [h.length_masked]
      exact (Nat.add_left_cancel hstop).symm
    obtain ⟨rfl, rfl⟩ := List.append_inj heq.symm hlen
    rwa [h.length_masked] at hlater

/-- **Methods below each other are the members that are found,** each from its blanks to its
brace. -/
theorem membersFrom_maskedMethods (h : ∀ e ∈ es, e.Sound) {gap tail : List Char}
    (hgap : ∀ c ∈ gap, Text.isBlank c = true) {steps : ℕ}
    (hsteps : (maskedMethods es ++ gap).length < steps) (pos : ℕ) :
    membersFrom steps pos (maskedMethods es ++ gap).length (maskedMethods es ++ gap ++ tail) =
      spansFrom pos es := by
  induction es generalizing steps pos with
  | nil => exact membersFrom_blank hgap steps pos tail
  | cons e es ih =>
    have he := h e List.mem_cons_self
    have hes : ∀ k ∈ es, k.Sound := fun k hk => h k (List.mem_cons_of_mem e hk)
    have hrest : Balanced (maskedMethods es ++ gap) :=
      (balanced_maskedMethods hes).append (.of_plain fun c hc => isBracket_of_isBlank (hgap c hc))
    have hpos : 0 < e.masked.length := by
      simp [WrittenMethod.masked, MethodDecl.text, MethodDecl.tail]
    rw [maskedMethods_cons, List.append_assoc] at hsteps ⊢
    obtain ⟨steps, rfl⟩ := Nat.exists_eq_add_one_of_ne_zero (Nat.ne_zero_of_lt hsteps)
    rw [he.membersFrom_eq hrest (Nat.le_of_lt_succ hsteps), ih hes, spansFrom]
    rw [List.length_append] at hsteps
    omega

/-- A member is read as a method if it has its name and its span holds the text of the method, and
in the mask its declaration. -/
structure WrittenMethod.ReadAs (source : List Char) (e : WrittenMethod) (m : Member) : Prop where
  name : m.name = String.ofList e.decl.name
  kind : m.kind = .method
  text : source.extract m.start m.stop = e.text
  masked : (mask source).extract m.start m.stop = e.masked

/-- The spans of methods below each other hold these methods. -/
theorem forall₂_spansFrom (h : ∀ e ∈ es, e.Sound) {source before shown after after' : List Char}
    (hsource : source = before ++ (textOfMethods es ++ after))
    (hmask : mask source = shown ++ (maskedMethods es ++ after'))
    (hlength : shown.length = before.length) :
    List.Forall₂ (WrittenMethod.ReadAs source) es (spansFrom before.length es) := by
  induction es generalizing before shown with
  | nil => exact .nil
  | cons e es ih =>
    have he := h e List.mem_cons_self
    rw [textOfMethods_cons, List.append_assoc] at hsource
    rw [maskedMethods_cons, List.append_assoc] at hmask
    have hrest : List.Forall₂ (WrittenMethod.ReadAs source) es
        (spansFrom (before ++ e.text).length es) :=
      ih (fun k hk => h k (List.mem_cons_of_mem e hk)) (by rw [hsource, List.append_assoc])
        (hmask.trans (List.append_assoc ..).symm)
        (by rw [List.length_append, List.length_append, hlength, he.length_masked])
    rw [List.length_append] at hrest
    refine .cons ⟨rfl, rfl, ?_, ?_⟩ hrest
    · rw [hsource, extract_append]
    · rw [hmask, ← hlength, ← he.length_masked, extract_append]

end Methods

/-! ### Classes as they are written -/

/-- A class as it is written: what stands above its keyword, what the mask shows of this, its name,
and its methods. -/
structure WrittenClass where
  above : List Char
  shown : List Char
  name : List Char
  methods : List WrittenMethod
  deriving DecidableEq, Repr

namespace WrittenClass

/-- The class with a text in place of its members, below another. -/
def frame (k : WrittenClass) (above members : List Char) : List Char :=
  above ++ ("class ".toList ++ (k.name ++ (' ' :: '\x7b' :: (members ++ fileEnd))))

/-- The text of the class, with what stands above it. -/
def text (k : WrittenClass) : List Char := k.frame k.above (textOfMethods k.methods)

/-- The mask of the text. -/
def masked (k : WrittenClass) : List Char := k.frame k.shown (maskedMethods k.methods)

/-- The place of the opening brace. -/
def opening (k : WrittenClass) : ℕ := k.above.length + 6 + k.name.length + 1

/-- What stands above the class is complete and does not declare it, and its methods can be read. -/
structure Sound (k : WrittenClass) : Prop where
  above : Piece k.above k.shown fun _ => True
  balanced : Balanced k.shown
  silent : ∀ r, Silent k.name k.shown r
  boundary : k.shown.getLast?.any Text.isWordChar = false
  name : IsWord k.name
  name_ne : k.name ≠ []
  methods : ∀ e ∈ k.methods, e.Sound

end WrittenClass

namespace WrittenClass.Sound

variable {k : WrittenClass}

theorem piece (h : k.Sound) : Piece k.text k.masked fun _ => True := by
  have hkeyword : Piece "class ".toList "class ".toList fun _ => True := .of_all (by decide)
  have hname : Piece k.name k.name fun _ => True := .of_plain fun c hc =>
    isPlainCode_of_isHeaderChar (isHeaderChar_of_isWordChar (h.name c hc))
  have hopen : Piece [' ', '\x7b'] [' ', '\x7b'] fun _ => True := .of_all (by decide)
  have hend : Piece fileEnd fileEnd fun _ => True := .of_all (by decide)
  have hbody := hopen.append ((piece_textOfMethods h.methods).append hend fun _ _ => trivial)
    fun _ _ => trivial
  exact h.above.append (hkeyword.append (hname.append hbody fun _ _ => trivial) fun _ _ => trivial)
    fun _ _ => trivial

theorem mask_text (h : k.Sound) : mask k.text = k.masked := h.piece.mask_eq trivial

theorem length_shown (h : k.Sound) : k.shown.length = k.above.length := h.above.length_eq trivial

theorem balanced_inside (h : k.Sound) : Balanced (maskedMethods k.methods ++ ['\n']) :=
  (balanced_maskedMethods h.methods).append (.plain (by decide) .nil)

theorem balanced_masked (h : k.Sound) : Balanced k.masked := by
  have hkeyword : Balanced "class ".toList := .of_plain (List.all_iff_forall_prop.1 (by decide))
  have hname : Balanced k.name := .of_plain fun c hc =>
    isBracket_of_isHeaderChar (isHeaderChar_of_isWordChar (h.name c hc))
  have hbody : Balanced
      (' ' :: '\x7b' :: (maskedMethods k.methods ++ ['\n'] ++ '\x7d' :: ['\n'])) :=
    .plain (by decide) (.pair rfl h.balanced_inside (.plain (by decide) .nil))
  have hall := h.balanced.append (hkeyword.append (hname.append hbody))
  simpa [masked, frame, fileEnd] using hall

/-- The search for the class stops behind its name. -/
theorem declarationEnd?_eq (h : k.Sound) :
    declarationEnd? k.name none k.masked = some (k.opening - 1) := by
  have hbefore : (k.shown.getLast?.or none).any Text.isWordChar = false := by
    rw [Option.or_none]
    exact h.boundary
  have hfound := declarationHere?_class h.name_ne h.name hbefore
    (r := ' ' :: '\x7b' :: (maskedMethods k.methods ++ fileEnd)) rfl
  rw [masked, frame, ((h.silent _).quiet _).declarationEnd?_append]
  rw [show "class ".toList = 'c' :: "lass ".toList from rfl, List.cons_append] at hfound ⊢
  rw [declarationEnd?, hfound, Option.map_some, opening, h.length_shown]
  congr 1
  omega

/-- **Such a text passes the check.** -/
theorem sourceProblems_eq (h : k.Sound) {name : String} (hname : k.name = name.toList) :
    sourceProblems k.text (some name) = [] := by
  exact h.piece.sourceProblems_eq_nil (balanced_iff.1 h.balanced_masked)
    (hname ▸ h.declarationEnd?_eq)

/-- **The class is found, and its members are its methods in order.** -/
theorem exists_findClass? (h : k.Sound) {name : String} (hname : k.name = name.toList) :
    ∃ body, findClass? k.text name = some body ∧
      List.Forall₂ (WrittenMethod.ReadAs k.text) k.methods body.members := by
  have hdeclared : declarationEnd? name.toList none k.masked = some (k.opening - 1) := by
    rw [← hname, h.declarationEnd?_eq]
  have hsplit : k.masked = k.shown ++ ("class ".toList ++ k.name) ++
      ([' '] ++ '\x7b' :: (maskedMethods k.methods ++ ['\n'] ++ '\x7d' :: ['\n'])) := by
    simp [masked, frame, fileEnd]
  have hlength : (k.shown ++ ("class ".toList ++ k.name)).length = k.opening - 1 := by
    simp [h.length_shown, opening]
    omega
  have hdrop : k.masked.drop (k.opening - 1) =
      [' '] ++ '\x7b' :: (maskedMethods k.methods ++ ['\n'] ++ '\x7d' :: ['\n']) := by
    rw [hsplit, ← hlength, List.drop_left]
  obtain ⟨body, hbody, hopening, hclosing⟩ :=
    exists_findBody? hdeclared hdrop (by decide) h.balanced_inside
  have hplace : k.opening - 1 + [' '].length = k.opening := by
    rw [opening, List.length_singleton]
    omega
  rw [hplace] at hopening hclosing
  have hinside : k.masked.drop (k.opening + 1) =
      maskedMethods k.methods ++ ['\n'] ++ '\x7d' :: ['\n'] := by
    rw [show k.opening + 1 = k.opening - 1 + 2 by rw [opening]; omega, ← List.drop_drop, hdrop]
    rfl
  refine ⟨body, by rw [findClass?, h.mask_text, hbody], ?_⟩
  obtain ⟨size, -, -, -, hsize, hmembers⟩ := findBody?_cases hbody
  have hsize : size = (maskedMethods k.methods ++ ['\n']).length + 1 := by omega
  rw [hmembers, hopening, hinside, hsize, Nat.add_sub_cancel,
    membersFrom_maskedMethods h.methods (List.forall_mem_singleton.2 rfl) (Nat.lt_succ_self _)]
  have hhead : ∀ xs members : List Char, k.frame xs members =
      (xs ++ ("class ".toList ++ (k.name ++ [' ', '\x7b']))) ++ (members ++ fileEnd) :=
    fun xs members => by simp [frame]
  have hopening : k.opening + 1 =
      (k.above ++ ("class ".toList ++ (k.name ++ [' ', '\x7b']))).length := by
    simp [opening]
    omega
  rw [hopening]
  refine forall₂_spansFrom h.methods (hhead _ _) (by rw [h.mask_text, masked, hhead]) ?_
  simp only [List.length_append, h.length_shown]

end WrittenClass.Sound

end ApiScaffold.TypeScript
