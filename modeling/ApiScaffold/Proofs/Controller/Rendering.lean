import ApiScaffold.Proofs.Naming
import ApiScaffold.Proofs.Service.Rendering
import ApiScaffold.Proofs.TypeScript.WrittenClass
import ApiScaffold.Render.ControllerFile

/-!
# Rendered controller files

* `Spelled` says of a controller that its names are words and that its texts can stand between
  double quotation marks, whatever else they hold;
* `StandsAbove`: the import lines and the decorator of the class are complete and declare no
  class;
* `constructorMethod`, `operationMethod`, `registerMethod` are the members, each with the proof that
  its mask shows a method that can be read;
* `exists_writtenClass`: the file of a controller is a class that is written so.
-/

namespace ApiScaffold.ControllerFile

open TypeScript

/-! ### What can be rendered as it is -/

/-- A text that can stand between double quotation marks as it is. -/
structure Quotable (t : List Char) : Prop where
  quote_notMem : '\x22' ∉ t
  backslash_notMem : '\\' ∉ t
  lineBreak_notMem : '\n' ∉ t

instance instDecidableQuotable (t : List Char) : Decidable (Quotable t) :=
  decidable_of_iff ('\x22' ∉ t ∧ '\\' ∉ t ∧ '\n' ∉ t)
    ⟨fun ⟨h₁, h₂, h₃⟩ => ⟨h₁, h₂, h₃⟩, fun ⟨h₁, h₂, h₃⟩ => ⟨h₁, h₂, h₃⟩⟩

/-- The names of the controller are words, and nothing in its texts ends a string literal. -/
structure Spelled (settings : Settings) (c : Controller) : Prop where
  name : IsWord c.name.toList
  methods : ∀ m ∈ c.methods, Render.isIdentifier m.name.toList = true
  bodyTypes : ∀ m ∈ c.methods, ∀ t, m.bodyType? = some t → IsWord t.toList
  importNames : ∀ i ∈ c.imports, IsWord i.name.toList
  path : Quotable c.path.toList
  urls : ∀ m ∈ c.methods, Quotable m.url.toList
  importPaths : ∀ i ∈ c.imports, Quotable i.path.toList
  extension : Quotable settings.extension.toList
  frameworkModule : Quotable settings.frameworkModule.toList

section Texts

variable {t u : List Char}

theorem Quotable.literalText (h : Quotable t) : LiteralText '\x22' t := by
  induction t with
  | nil => exact .nil
  | cons c cs ih =>
    obtain ⟨hquote, hslash, hline⟩ := h
    rw [List.mem_cons, not_or] at hquote hslash hline
    exact .plain (Ne.symm hquote.1) (Ne.symm hslash.1) (fun heq => absurd heq (Ne.symm hline.1))
      (ih ⟨hquote.2, hslash.2, hline.2⟩)

theorem Quotable.append (ht : Quotable t) (hu : Quotable u) : Quotable (t ++ u) where
  quote_notMem := by simp [ht.quote_notMem, hu.quote_notMem]
  backslash_notMem := by simp [ht.backslash_notMem, hu.backslash_notMem]
  lineBreak_notMem := by simp [ht.lineBreak_notMem, hu.lineBreak_notMem]

/-- A part of such a text is such a text. -/
theorem Quotable.of_subset (ht : Quotable t) (h : u ⊆ t) : Quotable u :=
  ⟨fun hc => ht.quote_notMem (h hc), fun hc => ht.backslash_notMem (h hc),
    fun hc => ht.lineBreak_notMem (h hc)⟩

theorem Spelled.module {settings : Settings} {c : Controller} (h : Spelled settings c) {i : Import}
    (hi : i ∈ c.imports) : Quotable (Render.moduleOf settings i.path).toList := by
  have hpoint : Quotable ".".toList := by decide
  rw [Render.moduleOf, String.toList_append, String.toList_append]
  exact ((h.importPaths i hi).append hpoint).append h.extension

/-- A route is the end of a url, or the root. -/
theorem Quotable.methodRoute {m : Method} (h : Quotable m.url.toList) :
    Quotable (Render.methodRoute m) := by
  unfold Render.methodRoute Render.routeSuffix
  dsimp only
  split_ifs
  · decide
  · exact h.of_subset (List.drop_subset _ _)
  · decide
  · exact h

end Texts

/-! ### What stands above the class -/

/-- A text that can stand above the class `name`: it is complete, and no declaration of the class
begins in it, whatever follows. -/
def StandsAbove (name t : List Char) : Prop :=
  ∃ m, Piece t m (fun _ => True) ∧ Balanced m ∧ ∀ r, Silent name m r

namespace StandsAbove

variable {name t u : List Char}

theorem nil : StandsAbove name [] := ⟨[], .nil, .nil, fun _ => .nil⟩

theorem append (ht : StandsAbove name t) (hu : StandsAbove name u) : StandsAbove name (t ++ u) := by
  obtain ⟨m, hm, hmb, hms⟩ := ht
  obtain ⟨n, hn, hnb, hns⟩ := hu
  exact ⟨m ++ n, hm.append hn fun _ _ => trivial, hmb.append hnb,
    fun r => (hms _).append (hns r)⟩

theorem flatMap {α : Type} {f : α → List Char} {xs : List α}
    (h : ∀ x ∈ xs, StandsAbove name (f x)) : StandsAbove name (xs.flatMap f) :=
  Text.holds_flatMap nil append h

theorem of_all (h : t.all (fun c => isPlainCode c && !isBracket c && c != 'c') = true) :
    StandsAbove name t := by
  have hall : ∀ c ∈ t, (isPlainCode c = true ∧ isBracket c = false) ∧ c ≠ 'c' := fun c hc => by
    simpa using List.all_eq_true.1 h c hc
  exact ⟨t, .of_plain fun c hc => (hall c hc).1.1, .of_plain fun c hc => (hall c hc).1.2,
    fun _ => .of_notMem fun hc => (hall 'c' hc).2 rfl⟩

theorem literal (h : Quotable t) : StandsAbove name ('\x22' :: (t ++ ['\x22'])) := by
  refine ⟨_, .quoted rfl h.literalText, ?_, fun _ => .of_notMem fun hc => ?_⟩
  · exact .plain (by decide) ((SelfContained.balanced_map_blank t).append (.plain (by decide) .nil))
  · simp only [List.mem_cons, List.mem_append, List.not_mem_nil, or_false] at hc
    rcases hc with hc | hc | hc
    · exact absurd hc (by decide)
    · obtain ⟨d, -, hd⟩ := List.mem_map.1 hc
      unfold blank at hd
      split_ifs at hd <;> exact absurd hd (by decide)
    · exact absurd hc (by decide)

/-- A text between parentheses. -/
theorem round (h : StandsAbove name t) : StandsAbove name ('(' :: (t ++ [')'])) := by
  obtain ⟨m, hm, hmb, hms⟩ := h
  have hopen : Piece ['('] ['('] fun _ => True := .of_all (by decide)
  have hclose : Piece [')'] [')'] fun _ => True := .of_all (by decide)
  have hquiet : ∀ d ∈ ['(', ')'], ∀ r, Silent name [d] r := fun d hd r =>
    .of_notMem fun hc => absurd (List.mem_singleton.1 hc ▸ hd) (by decide)
  exact ⟨'(' :: (m ++ [')']), hopen.append (hm.append hclose fun _ _ => trivial) fun _ _ => trivial,
    .pair (by decide) hmb .nil,
    fun r => (hquiet '(' (by decide) _).append ((hms _).append (hquiet ')' (by decide) r))⟩

end StandsAbove

/-- What a controller imports by one name: a value, or a type in a line of values. -/
def ImportedName (n : String) : Prop :=
  IsWord n.toList ∨ ∃ w, IsWord w ∧ n.toList = "type ".toList ++ w

section ImportLines

variable {name : List Char} {n : String} {names : List String}

theorem ImportedName.isHeaderChar (h : ImportedName n) {c : Char} (hc : c ∈ n.toList) :
    isHeaderChar c = true := by
  rcases h with h | ⟨w, hw, heq⟩
  · exact isHeaderChar_of_isWordChar (h c hc)
  · have htype : ∀ c ∈ "type ".toList, TypeScript.isHeaderChar c = true :=
      List.all_eq_true.1 (by decide)
    rw [heq] at hc
    rcases List.mem_append.1 hc with hc | hc
    · exact htype c hc
    · exact isHeaderChar_of_isWordChar (hw c hc)

/-- A name in front of a comma or a brace declares no class, be it the keyword itself. -/
theorem ImportedName.silent (h : ImportedName n) (hne : name ≠ []) (hname : IsWord name)
    {r : List Char} (hhead : r.head?.any Text.isWordChar = false) (hr : NoWordAhead r) :
    Silent name n.toList r := by
  rcases h with h | ⟨w, hw, heq⟩
  · exact .of_word hne hname h hhead hr
  · have htype : Silent name "type ".toList (w ++ r) := .of_notMem (by decide)
    rw [heq]
    exact htype.append (.of_word hne hname hw hhead hr)

theorem silent_commaList (h : ∀ n ∈ names, ImportedName n) (hne : name ≠ []) (hname : IsWord name)
    (r : List Char) :
    Silent name (Text.joinWith ", ".toList (names.map String.toList)) (" \x7d".toList ++ r) := by
  induction names with
  | nil => exact .nil
  | cons n names ih =>
    have hn := h n List.mem_cons_self
    have hrest := ih fun k hk => h k (List.mem_cons_of_mem n hk)
    by_cases hnames : names = []
    · subst hnames
      have hlast : Text.joinWith ", ".toList ([n].map String.toList) = n.toList := by
        simp [Text.joinWith, List.intercalate]
      rw [hlast]
      exact hn.silent hne hname rfl (.space (.of_head (by decide) (by decide) _))
    · have hcomma : ∀ r, Silent name ", ".toList r := fun _ => .of_notMem (by decide)
      rw [List.map_cons, Text.joinWith_cons _ _ (by simpa using hnames), List.append_assoc]
      refine Silent.append ?_ ((hcomma _).append hrest)
      exact hn.silent hne hname rfl (.of_head (by decide) (by decide) _)

/-- **An import line can stand above any class.** -/
theorem standsAbove_importLine {keyword module : String} (hne : name ≠ []) (hname : IsWord name)
    (hkeyword : keyword = "import" ∨ keyword = "import type")
    (hnames : ∀ n ∈ names, ImportedName n) (hmodule : Quotable module.toList) :
    StandsAbove name (Render.importLine keyword names module) := by
  have hlist : Render.commaList names = Text.joinWith ", ".toList (names.map String.toList) := by
    rw [Render.commaList, String.toList_intercalate]
    rfl
  have hheader : ∀ c ∈ Text.joinWith ", ".toList (names.map String.toList),
      isHeaderChar c = true := by
    have hcomma : ∀ c ∈ ", ".toList, isHeaderChar c = true := List.all_eq_true.1 (by decide)
    intro c hc
    rcases Text.mem_joinWith hc with hc | ⟨l, hl, hc⟩
    · exact hcomma c hc
    · obtain ⟨n, hn, rfl⟩ := List.mem_map.1 hl
      exact (hnames n hn).isHeaderChar hc
  have hclause : StandsAbove name
      (" \x7b ".toList ++
        (Text.joinWith ", ".toList (names.map String.toList) ++ " \x7d".toList)) := by
    have hopen : Piece " \x7b ".toList " \x7b ".toList fun _ => True := .of_all (by decide)
    have hclose : Piece " \x7d".toList " \x7d".toList fun _ => True := .of_all (by decide)
    have hbetween : Piece (Text.joinWith ", ".toList (names.map String.toList)) _ fun _ => True :=
      .of_plain fun c hc => isPlainCode_of_isHeaderChar (hheader c hc)
    have hquiet : ∀ r, Silent name " \x7b ".toList r := fun _ => .of_notMem (by decide)
    have hquiet' : ∀ r, Silent name " \x7d".toList r := fun _ => .of_notMem (by decide)
    refine ⟨_, hopen.append (hbetween.append hclose fun _ _ => trivial) fun _ _ => trivial, ?_,
      fun r => (hquiet _).append ((silent_commaList hnames hne hname r).append (hquiet' r))⟩
    have hinside : Balanced
        (' ' :: (Text.joinWith ", ".toList (names.map String.toList) ++ [' '])) :=
      .plain (by decide) ((balanced_of_header hheader).append (.plain (by decide) .nil))
    have hbraces : Balanced (' ' :: '\x7b' :: _) := .plain (by decide) (.pair rfl hinside .nil)
    simpa using hbraces
  have hword : StandsAbove name keyword.toList := by
    rcases hkeyword with rfl | rfl <;> exact .of_all (by decide)
  have hfrom : StandsAbove name " from ".toList := .of_all (by decide)
  have hend : StandsAbove name [';'] := .of_all (by decide)
  have hall := hword.append
    (hclause.append (hfrom.append ((StandsAbove.literal hmodule).append hend)))
  have hbrace : " \x7d from \x22".toList = " \x7d".toList ++ (" from ".toList ++ ['\x22']) := rfl
  have hlast : "\x22;".toList = ['\x22', ';'] := rfl
  rw [Render.importLine, hlist, hbrace, hlast]
  simpa using hall

end ImportLines

/-! ### Members -/

/-- The declaration of a method without type parameters. -/
def declOf (decorators : List Decorator) (name params result body : List Char) : MethodDecl where
  decorators := decorators
  name := name
  gap := []
  typeParams := none
  params := params
  result := result
  body := body

/-- A method with an identifier and plain parameters can be read. -/
theorem declOf_readable {decorators : List Decorator} {name params result body : List Char}
    (hdecorators : Decorator.AllFormed name decorators) (hname : Render.isIdentifier name = true)
    (hparams : ∀ c ∈ params, isHeaderChar c = true)
    (hresult : result = [' '] ∨ result = ": InjectableRegistration ".toList)
    (hbody : Balanced body) :
    (declOf decorators name params result body).Formed ∧
      (declOf decorators name params result body).Legible ∧
      (declOf decorators name params result body).PlainResult := by
  obtain ⟨-, -, -, -, hchars⟩ := exists_of_isIdentifier hname
  have hheader : (declOf decorators name params result body).header = name := by
    simp [MethodDecl.header, MethodDecl.typeText, declOf]
  have hne : name ≠ [] := by
    rintro rfl
    cases hname
  have hconstant : (Balanced result ∧ (result.dropWhile Text.isBlank).head?.all (· == ':') = true) ∧
      Outside (fun _ c => ¬EndsTail c) result := by
    rcases hresult with rfl | rfl <;> decide +kernel
  refine ⟨⟨?_, hne, hchars, List.forall_mem_nil _, fun _ h => (by cases h),
    fun _ h => (by cases h), balanced_of_header hparams, hconstant.1.1, hconstant.1.2, hbody⟩,
    ⟨hname, ?_, ?_, fun _ h => (by cases h)⟩, hconstant.2⟩
  · rwa [hheader]
  · rw [hheader]
    exact fun hmem => ne_of_isIdentifierChar (hchars _ hmem) (by decide) rfl
  · rw [hheader]
    rintro u c v rfl -
    have hc : Text.isIdentifierChar c = true := hchars c (by simp)
    rintro (hc' | hc' | hc')
    · exact ne_of_isIdentifierChar hc (by decide) hc'.1
    · exact ne_of_isIdentifierChar hc (by decide) hc'
    · exact ne_of_isIdentifierChar hc (by decide) hc'.1

/-- A method that hides nothing from the mask. -/
def plainMethod (lead : List Char) (d : MethodDecl) : WrittenMethod := ⟨lead, d.text, d⟩

/-- The constructor, to which the service is given. -/
def constructorMethod (c : Controller) : WrittenMethod :=
  plainMethod ['\n', ' ', ' '] <| declOf [] "constructor".toList
    ("private readonly ".toList ++ Render.serviceField c ++ ": ".toList ++ c.serviceClass.toList)
    [' '] []

/-- The registration method. -/
def registerMethod (c : Controller) : WrittenMethod :=
  plainMethod ServiceFile.below <| declOf [] "register".toList [] ": InjectableRegistration ".toList
    (ServiceFile.registrationBody [c.serviceClass])

/-- The decorator that gives an operation its verb and its route. -/
def routeDecorator (m : Method) : List Char :=
  '@' :: m.verb.decorator.toList ++ "(\x7b description: \"\", path: \"".toList ++
    Render.methodRoute m ++ "\" \x7d)".toList

/-- What the mask shows of the arguments of the decorator. -/
def shownArguments (m : Method) : List Char :=
  "\x7b description: \"\", path: \"".toList ++ (Render.methodRoute m).map blank ++ "\" \x7d".toList

/-- The body of an operation: it hands over to the service. -/
def operationBody (c : Controller) (m : Method) : List Char :=
  "\n    return this.".toList ++ (Render.serviceField c ++ '.' :: m.name.toList) ++
    '(' :: (Render.callArguments m.bodyType? ++ ')' :: ";\n  ".toList)

/-- The declaration of an operation, as the mask shows it. -/
def operationDecl (c : Controller) (m : Method) : MethodDecl :=
  declOf [⟨m.verb.decorator.toList, some ([], shownArguments m), "\n  ".toList⟩] m.name.toList
    (Render.methodParameters "Context" m.bodyType?) [' '] (operationBody c m)

/-- What stands behind the decorator of an operation. -/
def operationRest (c : Controller) (m : Method) : List Char :=
  "\n  ".toList ++ m.name.toList ++ '(' :: (Render.methodParameters "Context" m.bodyType? ++
    ')' :: ' ' :: '\x7b' :: (operationBody c m ++ ['\x7d']))

/-- An operation. -/
def operationMethod (c : Controller) (m : Method) : WrittenMethod :=
  ⟨ServiceFile.below, routeDecorator m ++ operationRest c m, operationDecl c m⟩

/-- The members of the class. -/
def membersOf (c : Controller) : List WrittenMethod :=
  constructorMethod c :: c.methods.map (operationMethod c) ++ [registerMethod c]

section Members

variable {settings : Settings} {c : Controller} {m : Method}

theorem isWord_serviceField (c : Controller) : IsWord (Render.serviceField c) := fun _ hd =>
  Naming.isWordChar_of_isAlphanum (Naming.isAlphanum_of_mem_camelCase hd)

theorem Spelled.serviceClass (h : Spelled settings c) : IsWord c.serviceClass.toList := by
  have hsuffix : IsWord "Service".toList := by decide
  intro d hd
  rw [Controller.serviceClass, String.toList_append] at hd
  exact (List.mem_append.1 hd).elim (h.name d) (hsuffix d)

theorem sound_plainMethod {lead name params result body : List Char}
    (hlead : ∀ c ∈ lead, c = ' ' ∨ c = '\n') (hname : Render.isIdentifier name = true)
    (hparams : ∀ c ∈ params, isHeaderChar c = true)
    (hresult : result = [' '] ∨ result = ": InjectableRegistration ".toList)
    (hbody : Balanced body) (hplain : ∀ c ∈ body, isPlainCode c = true) :
    (plainMethod lead (declOf [] name params result body)).Sound := by
  have hdecorators : Decorator.AllFormed name [] := trivial
  obtain ⟨hformed, hlegible, hread⟩ := declOf_readable hdecorators hname hparams hresult hbody
  refine ⟨hlead, .of_plain fun d hd => ?_, hformed, hlegible, hread⟩
  obtain ⟨-, -, -, -, hchars⟩ := exists_of_isIdentifier hname
  have hresult : ∀ c ∈ result, isPlainCode c = true := by
    rcases hresult with rfl | rfl <;> exact List.all_eq_true.1 (by decide)
  have hd : ((((d ∈ name ∨ d = '(') ∨ d ∈ params) ∨ d = ')') ∨ d ∈ result) ∨ d = '\x7b' ∨
      d ∈ body ∨ d = '\x7d' := by
    simpa [plainMethod, declOf, MethodDecl.text, MethodDecl.front, MethodDecl.tail,
      MethodDecl.header, MethodDecl.typeText, or_assoc] using hd
  rcases hd with ((((hd | rfl) | hd) | rfl) | hd) | rfl | hd | rfl
  · exact isPlainCode_of_isHeaderChar (isHeaderChar_of_isIdentifierChar (hchars d hd))
  · decide
  · exact isPlainCode_of_isHeaderChar (hparams d hd)
  · decide
  · exact hresult d hd
  · decide
  · exact hplain d hd
  · decide

theorem sound_constructorMethod (h : Spelled settings c) : (constructorMethod c).Sound := by
  have hfront : ∀ d ∈ "private readonly ".toList ++ ": ".toList, isHeaderChar d = true :=
    List.all_eq_true.1 (by decide)
  simp only [List.mem_append] at hfront
  refine sound_plainMethod (List.all_iff_forall_prop.1 (by decide)) (by decide) (fun d hd => ?_)
    (.inl rfl) .nil (List.forall_mem_nil _)
  simp only [List.mem_append] at hd
  rcases hd with ((hd | hd) | hd) | hd
  · exact hfront d (.inl hd)
  · exact isHeaderChar_of_isWordChar (isWord_serviceField c d hd)
  · exact hfront d (.inr hd)
  · exact isHeaderChar_of_isWordChar (h.serviceClass d hd)

theorem sound_registerMethod (h : Spelled settings c) : (registerMethod c).Sound := by
  have hword : ∀ n ∈ [c.serviceClass], IsWord n.toList := by simpa using h.serviceClass
  exact sound_plainMethod ServiceFile.below_blank (by decide) (List.forall_mem_nil _) (.inr rfl)
    (balanced_of_brackets ((ServiceFile.neutral_registrationBody hword).stack []))
    (ServiceFile.plain_registrationBody hword)

theorem isWord_decorator (v : Verb) : IsWord v.decorator.toList := by
  cases v <;> decide

theorem mem_callArguments (type : Option String) :
    ∀ d ∈ Render.callArguments type, isHeaderChar d = true ∧ d ∉ ['\n', '@'] := by
  have hshort : ∀ d ∈ "context, params".toList, isHeaderChar d = true ∧ d ∉ ['\n', '@'] :=
    List.all_iff_forall_prop.1 (by decide)
  have hlong : ∀ d ∈ "context, params, body".toList, isHeaderChar d = true ∧ d ∉ ['\n', '@'] :=
    List.all_iff_forall_prop.1 (by decide)
  unfold Render.callArguments
  split
  · exact hshort
  · split_ifs
    · exact hshort
    · exact hlong

/-- The names in the body of an operation. -/
theorem isHeaderChar_of_mem_call (hname : Render.isIdentifier m.name.toList = true) :
    ∀ d ∈ Render.serviceField c ++ '.' :: m.name.toList, isHeaderChar d = true := by
  obtain ⟨-, -, -, -, hchars⟩ := exists_of_isIdentifier hname
  intro d hd
  rw [List.mem_append, List.mem_cons] at hd
  rcases hd with hd | rfl | hd
  · exact isHeaderChar_of_isWordChar (isWord_serviceField c d hd)
  · decide
  · exact isHeaderChar_of_isIdentifierChar (hchars d hd)

theorem balanced_operationBody (c : Controller)
    (hname : Render.isIdentifier m.name.toList = true) : Balanced (operationBody c m) := by
  have hreturn : Balanced "\n    return this.".toList :=
    .of_plain (List.all_iff_forall_prop.1 (by decide))
  have hend : Balanced ";\n  ".toList := .of_plain (List.all_iff_forall_prop.1 (by decide))
  have hcall : Balanced ('(' :: (Render.callArguments m.bodyType? ++ ')' :: ";\n  ".toList)) :=
    .pair (by decide) (balanced_of_header fun d hd => (mem_callArguments _ d hd).1) hend
  exact (hreturn.append (balanced_of_header (isHeaderChar_of_mem_call hname))).append hcall

/-- An operation behind its decorator holds nothing that the mask hides. -/
theorem plain_operationRest (h : Spelled settings c) (hm : m ∈ c.methods) :
    ∀ d ∈ operationRest c m, isPlainCode d = true := by
  have hname := h.methods m hm
  obtain ⟨-, -, -, -, hchars⟩ := exists_of_isIdentifier hname
  have hconstant : ∀ d ∈ "\n  ".toList ++ "\n    return this.".toList ++ ";\n  ".toList,
      isPlainCode d = true := List.all_eq_true.1 (by decide)
  simp only [List.mem_append] at hconstant
  intro d hd
  unfold operationRest operationBody at hd
  simp only [List.mem_append, List.mem_cons] at hd
  have hcall : d ∈ Render.serviceField c ∨ d = '.' ∨ d ∈ m.name.toList → isPlainCode d = true :=
    fun hd => isPlainCode_of_isHeaderChar (isHeaderChar_of_mem_call hname d (by simpa using hd))
  rcases hd with (hd | hd) | rfl | hd | rfl | rfl | rfl |
    ((hd | hd) | rfl | hd | rfl | hd) | rfl | hd
  · exact hconstant d (.inl (.inl hd))
  · exact hcall (.inr (.inr hd))
  · decide
  · exact isPlainCode_of_isHeaderChar
      (ServiceFile.isHeaderChar_of_mem_methodParameters (by decide) (h.bodyTypes m hm) hd)
  · decide
  · decide
  · decide
  · exact hconstant d (.inl (.inr hd))
  · exact hcall hd
  · decide
  · exact isPlainCode_of_isHeaderChar (mem_callArguments _ d hd).1
  · decide
  · exact hconstant d (.inr hd)
  · decide
  · cases hd

/-- A decorator shows its verb, and two literals of which only the quotation marks are left. -/
theorem piece_routeDecorator (hurl : Quotable m.url.toList) :
    Piece (routeDecorator m)
      ('@' :: (m.verb.decorator.toList ++ '(' :: (shownArguments m ++ [')']))) fun _ => True := by
  have hverb : Piece ('@' :: m.verb.decorator.toList) ('@' :: m.verb.decorator.toList)
      fun _ => True := by
    cases m.verb <;> exact .of_all (by decide)
  have hdescription : Piece "(\x7b description: ".toList "(\x7b description: ".toList
      fun _ => True := .of_all (by decide)
  have hempty : Piece ['\x22', '\x22'] ['\x22', '\x22'] fun _ => True := .quoted rfl .nil
  have hpath : Piece ", path: ".toList ", path: ".toList fun _ => True := .of_all (by decide)
  have hroute : Piece ('\x22' :: (Render.methodRoute m ++ ['\x22'])) _ fun _ => True :=
    .quoted rfl hurl.methodRoute.literalText
  have hend : Piece " \x7d)".toList " \x7d)".toList fun _ => True := .of_all (by decide)
  have hback := hempty.append (hpath.append (hroute.append hend fun _ _ => trivial)
    fun _ _ => trivial) fun _ _ => trivial
  have hall := hverb.append (hdescription.append hback fun _ _ => trivial) fun _ _ => trivial
  unfold routeDecorator shownArguments
  simpa using hall

theorem balanced_shownArguments (m : Method) : Balanced (shownArguments m) := by
  have hfront : Balanced " description: \x22\x22, path: \x22".toList :=
    .of_plain (List.all_iff_forall_prop.1 (by decide))
  have hend : Balanced "\x22 ".toList := .of_plain (List.all_iff_forall_prop.1 (by decide))
  have hroute := SelfContained.balanced_map_blank (Render.methodRoute m)
  have hinside := (hfront.append hroute).append hend
  have hbraces : Balanced ('\x7b' :: _) := .pair rfl hinside .nil
  unfold shownArguments
  simpa using hbraces

/-- What the mask shows of an operation. -/
theorem text_operationDecl (c : Controller) (m : Method) : (operationMethod c m).decl.text =
    ('@' :: (m.verb.decorator.toList ++ '(' :: (shownArguments m ++ [')']))) ++
      operationRest c m := by
  simp [operationMethod, operationDecl, operationRest, declOf, MethodDecl.text, MethodDecl.front,
    MethodDecl.tail, MethodDecl.header, MethodDecl.typeText, Decorator.text, Decorator.callText]

theorem sound_operationMethod (h : Spelled settings c) (hm : m ∈ c.methods) :
    (operationMethod c m).Sound := by
  have hname := h.methods m hm
  have hdecorators : Decorator.AllFormed m.name.toList
      [⟨m.verb.decorator.toList, some ([], shownArguments m), "\n  ".toList⟩] := by
    have hverb : ∀ d ∈ m.verb.decorator.toList, isDecoratorChar d = true := fun d hd => by
      rw [isDecoratorChar, isIdentifierChar_of_isWordChar (isWord_decorator m.verb d hd),
        Bool.true_or]
    have hgap : ∀ d ∈ "\n  ".toList, Text.isBlank d = true := List.all_iff_forall_prop.1 (by decide)
    refine ⟨⟨hverb, fun p hp => ?_, fun p hp => ?_, hgap, fun hcall => by cases hcall⟩,
      trivial⟩
    · obtain rfl := Option.some.inj hp
      exact List.forall_mem_nil _
    · obtain rfl := Option.some.inj hp
      exact balanced_shownArguments m
  have hparams : ∀ d ∈ Render.methodParameters "Context" m.bodyType?, isHeaderChar d = true :=
    fun d => ServiceFile.isHeaderChar_of_mem_methodParameters (by decide) (h.bodyTypes m hm)
  obtain ⟨hformed, hlegible, hread⟩ := declOf_readable hdecorators hname hparams (.inl rfl)
    (balanced_operationBody c hname)
  refine ⟨ServiceFile.below_blank, ?_, hformed, hlegible, hread⟩
  have hpiece := (piece_routeDecorator (h.urls m hm)).append
    (Piece.of_plain (P := fun _ => True) (plain_operationRest h hm)) fun _ _ => trivial
  rw [text_operationDecl]
  exact hpiece

theorem sound_membersOf (h : Spelled settings c) : ∀ e ∈ membersOf c, e.Sound := by
  intro e he
  rcases List.mem_append.1 he with he | he
  · rcases List.mem_cons.1 he with rfl | he
    · exact sound_constructorMethod h
    · obtain ⟨m, hm, rfl⟩ := List.mem_map.1 he
      exact sound_operationMethod h hm
  · rw [List.mem_singleton.1 he]
    exact sound_registerMethod h

/-! ### Texts -/

/-- A line that is indented. -/
theorem indent_line {l : List Char} (hne : l ≠ []) (hline : '\n' ∉ l) :
    Render.indent 1 l = ' ' :: ' ' :: l := by
  have hjoin : ∀ k : List Char, Render.joinLines [k] = k := fun k => by
    simp [Render.joinLines, Text.joinWith, List.intercalate]
  have hlines : ∀ k ∈ [l], k ≠ [] ∧ '\n' ∉ k := by simpa using ⟨hne, hline⟩
  have hindent := Render.indent_joinLines 1 hlines (by simp)
  rw [hjoin, List.map_singleton, hjoin] at hindent
  exact hindent

/-- The constructor as it is rendered. -/
theorem text_constructorMethod (h : Spelled settings c) :
    (constructorMethod c).text = '\n' :: Render.indent 1
      ("constructor(private readonly ".toList ++ Render.serviceField c ++ ": ".toList ++
        c.serviceClass.toList ++ ") \x7b\x7d".toList) := by
  have hfield : '\n' ∉ Render.serviceField c := (isWord_serviceField c).notMem (by decide)
  have hclass : '\n' ∉ c.serviceClass.toList := h.serviceClass.notMem (by decide)
  rw [indent_line (by simp) (by simp [hfield, hclass])]
  simp [constructorMethod, plainMethod, WrittenMethod.text, declOf, MethodDecl.text,
    MethodDecl.front, MethodDecl.tail, MethodDecl.header, MethodDecl.typeText]

/-- The registration method as it is rendered. -/
theorem text_registerMethod (h : Spelled settings c) :
    (registerMethod c).text =
      '\n' :: '\n' :: Render.indent 1 (Render.registerMethod [c.serviceClass]) := by
  have hword : ∀ n ∈ [c.serviceClass], IsWord n.toList := by simpa using h.serviceClass
  rw [← ServiceFile.text_registration hword]
  simp [registerMethod, plainMethod, WrittenMethod.text, declOf, MethodDecl.text, MethodDecl.front,
    MethodDecl.tail, MethodDecl.header, MethodDecl.typeText, ServiceFile.registration,
    MethodText.text, MethodText.around, MethodText.signature]

/-- An operation as it is rendered. -/
theorem text_operationMethod (h : Spelled settings c) (hm : m ∈ c.methods) :
    (operationMethod c m).text =
      '\n' :: '\n' :: Render.indent 1 (Render.controllerMethod (Render.serviceField c) m) := by
  have hname := ServiceFile.lineBreak_notMem_identifier (h.methods m hm)
  have hcontext : IsWord "Context".toList := by decide
  have hparams := ServiceFile.notMem_methodParameters (d := '\n') (by decide) (by decide) hcontext
    (h.bodyTypes m hm)
  have hfield : '\n' ∉ Render.serviceField c := (isWord_serviceField c).notMem (by decide)
  have hcall : '\n' ∉ Render.callArguments m.bodyType? := fun hmem =>
    (mem_callArguments _ _ hmem).2 (by decide)
  have hverb : '\n' ∉ m.verb.decorator.toList := (isWord_decorator m.verb).notMem (by decide)
  have hroute := (h.urls m hm).methodRoute.lineBreak_notMem
  unfold Render.controllerMethod
  rw [Render.indent_joinLines]
  · have hjoin : ∀ k l m n : List Char, Render.joinLines [k, l, m, n] =
        k ++ '\n' :: (l ++ '\n' :: (m ++ '\n' :: n)) := fun k l m n => by
      simp [Render.joinLines, Text.joinWith, List.intercalate]
    have hround : "(".toList = ['('] ∧ ");".toList = [')', ';'] ∧
        ") \x7b".toList = [')', ' ', '\x7b'] := ⟨rfl, rfl, rfl⟩
    have hgap : "\n  ".toList = ['\n', ' ', ' '] ∧ ";\n  ".toList = [';', '\n', ' ', ' '] ∧
        Render.indentation 1 = [' ', ' '] := ⟨rfl, rfl, rfl⟩
    have hreturn : "\n    return this.".toList =
        '\n' :: ' ' :: ' ' :: "  return this.".toList := rfl
    unfold operationMethod WrittenMethod.text operationRest operationBody routeDecorator
      ServiceFile.below
    simp only [List.map_cons, List.map_nil, hjoin, hround, hgap, hreturn, List.append_assoc,
      List.cons_append, List.nil_append]
  · intro l hl
    simp only [List.mem_cons, List.not_mem_nil, or_false] at hl
    rcases hl with rfl | rfl | rfl | rfl
    · simp [hverb, hroute]
    · simp [hname, hparams]
    · simp [hfield, hname, hcall]
    · simp
  · exact List.cons_ne_nil _ _

/-- The members below the opening brace. -/
theorem textOfMethods_membersOf (h : Spelled settings c) :
    textOfMethods (membersOf c) =
      '\n' :: Render.memberBlock (Render.controllerMembers c) := by
  have hne : (Render.controllerMembers c).map (Render.indent 1) ≠ [] := by
    simp [Render.controllerMembers]
  have hoperations : textOfMethods (c.methods.map (operationMethod c)) =
      (c.methods.map (Render.controllerMethod (Render.serviceField c))).flatMap
        fun t => ['\n', '\n'] ++ Render.indent 1 t := by
    unfold textOfMethods
    rw [List.flatMap_map, List.flatMap_map]
    exact List.flatMap_congr fun m hm => text_operationMethod h hm
  have hblock : '\n' :: textOfMethods (membersOf c) =
      ['\n', '\n'] ++ Render.memberBlock (Render.controllerMembers c) := by
    unfold Render.memberBlock
    rw [Text.append_joinWith _ hne, membersOf, List.cons_append, textOfMethods_cons,
      text_constructorMethod h, textOfMethods, List.flatMap_append, ← textOfMethods, hoperations,
      List.flatMap_singleton, text_registerMethod h, Render.controllerMembers]
    simp only [List.cons_append, List.map_cons, List.map_append, List.flatMap_cons,
      List.flatMap_append, List.flatMap_map, List.map_nil, List.flatMap_nil, List.append_nil,
      List.nil_append]
  exact (List.cons.inj hblock).2

end Members

/-! ### Files -/

section Files

variable {settings : Settings} {c : Controller}

/-- The name of the class. -/
def classOf (c : Controller) : List Char := (Naming.className c.name .controller).toList

/-- What stands above the keyword of the class, but for the space in front of it. -/
def aboveClass (settings : Settings) (c : Controller) : List Char :=
  (Render.controllerImportLines settings c).flatMap (· ++ ['\n']) ++ ("\n@Controller(".toList ++
    ('\x22' :: ((if c.path = "" then ['/'] else c.path.toList) ++ ['\x22']) ++
      ")\nexport".toList))

theorem isWord_classOf (h : Spelled settings c) : IsWord (classOf c) := by
  have hsuffix : IsWord "Controller".toList := by decide
  intro d hd
  rw [classOf, Naming.className, String.toList_append] at hd
  exact (List.mem_append.1 hd).elim (h.name d) (hsuffix d)

theorem classOf_ne (c : Controller) : classOf c ≠ [] := by
  simp [classOf, Naming.className, Naming.Role.suffix]

theorem importedName_frameworkNames (c : Controller) :
    ∀ n ∈ Render.frameworkNames c, ImportedName n := by
  intro n hn
  simp only [Render.frameworkNames, List.mem_append, List.mem_cons, List.mem_eraseDups,
    List.mem_map, List.not_mem_nil, or_false] at hn
  rcases hn with (rfl | ⟨m, -, rfl⟩) | rfl | rfl
  · exact .inl (by decide)
  · exact .inl (isWord_decorator m.verb)
  · exact .inr ⟨"Context".toList, by decide, by decide⟩
  · exact .inr ⟨"InjectableRegistration".toList, by decide, by decide⟩

/-- The import lines stand above any class. -/
theorem standsAbove_importLines (h : Spelled settings c) {name : List Char} (hne : name ≠ [])
    (hname : IsWord name) :
    ∀ l ∈ Render.controllerImportLines settings c, StandsAbove name l := by
  have hone : ∀ i ∈ c.imports, ∀ n ∈ [i.name], ImportedName n := fun i hi n hn => by
    obtain rfl := List.mem_singleton.1 hn
    exact .inl (h.importNames i hi)
  intro l hl
  simp only [Render.controllerImportLines, Controller.serviceImports, List.mem_append,
    List.mem_map, List.mem_filter, List.mem_singleton] at hl
  rcases hl with (⟨i, ⟨hi, -⟩, rfl⟩ | ⟨i, ⟨hi, -⟩, rfl⟩) | rfl
  · exact standsAbove_importLine hne hname (.inl rfl) (hone i hi) (h.module hi)
  · exact standsAbove_importLine hne hname (.inr rfl) (hone i hi) (h.module hi)
  · exact standsAbove_importLine hne hname (.inl rfl) (importedName_frameworkNames c)
      h.frameworkModule

theorem standsAbove_aboveClass (h : Spelled settings c) {name : List Char} (hne : name ≠ [])
    (hname : IsWord name) : StandsAbove name (aboveClass settings c) := by
  have hbreak : StandsAbove name ['\n'] := .of_all (by decide)
  have hfront : StandsAbove name "\n@Controller".toList := .of_all (by decide)
  have hback : StandsAbove name "\nexport".toList := .of_all (by decide)
  have hpath : Quotable (if c.path = "" then ['/'] else c.path.toList) := by
    split_ifs
    · decide
    · exact h.path
  have hall := (StandsAbove.flatMap fun l hl =>
    (standsAbove_importLines h hne hname l hl).append hbreak).append
      (hfront.append ((StandsAbove.literal hpath).round.append hback))
  have hopen : "\n@Controller(".toList = "\n@Controller".toList ++ ['('] := rfl
  have hclose : ")\nexport".toList = ')' :: "\nexport".toList := rfl
  unfold aboveClass
  rw [hopen, hclose]
  simpa using hall

/-- **The file of a controller is written as a class** below what stands above it. -/
theorem exists_writtenClass (h : Spelled settings c) :
    ∃ k : WrittenClass, k.Sound ∧ k.text = Render.controllerFile settings c ∧
      k.name = classOf c ∧ k.methods = membersOf c := by
  obtain ⟨shown, hpiece, hbalanced, hsilent⟩ :=
    standsAbove_aboveClass h (classOf_ne c) (isWord_classOf h)
  have hspace : Piece [' '] [' '] fun _ => True := .of_all (by decide)
  have hquiet : ∀ r, Silent (classOf c) [' '] r := fun _ => .of_notMem (by decide)
  refine ⟨⟨aboveClass settings c ++ [' '], shown ++ [' '], classOf c, membersOf c⟩,
    ⟨hpiece.append hspace fun _ _ => trivial, hbalanced.append (.plain (by decide) .nil),
      fun r => (hsilent _).append (hquiet r), ?_, isWord_classOf h, classOf_ne c,
      sound_membersOf h⟩, ?_, rfl, rfl⟩
  · rw [List.getLast?_append]
    rfl
  · unfold WrittenClass.text WrittenClass.frame Render.controllerFile Render.fileOfLines
      Render.joinLines aboveClass classOf fileEnd
    rw [textOfMethods_membersOf h, Text.joinWith_append _ (by simp), List.flatMap_append]
    simp

end Files

end ApiScaffold.ControllerFile
