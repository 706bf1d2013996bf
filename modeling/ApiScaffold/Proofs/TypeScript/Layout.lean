import ApiScaffold.Proofs.TypeScript.ImportLines

/-!
# The layout of a service file

A service file holds import lines, an empty line, and a decorated class whose members are methods
below each other.

* `Layout` is such a file, with its text and its mask;
* `Layout.Sound.sourceProblems_eq_nil`: it passes the check;
* `Layout.Sound.findClass?_eq`: its class is found, and the members are its methods in order;
* `Layout.Sound.importInsertionPoint_eq`: new imports go below the last import line, whatever the
  bodies of the methods hold.
-/

namespace ApiScaffold.TypeScript

/-- A complete text passes the check if its mask is balanced and declares the class. -/
theorem Piece.sourceProblems_eq_nil {t m : List Char} (h : Piece t m fun _ => True)
    (hbrackets : bracketProblems [] 1 m = []) {name : String} {e : ℕ}
    (hdeclared : declarationEnd? name.toList none m = some e) :
    sourceProblems t (some name) = [] := by
  have hdeclares : declaresClass name (mask t) = true := by
    rw [declaresClass, h.mask_eq trivial, hdeclared]
    rfl
  rw [sourceProblems, balanceProblems, h.literalProblems_eq_nil trivial, h.mask_eq trivial,
    hbrackets, ← h.mask_eq trivial, if_pos (Or.inr hdeclares)]
  rfl

/-- A service file. -/
structure Layout where
  imports : List ImportText
  className : List Char
  methods : List MethodText
  deriving DecidableEq, Repr

/-- What stands between the last import line and the keyword of the class. -/
def decoration : List Char := "\n@Service()\nexport ".toList

/-- The end of a service file. -/
def fileEnd : List Char := ['\n', '\x7d', '\n']

namespace Layout

/-- What stands in front of the opening brace of the class, below the imports. -/
def header (l : Layout) : List Char := decoration ++ ("class ".toList ++ (l.className ++ [' ']))

/-- The file with given import lines and members. -/
def frame (l : Layout) (lines members : List Char) : List Char :=
  lines ++ (l.header ++ '\x7b' :: (members ++ fileEnd))

/-- The text of the file. -/
def text (l : Layout) : List Char := l.frame (linesOf l.imports) (textOf l.methods)

/-- The mask of the file. -/
def masked (l : Layout) : List Char := l.frame (maskedLines l.imports) (maskedOf l.methods)

/-- The place of the opening brace of the class. -/
def opening (l : Layout) : ℕ := (linesOf l.imports).length + l.header.length

/-- The class of the file. -/
def classBody (l : Layout) : ClassBody :=
  { name := String.ofList l.className
    opening := l.opening
    closing := l.opening + ((textOf l.methods).length + 2)
    members := membersAt (l.opening + 1) l.methods }

/-- The parts of the file are what they should be, and it imports something. -/
structure Sound (l : Layout) : Prop where
  imports : ∀ i ∈ l.imports, i.Sound
  imports_ne : l.imports ≠ []
  className : IsWord l.className
  className_ne : l.className ≠ []
  methods : ∀ e ∈ l.methods, e.Sound

end Layout

variable {l : Layout}

namespace Layout.Sound

theorem header_eq (l : Layout) :
    l.header = decoration ++ ("class ".toList ++ (l.className ++ [' '])) := rfl

theorem className_header (h : l.Sound) : ∀ c ∈ l.className, isHeaderChar c = true :=
  fun c hc => isHeaderChar_of_isWordChar (h.className c hc)

/-! ### The check -/

theorem header_plain (h : l.Sound) : ∀ c ∈ l.header, isPlainCode c = true := by
  have hdecoration : ∀ c ∈ decoration, isPlainCode c = true :=
    List.all_eq_true.1 (by decide)
  have hkeyword : ∀ c ∈ "class ".toList, isPlainCode c = true :=
    List.all_eq_true.1 (by decide)
  intro c hc
  simp only [header_eq, List.mem_append, List.mem_singleton] at hc
  rcases hc with hc | hc | hc | rfl
  · exact hdecoration c hc
  · exact hkeyword c hc
  · exact isPlainCode_of_isHeaderChar (h.className_header c hc)
  · decide

theorem piece (h : l.Sound) : Piece l.text l.masked fun _ => True := by
  have hopen : ∀ c ∈ l.header ++ ['\x7b'], isPlainCode c = true := by
    intro c hc
    rcases List.mem_append.1 hc with hc | hc
    · exact h.header_plain c hc
    · rw [List.mem_singleton.1 hc]
      decide
  have hend : Piece fileEnd fileEnd fun _ => True := .of_all (by decide)
  have hmembers : Piece (textOf l.methods ++ fileEnd) (maskedOf l.methods ++ fileEnd)
      fun _ => True :=
    (piece_textOf h.methods).append hend fun r _ => ⟨_, rfl⟩
  have hclass := (Piece.of_plain (P := fun _ => True) hopen).append hmembers fun _ _ => trivial
  have hall := (piece_linesOf h.imports).append hclass fun _ _ => trivial
  simpa [text, masked, frame] using hall

theorem mask_text (h : l.Sound) : mask l.text = l.masked := h.piece.mask_eq trivial

theorem neutral (h : l.Sound) : Neutral l.masked := by
  have hdecoration : Neutral decoration := by
    have hparens : Neutral ('(' :: ([] ++ [')'])) := Neutral.nil.round
    have hfront : Neutral "\n@Service".toList := .of_all (by decide)
    have hback : Neutral "\nexport ".toList := .of_all (by decide)
    exact hfront.append (hparens.append hback)
  have hkeyword : Neutral "class ".toList := .of_all (by decide)
  have hname : Neutral l.className :=
    .of_plain fun c hc => isBracket_of_isHeaderChar (h.className_header c hc)
  have hspace : Neutral [' '] := .of_all (by decide)
  have hbreak : Neutral ['\n'] := .of_all (by decide)
  have hbody : Neutral ('\x7b' :: ((maskedOf l.methods ++ ['\n']) ++ ['\x7d'])) :=
    ((neutral_maskedOf h.methods).append hbreak).braces
  have hheader := hdecoration.append (hkeyword.append (hname.append hspace))
  have hall := (neutral_maskedLines h.imports).append (hheader.append (hbody.append hbreak))
  simpa [masked, frame, header_eq, fileEnd] using hall

/-- No line of the file ends with a carriage return. -/
theorem return_notMem (h : l.Sound) : '\r' ∉ l.text := by
  have hconstant : '\r' ∉ decoration ++ "class ".toList ++ fileEnd := by decide
  simp only [List.mem_append, not_or] at hconstant
  intro hmem
  simp only [text, frame, header_eq, List.mem_append, List.mem_cons, List.not_mem_nil,
    or_false] at hmem
  rcases hmem with hc | (hc | hc | hc | hc) | hc | hc | hc
  · obtain ⟨i, hi, hc⟩ := List.mem_flatMap.1 hc
    exact (h.imports i hi).return_notMem hc
  · exact hconstant.1.1 hc
  · exact hconstant.1.2 hc
  · exact h.className.notMem (by decide) hc
  · exact absurd hc (by decide)
  · exact absurd hc (by decide)
  · obtain ⟨e, he, hc⟩ := List.mem_flatMap.1 hc
    exact (h.methods e he).return_notMem hc
  · exact hconstant.2 hc

/-! ### The class -/

theorem silent_above (h : l.Sound) (r : List Char) :
    Silent l.className (maskedLines l.imports ++ decoration) ("class ".toList ++ r) := by
  have hdecoration : Silent l.className decoration ("class ".toList ++ r) := by
    have hword : Silent l.className "Service".toList
        ("()\nexport ".toList ++ ("class ".toList ++ r)) :=
      Silent.of_word h.className_ne h.className (by decide) rfl
        (.of_head (by decide) (by decide) _)
    have hfront : ∀ r, Silent l.className "\n@".toList r := fun _ => .of_notMem (by decide)
    have hback : ∀ r, Silent l.className "()\nexport ".toList r := fun _ => .of_notMem (by decide)
    exact (hfront _).append (hword.append (hback _))
  exact (silent_maskedLines h.imports h.className_ne h.className _).append hdecoration

/-- The mask with the keyword of the class in sight. -/
theorem masked_eq (l : Layout) : l.masked = (maskedLines l.imports ++ decoration) ++
    ("class ".toList ++ (l.className ++ (' ' :: '\x7b' :: (maskedOf l.methods ++ fileEnd)))) := by
  simp [masked, frame, header_eq]

theorem getLast?_above (l : Layout) :
    (maskedLines l.imports ++ decoration).getLast?.or none = some ' ' := by
  rw [List.getLast?_append]
  rfl

theorem declarationHere?_eq (h : l.Sound) :
    declarationHere? l.className (some ' ') ("class ".toList ++
        (l.className ++ (' ' :: '\x7b' :: (maskedOf l.methods ++ fileEnd)))) =
      some (6 + l.className.length) :=
  declarationHere?_class h.className_ne h.className rfl rfl

theorem declarationEnd?_eq (h : l.Sound) :
    declarationEnd? l.className none l.masked = some (l.opening - 1) := by
  have hfound := h.declarationHere?_eq
  rw [masked_eq, ((h.silent_above _).quiet _).declarationEnd?_append, getLast?_above]
  have hopening : l.opening =
      6 + l.className.length + (maskedLines l.imports ++ decoration).length + 1 := by
    simp [opening, header_eq]
    omega
  rw [show "class ".toList = 'c' :: "lass ".toList from rfl, List.cons_append] at hfound ⊢
  rw [declarationEnd?, hfound, hopening]
  rfl

theorem keywordOffset?_eq (h : l.Sound) :
    keywordOffset? l.className none l.masked =
      some ((linesOf l.imports).length + decoration.length) := by
  have hfound := h.declarationHere?_eq
  rw [masked_eq, ((h.silent_above _).quiet _).keywordOffset?_append, getLast?_above]
  rw [show "class ".toList = 'c' :: "lass ".toList from rfl, List.cons_append] at hfound ⊢
  rw [keywordOffset?, hfound]
  simp

/-- **Such a file passes the check.** -/
theorem sourceProblems_eq_nil (h : l.Sound) {name : String} (hname : l.className = name.toList) :
    sourceProblems l.text (some name) = [] := by
  have hbrackets : bracketProblems [] 1 l.masked = [] :=
    bracketProblems_eq_nil_iff.2 (h.neutral.stack [])
  exact h.piece.sourceProblems_eq_nil hbrackets (hname ▸ h.declarationEnd?_eq)

/-- The brace of the class closes behind its members. -/
theorem closingFrom_members (h : l.Sound) :
    closingFrom '\x7b' '\x7d' 1 (maskedOf l.methods ++ fileEnd) =
      some ((textOf l.methods).length + 1) := by
  rw [(neutral_maskedOf h.methods).closing 1 _ le_rfl, length_maskedOf]
  simp [fileEnd, closingFrom]
  omega

/-- The mask from the opening brace of the class on. -/
theorem drop_opening (l : Layout) :
    l.masked.drop l.opening = '\x7b' :: (maskedOf l.methods ++ fileEnd) := by
  have hsplit : l.masked =
      (maskedLines l.imports ++ l.header) ++ '\x7b' :: (maskedOf l.methods ++ fileEnd) := by
    simp [masked, frame]
  have hlen : (maskedLines l.imports ++ l.header).length = l.opening := by simp [opening]
  rw [hsplit, ← hlen, List.drop_left]

/-- The mask from the end of the name of the class on. -/
theorem drop_name (l : Layout) :
    l.masked.drop (l.opening - 1) = ' ' :: '\x7b' :: (maskedOf l.methods ++ fileEnd) := by
  have hsplit : l.masked =
      (maskedLines l.imports ++ (decoration ++ ("class ".toList ++ l.className))) ++
        ' ' :: '\x7b' :: (maskedOf l.methods ++ fileEnd) := by
    simp [masked, frame, header_eq]
  have hlen : (maskedLines l.imports ++
      (decoration ++ ("class ".toList ++ l.className))).length = l.opening - 1 := by
    simp [opening, header_eq]
    omega
  rw [hsplit, ← hlen, List.drop_left]

/-- **The class is found, and its members are the methods.** -/
theorem findClass?_eq (h : l.Sound) {name : String} (hname : l.className = name.toList) :
    findClass? l.text name = some l.classBody := by
  have hofList : String.ofList l.className = name := by rw [hname, String.ofList_toList]
  have hpos : 0 < l.opening := by simp [opening, header_eq]
  have hgap : openingOffset? (' ' :: '\x7b' :: (maskedOf l.methods ++ fileEnd)) = some 1 := by
    simp [openingOffset?, List.findIdx?_cons]
  have hclosing : closingOffset? ('\x7b' :: (maskedOf l.methods ++ fileEnd)) =
      some ((textOf l.methods).length + 2) := by
    simp [closingOffset?, closerOf?, h.closingFrom_members]
  have hdropBody : l.masked.drop (l.opening + 1) = maskedOf l.methods ++ fileEnd := by
    rw [← List.drop_drop, drop_opening]
    rfl
  have hsteps : l.methods.length ≤ (textOf l.methods).length + 1 + 1 := by
    have := length_le_textOf l.methods
    omega
  have hmembers : membersFrom ((textOf l.methods).length + 1 + 1) (l.opening + 1)
      ((textOf l.methods).length + 1) (maskedOf l.methods ++ fileEnd) =
        membersAt (l.opening + 1) l.methods :=
    membersFrom_maskedOf h.methods hsteps _ (by decide)
  unfold findClass? findBody?
  simp only [← hname, h.mask_text, h.declarationEnd?_eq, Option.bind_eq_bind, Option.bind_some,
    drop_name, hgap, Nat.sub_add_cancel hpos, drop_opening, hclosing, hdropBody]
  rw [show (textOf l.methods).length + 2 - 1 = (textOf l.methods).length + 1 by omega, hmembers,
    classBody, hofList]
  rfl

/-! ### Import declarations -/

/-- No import declaration begins in front of the class. -/
theorem lastDeclarationEnd_header (h : l.Sound) (found pos : ℕ) (r : List Char) :
    lastDeclarationEnd found pos 0 true 0 (l.header ++ '\x7b' :: r) =
      lastDeclarationEnd found (pos + l.header.length + 1) 1 false 0 r := by
  have hdecorator : ∀ c ∈ "Service()".toList, c ≠ '\n' ∧ c ≠ '\x7b' ∧ c ≠ '\x7d' :=
    List.all_iff_forall_prop.1 (by decide)
  have hname : ∀ c ∈ "xport class ".toList ++ (l.className ++ [' ']),
      c ≠ '\n' ∧ c ≠ '\x7b' ∧ c ≠ '\x7d' := by
    have hfront : ∀ c ∈ "xport class ".toList, c ≠ '\n' ∧ c ≠ '\x7b' ∧ c ≠ '\x7d' :=
      List.all_iff_forall_prop.1 (by decide)
    intro c hc
    simp only [List.mem_append, List.mem_singleton] at hc
    rcases hc with hc | hc | rfl
    · exact hfront c hc
    · have hne : ∀ d, Text.isWordChar d = false → c ≠ d :=
        fun d hd heq => h.className.notMem hd (heq ▸ hc)
      exact ⟨hne _ (by decide), hne _ (by decide), hne _ (by decide)⟩
    · decide
  have hsplit : l.header ++ '\x7b' :: r = '\n' :: '@' :: ("Service()".toList ++
      ('\n' :: 'e' :: (("xport class ".toList ++ (l.className ++ [' '])) ++ '\x7b' :: r))) := by
    unfold Layout.header decoration
    simp
  have hlen : l.header.length = 2 + "Service()".toList.length + 2 +
      ("xport class ".toList ++ (l.className ++ [' '])).length := by
    unfold Layout.header decoration
    simp
    omega
  -- Line by line: the empty one, that of the decorator, and that of the class.
  rw [hsplit, lastDeclarationEnd_of_none fun _ =>
      declarationLength?_lineBreak_eq_none (by decide) (by decide),
    lastDeclarationEnd_of_none fun _ => declarationLength?_cons_eq_none (by decide) (by decide),
    show ('@' == '\n') = false from rfl, lastDeclarationEnd_plain hdecorator,
    lastDeclarationEnd_of_none (by simp),
    lastDeclarationEnd_of_none fun _ => declarationLength?_cons_eq_none (by decide) (by decide),
    show ('e' == '\n') = false from rfl, lastDeclarationEnd_plain hname,
    lastDeclarationEnd_of_none (by simp), hlen]
  congr 1
  omega

/-- **New imports go below the last import line.** -/
theorem importInsertionPoint_eq (h : l.Sound) :
    importInsertionPoint l.text = (linesOf l.imports).length - 1 := by
  have hend : (maskedOf l.methods ++ fileEnd).drop ((textOf l.methods).length + 1 + 1) =
      ['\n'] := by
    rw [← length_maskedOf, List.drop_append, List.drop_eq_nil_of_le (by omega),
      show (maskedOf l.methods).length + 1 + 1 - (maskedOf l.methods).length = 2 by omega]
    rfl
  rw [importInsertionPoint, h.mask_text, Layout.masked, frame, lastDeclarationEnd_lines h.imports,
    if_neg h.imports_ne, Nat.zero_add, h.lastDeclarationEnd_header]
  exact lastDeclarationEnd_inside le_rfl h.closingFrom_members hend _ _ _ _

end Layout.Sound

end ApiScaffold.TypeScript
