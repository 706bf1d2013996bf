import ApiScaffold.Proofs.TypeScript.MethodText
import ApiScaffold.TypeScript.Import

/-!
# Import lines

* `ImportText` is an import line of a service file, with its text and its mask;
* `piece_linesOf`, `neutral_maskedLines`, `silent_maskedLines`: lines below each other are masked
  one by one, leave brackets as they are, and declare no class;
* `lastDeclarationEnd_lines`: the last of them is the last import declaration so far;
* `lastDeclarationEnd_inside`: up to the brace that closes a class nothing changes this, even if a
  line there begins with the keyword.
-/

namespace ApiScaffold.TypeScript

/-! ### Lines and their masks -/

/-- An import line, without its line break: the text between its braces, and the module. -/
structure ImportText where
  clause : List Char
  module : List Char
  deriving DecidableEq, Repr

/-- What a service file imports from the framework. -/
def frameworkClause : List Char := "Service, type InjectableRegistration".toList

namespace ImportText

/-- The line with a text between its quotation marks, and another behind the line. -/
def lineOf (i : ImportText) (module rest : List Char) : List Char :=
  "import \x7b ".toList ++ (i.clause ++ (" \x7d from ".toList ++
    ('\x22' :: (module ++ ['\x22']) ++ (";\n".toList ++ rest))))

/-- The line as it stands in a source text. -/
def text (i : ImportText) : List Char := i.lineOf i.module []

/-- The mask of the line. -/
def masked (i : ImportText) : List Char := i.lineOf (List.replicate i.module.length ' ') []

/-- The line imports one class, or what a service file takes from the framework. -/
structure Sound (i : ImportText) : Prop where
  clause : IsWord i.clause ∨ i.clause = frameworkClause
  module : ∀ c ∈ i.module, isPlainText c = true

@[simp] theorem length_masked (i : ImportText) : i.masked.length = i.text.length := by
  unfold masked text lineOf
  simp only [List.length_append, List.length_cons, List.length_replicate]

end ImportText

variable {i : ImportText} {is : List ImportText} {name : List Char}

theorem isHeaderChar_frameworkClause : ∀ c ∈ frameworkClause, isHeaderChar c = true :=
  List.all_eq_true.1 (by decide)

/-- The characters between the braces are none that the scan minds. -/
theorem ImportText.Sound.clause_header (h : i.Sound) : ∀ c ∈ i.clause, isHeaderChar c = true := by
  rcases h.clause with hword | heq
  · exact fun c hc => isHeaderChar_of_isWordChar (hword c hc)
  · rw [heq]
    exact isHeaderChar_frameworkClause

/-- The line without its line break, with a text between its quotation marks. -/
def ImportText.wordsOf (i : ImportText) (module : List Char) : List Char :=
  "import \x7b ".toList ++ (i.clause ++ (" \x7d from ".toList ++
    ('\x22' :: (module ++ ['\x22']) ++ [';'])))

theorem ImportText.lineOf_eq (i : ImportText) (module : List Char) :
    i.lineOf module [] = i.wordsOf module ++ ['\n'] := by
  have hend : ";\n".toList = [';', '\n'] := rfl
  unfold lineOf wordsOf
  rw [hend]
  simp only [List.append_assoc, List.cons_append, List.nil_append]

theorem ImportText.wordsOf_ne_nil (i : ImportText) (module : List Char) :
    i.wordsOf module ≠ [] := by
  have hkeyword : "import \x7b ".toList ≠ [] := by decide
  exact List.append_ne_nil_of_left_ne_nil hkeyword _

/-- Without its line break, an import line is a piece of code. -/
theorem ImportText.Sound.piece_wordsOf (h : i.Sound) :
    Piece (i.wordsOf i.module) (i.wordsOf (List.replicate i.module.length ' ')) fun _ => True := by
  have hclause : Piece i.clause i.clause fun _ => True :=
    .of_plain fun c hc => isPlainCode_of_isHeaderChar (h.clause_header c hc)
  have hword : Piece "import \x7b ".toList "import \x7b ".toList fun _ => True :=
    .of_all (by decide)
  have hfrom : Piece " \x7d from ".toList " \x7d from ".toList fun _ => True :=
    .of_all (by decide)
  have hmodule : Piece ('\x22' :: (i.module ++ ['\x22'])) _ fun _ => True := Piece.literal h.module
  have hend : Piece [';'] [';'] fun _ => True := .of_all (by decide)
  have hback := hfrom.append (hmodule.append hend fun _ _ => trivial) fun _ _ => trivial
  exact hword.append (hclause.append hback fun _ _ => trivial) fun _ _ => trivial

/-- An import line is a piece of code, with its line break. -/
theorem ImportText.Sound.piece (h : i.Sound) : Piece i.text i.masked fun _ => True := by
  have hbreak : Piece ['\n'] ['\n'] fun _ => True := .of_all (by decide)
  rw [text, masked, lineOf_eq, lineOf_eq]
  exact h.piece_wordsOf.append hbreak fun _ _ => trivial

theorem ImportText.Sound.neutral (h : i.Sound) : Neutral i.masked := by
  have hclause : Neutral i.clause :=
    .of_plain fun c hc => isBracket_of_isHeaderChar (h.clause_header c hc)
  have hblanks : Neutral (List.replicate i.module.length ' ') :=
    .of_plain fun c hc => by rw [List.eq_of_mem_replicate hc]; rfl
  have hspace : Neutral [' '] := .of_all (by decide)
  have hbraces : Neutral ('\x7b' :: ([' '] ++ (i.clause ++ [' ']) ++ ['\x7d'])) :=
    (hspace.append (hclause.append hspace)).braces
  have hword : Neutral "import ".toList := .of_all (by decide)
  have hfrom : Neutral " from \x22".toList := .of_all (by decide)
  have hend : Neutral "\x22;\n".toList := .of_all (by decide)
  have hall := hword.append (hbraces.append (hfrom.append (hblanks.append hend)))
  unfold ImportText.masked ImportText.lineOf
  simpa using hall

theorem ImportText.Sound.return_notMem (h : i.Sound) : '\r' ∉ i.text := by
  have hconstant : '\r' ∉ "import \x7b ".toList ++ " \x7d from ".toList ++ ";\n".toList := by
    decide
  simp only [List.mem_append, not_or] at hconstant
  intro hmem
  unfold text lineOf at hmem
  simp only [List.mem_append, List.mem_cons, List.not_mem_nil, or_false] at hmem
  rcases hmem with hc | hc | hc | (hc | hc | hc) | hc
  · exact hconstant.1.1 hc
  · exact absurd (h.clause_header _ hc) (by decide)
  · exact hconstant.1.2 hc
  · exact absurd hc (by decide)
  · exact absurd (h.module _ hc) (by decide)
  · exact absurd hc (by decide)
  · exact hconstant.2 hc

/-- Nothing in an import line declares a class. -/
theorem ImportText.Sound.silent (h : i.Sound) (hne : name ≠ []) (hname : IsWord name)
    (r : List Char) : Silent name i.masked r := by
  have hclause : ∀ r, Silent name i.clause (" \x7d from ".toList ++ r) := by
    intro r
    have hbrace : ∀ r, NoWordAhead (" \x7d from ".toList ++ r) :=
      fun _ => .space (.of_head (by decide) (by decide) _)
    rcases h.clause with hword | heq
    · exact Silent.of_word hne hname hword rfl (hbrace r)
    · have h₁ : ∀ r, Silent name "InjectableRegistration".toList (" \x7d from ".toList ++ r) :=
        fun r => Silent.of_word hne hname (by decide) rfl (hbrace r)
      have h₂ : ∀ r, Silent name ", type ".toList r := fun r => Silent.of_notMem (by decide)
      have h₃ : ∀ r, Silent name "Service".toList (", type ".toList ++ r) :=
        fun r => Silent.of_word hne hname (by decide) rfl (.of_head (by decide) (by decide) _)
      rw [heq, show frameworkClause = "Service".toList ++ (", type ".toList ++
        "InjectableRegistration".toList) from rfl]
      exact Silent.append (by rw [List.append_assoc]; exact h₃ _) ((h₂ _).append (h₁ r))
  have hmodule : ∀ r,
      Silent name ('\x22' :: (List.replicate i.module.length ' ' ++ ['\x22'])) r := by
    refine fun r => Silent.of_notMem fun hc => ?_
    simp only [List.mem_cons, List.mem_append, List.not_mem_nil, or_false] at hc
    rcases hc with hc | hc | hc
    · exact absurd hc (by decide)
    · exact absurd (List.eq_of_mem_replicate hc) (by decide)
    · exact absurd hc (by decide)
  have hend : ∀ r, Silent name (";\n".toList ++ []) r := fun r => Silent.of_notMem (by decide)
  have hfrom : ∀ r, Silent name " \x7d from ".toList r := fun r => Silent.of_notMem (by decide)
  have hword : ∀ r, Silent name "import \x7b ".toList r := fun r => Silent.of_notMem (by decide)
  refine (hword _).append (Silent.append ?_ ((hfrom _).append ((hmodule _).append (hend r))))
  rw [List.append_assoc]
  exact hclause _

/-- Import lines below each other. -/
def linesOf (is : List ImportText) : List Char := is.flatMap (·.text)

/-- The mask of import lines below each other. -/
def maskedLines (is : List ImportText) : List Char := is.flatMap (·.masked)

@[simp] theorem linesOf_nil : linesOf [] = [] := rfl

@[simp] theorem linesOf_cons (i : ImportText) (is : List ImportText) :
    linesOf (i :: is) = i.text ++ linesOf is := rfl

@[simp] theorem maskedLines_cons (i : ImportText) (is : List ImportText) :
    maskedLines (i :: is) = i.masked ++ maskedLines is := rfl

@[simp] theorem linesOf_append (is js : List ImportText) :
    linesOf (is ++ js) = linesOf is ++ linesOf js := List.flatMap_append

@[simp] theorem length_maskedLines (is : List ImportText) :
    (maskedLines is).length = (linesOf is).length := by
  induction is with
  | nil => rfl
  | cons i is ih => simp [ih]

theorem piece_linesOf (h : ∀ i ∈ is, i.Sound) :
    Piece (linesOf is) (maskedLines is) fun _ => True := by
  induction is with
  | nil => exact Piece.nil
  | cons i is ih =>
    exact (h i (List.mem_cons_self ..)).piece.append
      (ih fun i hi => h i (List.mem_cons_of_mem _ hi)) fun _ _ => trivial

/-- Without the last line break, import lines below each other are a piece of code too. -/
theorem exists_linesOf_eq (h : ∀ i ∈ is, i.Sound) (hne : is ≠ []) :
    ∃ u m, u ≠ [] ∧ linesOf is = u ++ ['\n'] ∧ maskedLines is = m ++ ['\n'] ∧
      Piece u m fun _ => True := by
  obtain ⟨js, i, rfl⟩ := (List.eq_nil_or_concat is).resolve_left hne
  rw [List.concat_eq_append] at h ⊢
  have hi := h i (by simp)
  refine ⟨linesOf js ++ i.wordsOf i.module, maskedLines js ++ i.wordsOf _,
    List.append_ne_nil_of_right_ne_nil _ (i.wordsOf_ne_nil _), ?_, ?_,
    (piece_linesOf fun j hj => h j (by simp [hj])).append hi.piece_wordsOf fun _ _ => trivial⟩
  · rw [linesOf_append, linesOf_cons, linesOf_nil, List.append_nil, ImportText.text,
      ImportText.lineOf_eq, List.append_assoc]
  · rw [maskedLines, List.flatMap_append, List.flatMap_singleton, ImportText.masked,
      ImportText.lineOf_eq, List.append_assoc]
    rfl

theorem neutral_maskedLines (h : ∀ i ∈ is, i.Sound) : Neutral (maskedLines is) := by
  induction is with
  | nil => exact Neutral.nil
  | cons i is ih =>
    exact (h i (List.mem_cons_self ..)).neutral.append
      (ih fun i hi => h i (List.mem_cons_of_mem _ hi))

theorem silent_maskedLines (h : ∀ i ∈ is, i.Sound) (hne : name ≠ []) (hname : IsWord name)
    (r : List Char) : Silent name (maskedLines is) r := by
  induction is with
  | nil => exact Silent.nil
  | cons i is ih =>
    exact ((h i (List.mem_cons_self ..)).silent hne hname _).append
      (ih fun i hi => h i (List.mem_cons_of_mem _ hi))

/-! ### The last import declaration -/

/-- The number of open braces after a character. -/
def nextDepth (depth : ℤ) (c : Char) : ℤ :=
  if c = '\x7b' then depth + 1 else if c = '\x7d' then depth - 1 else depth

variable {found pos : ℕ} {depth : ℤ} {fresh : Bool} {c : Char} {xs cs r : List Char}

theorem lastDeclarationEnd_skip (found pos : ℕ) (depth : ℤ) (fresh : Bool) (xs : List Char)
    (c : Char) (r : List Char) :
    lastDeclarationEnd found pos depth fresh (xs.length + 1) (xs ++ c :: r) =
      lastDeclarationEnd found (pos + xs.length + 1) ((xs ++ [c]).foldl nextDepth depth)
        (c == '\n') 0 r := by
  induction xs generalizing pos depth fresh with
  | nil => rfl
  | cons x xs ih =>
    rw [List.length_cons, List.cons_append, lastDeclarationEnd]
    rw [ih, List.cons_append, List.foldl_cons,
      show pos + 1 + xs.length = pos + (xs.length + 1) by omega]
    rfl

theorem lastDeclarationEnd_of_none (h : fresh = true → declarationLength? (c :: cs) = none) :
    lastDeclarationEnd found pos depth fresh 0 (c :: cs) =
      lastDeclarationEnd found (pos + 1) (nextDepth depth c) (c == '\n') 0 cs := by
  have hnone : (if fresh then declarationLength? (c :: cs) else none) = none := by
    cases fresh with
    | false => rfl
    | true => exact h rfl
  rw [lastDeclarationEnd]
  rw [hnone]
  rfl

/-- An import declaration whose line ends with its semicolon. -/
theorem declarationLength?_line {zs : List Char} (hhead : zs.head?.any Text.isWordChar = false)
    (hsemicolon : ';' ∉ zs) (r : List Char) :
    declarationLength? ("import".toList ++ (zs ++ ';' :: '\n' :: r)) =
      some (6 + zs.length + 1) := by
  have hafter : afterImport? ("import".toList ++ (zs ++ ';' :: '\n' :: r)) =
      some (zs ++ ';' :: '\n' :: r) := by
    unfold afterImport?
    exact Text.dropLeading?_eq_some_iff.2 rfl
  have hword : (zs ++ ';' :: '\n' :: r).head?.any Text.isWordChar = false := by
    cases zs with
    | nil => rfl
    | cons z zs => exact hhead
  have hbefore : (zs ++ ';' :: '\n' :: r).takeWhile (· != ';') = zs := by
    rw [takeWhile_append_of_not (by decide), List.takeWhile_eq_self_iff]
    exact fun z hz => bne_iff_ne.2 fun heq => hsemicolon (heq ▸ hz)
  have hbehind : (zs ++ ';' :: '\n' :: r).dropWhile (· != ';') = ';' :: '\n' :: r := by
    rw [dropWhile_append_of_not (by decide), List.dropWhile_eq_nil_iff.2, List.nil_append]
    exact fun z hz => bne_iff_ne.2 fun heq => hsemicolon (heq ▸ hz)
  have htail : declarationTail? (zs ++ ';' :: '\n' :: r) = some (zs.length + 1) := by
    unfold declarationTail?
    rw [hbefore, hbehind]
    rfl
  unfold declarationLength?
  rw [hafter]
  simp only [Option.bind_eq_bind, Option.bind_some, hword, Bool.false_eq_true, if_false, htail,
    Option.pure_def, Option.some.injEq]
  simp
  omega

/-- What stands in an import line between its keyword and its semicolon. -/
def ImportText.inner (i : ImportText) : List Char :=
  " \x7b ".toList ++ (i.clause ++ (" \x7d from \x22".toList ++
    (List.replicate i.module.length ' ' ++ ['\x22'])))

theorem ImportText.masked_eq (i : ImportText) :
    i.masked = "import".toList ++ (i.inner ++ [';', '\n']) := by
  unfold masked lineOf inner
  simp

theorem foldl_nextDepth_of_header (h : ∀ c ∈ xs, isHeaderChar c = true) (depth : ℤ) :
    xs.foldl nextDepth depth = depth := by
  induction xs with
  | nil => rfl
  | cons x xs ih =>
    have hx := isHeaderChar_eq_true_iff.1 (h x (List.mem_cons_self ..))
    simp only [List.mem_cons, List.not_mem_nil, or_false, not_or] at hx
    rw [List.foldl_cons, nextDepth, if_neg (by tauto), if_neg (by tauto)]
    exact ih fun c hc => h c (List.mem_cons_of_mem _ hc)

/-- The braces of an import line close again. -/
theorem ImportText.Sound.foldl_nextDepth (h : i.Sound) (depth : ℤ) :
    ("mport".toList ++ i.inner ++ [';']).foldl nextDepth depth = depth := by
  have hblanks : ∀ c ∈ List.replicate i.module.length ' ', isHeaderChar c = true := by
    intro c hc
    rw [List.eq_of_mem_replicate hc]
    decide
  unfold inner
  simp only [List.foldl_append, foldl_nextDepth_of_header h.clause_header,
    foldl_nextDepth_of_header hblanks]
  show depth + 1 - 1 = depth
  omega

theorem ImportText.Sound.lastDeclarationEnd_eq (h : i.Sound) (found pos : ℕ) (r : List Char) :
    lastDeclarationEnd found pos 0 true 0 (i.masked ++ r) =
      lastDeclarationEnd (pos + i.text.length - 1) (pos + i.text.length) 0 true 0 r := by
  have hsemicolon : ';' ∉ i.inner := by
    have hclause : ';' ∉ i.clause := fun hc => absurd (h.clause_header _ hc) (by decide)
    simp [inner, hclause]
  have hdecl := declarationLength?_line (show i.inner.head?.any Text.isWordChar = false from rfl)
    hsemicolon r
  have hlen : i.text.length = 6 + i.inner.length + 2 := by
    rw [← i.length_masked, i.masked_eq]
    simp
    omega
  have hcons : i.masked ++ r =
      'i' :: (("mport".toList ++ i.inner) ++ ';' :: '\n' :: r) := by
    rw [i.masked_eq]
    simp
  have hkeyword : 'i' :: (("mport".toList ++ i.inner) ++ ';' :: '\n' :: r) =
      "import".toList ++ (i.inner ++ ';' :: '\n' :: r) := by simp
  have hskip := lastDeclarationEnd_skip (pos + (6 + i.inner.length + 1)) (pos + 1) 0 false
    ("mport".toList ++ i.inner) ';' ('\n' :: r)
  -- Behind the keyword's first letter the declaration is skipped; its braces leave the depth alone.
  rw [h.foldl_nextDepth, lastDeclarationEnd_of_none (by simp)] at hskip
  rw [hcons, lastDeclarationEnd]
  rw [if_pos rfl, hkeyword, hdecl]
  dsimp only
  rw [if_pos rfl, if_neg (by decide), if_neg (by decide), hlen]
  have hsize : 6 + i.inner.length + 1 - 1 = ("mport".toList ++ i.inner).length + 1 := by
    simp
    omega
  rw [hsize]
  refine hskip.trans ?_
  congr 1
  simp
  omega

/-- **The last of the lines is the last declaration.** -/
theorem lastDeclarationEnd_lines (h : ∀ i ∈ is, i.Sound) (found pos : ℕ) (r : List Char) :
    lastDeclarationEnd found pos 0 true 0 (maskedLines is ++ r) =
      lastDeclarationEnd (if is = [] then found else pos + (linesOf is).length - 1)
        (pos + (linesOf is).length) 0 true 0 r := by
  induction is generalizing found pos with
  | nil => rfl
  | cons i is ih =>
    rw [maskedLines_cons, List.append_assoc, (h i (List.mem_cons_self ..)).lastDeclarationEnd_eq,
      ih fun i hi => h i (List.mem_cons_of_mem _ hi), linesOf_cons, List.length_append,
      if_neg (List.cons_ne_nil i is), ← Nat.add_assoc]
    by_cases his : is = []
    · simp [his]
    · rw [if_neg his]

/-- Where a line does not begin like the keyword, no declaration begins. -/
theorem declarationLength?_eq_none (h : (cs.dropWhile Text.isBlank).head? ≠ some 'i') :
    declarationLength? cs = none := by
  have hafter : afterImport? cs = none := by
    unfold afterImport?
    cases hcs : cs.dropWhile Text.isBlank with
    | nil => rfl
    | cons c w =>
      rw [hcs, List.head?_cons, ne_eq, Option.some.injEq] at h
      rw [show "import".toList = 'i' :: "mport".toList from rfl, Text.dropLeading?,
        if_neg (Ne.symm h)]
  unfold declarationLength?
  rw [hafter]
  rfl

theorem declarationLength?_cons_eq_none (hblank : Text.isBlank c = false) (hc : c ≠ 'i') :
    declarationLength? (c :: cs) = none :=
  declarationLength?_eq_none (by simp [hblank, hc])

/-- The same with an empty line above. -/
theorem declarationLength?_lineBreak_eq_none (hblank : Text.isBlank c = false) (hc : c ≠ 'i') :
    declarationLength? ('\n' :: c :: cs) = none := by
  have hbreak : Text.isBlank '\n' = true := by decide
  exact declarationLength?_eq_none (by simp [hbreak, hblank, hc])

/-- The rest of a line without braces is passed over. -/
theorem lastDeclarationEnd_plain (hx : ∀ c ∈ xs, c ≠ '\n' ∧ c ≠ '\x7b' ∧ c ≠ '\x7d') (found pos : ℕ)
    (depth : ℤ) (r : List Char) :
    lastDeclarationEnd found pos depth false 0 (xs ++ r) =
      lastDeclarationEnd found (pos + xs.length) depth false 0 r := by
  induction xs generalizing pos with
  | nil => rfl
  | cons x xs ih =>
    obtain ⟨h₁, h₂, h₃⟩ := hx x (List.mem_cons_self ..)
    rw [List.cons_append, lastDeclarationEnd_of_none (by simp), nextDepth, if_neg h₂, if_neg h₃,
      beq_eq_false_iff_ne.2 h₁, ih fun c hc => hx c (List.mem_cons_of_mem _ hc), List.length_cons,
      show pos + 1 + xs.length = pos + (xs.length + 1) by omega]

/-- **Inside braces no declaration counts,** however many lines begin with the keyword there. -/
theorem lastDeclarationEnd_inside {d n : ℕ} (hd : 1 ≤ d)
    (h : closingFrom '\x7b' '\x7d' d cs = some n) (hend : cs.drop (n + 1) = ['\n'])
    (found pos : ℕ) (fresh : Bool) (skip : ℕ) :
    lastDeclarationEnd found pos d fresh skip cs = found := by
  induction cs generalizing pos d n fresh skip with
  | nil => cases h
  | cons c cs ih =>
    -- Whether a declaration begins here or not, the search goes on with the next character.
    have hstep : ∀ depth : ℤ, depth ≠ 0 → ∃ skip',
        lastDeclarationEnd found pos depth fresh skip (c :: cs) =
          lastDeclarationEnd found (pos + 1) (nextDepth depth c) (c == '\n') skip' cs := by
      intro depth hdepth
      cases skip with
      | succ skip => exact ⟨skip, rfl⟩
      | zero =>
        rw [lastDeclarationEnd]
        split
        · exact ⟨_, by rw [if_neg hdepth]; rfl⟩
        · exact ⟨0, rfl⟩
    obtain ⟨skip', hskip⟩ := hstep d (by omega)
    rw [hskip]
    rw [closingFrom] at h
    rw [nextDepth]
    split_ifs at h ⊢ with h₁ h₂ h₃
    · obtain ⟨m, hm, rfl⟩ := Option.map_eq_some_iff.1 h
      exact_mod_cast ih (d := d + 1) (by omega) hm (by simpa using hend) _ _ _
    · -- The brace of the class itself closes here, and only a line break is left behind it.
      obtain rfl := Option.some.inj h
      rw [Nat.zero_add, List.drop_one, List.tail_cons] at hend
      rw [hend, show (d : ℤ) - 1 = 0 by omega, h₂]
      cases skip' <;> rfl
    · obtain ⟨m, hm, rfl⟩ := Option.map_eq_some_iff.1 h
      have := ih (d := d - 1) (by omega) hm (by simpa using hend) (pos + 1) (c == '\n') skip'
      rwa [Nat.cast_sub hd, Nat.cast_one] at this
    · obtain ⟨m, hm, rfl⟩ := Option.map_eq_some_iff.1 h
      exact ih hd hm (by simpa using hend) _ _ _

end ApiScaffold.TypeScript
