import ApiScaffold.Proofs.Text.Split
import ApiScaffold.Proofs.TypeScript.ImportScan
import ApiScaffold.Proofs.TypeScript.Layout

/-!
# The names that import lines bind

* `IsName` says what can be read as a name in an import clause, every identifier among them;
* `clauseNames_clauseOf`: a clause that lists names binds them, but for the word `type` at its end;
* `ClauseFront`, `clauseHere?_eq_some_iff`: a clause is what stands between an opening brace behind
  the keywords and the next closing brace;
* `clausesFrom_lines`: the clauses of import lines below each other are found one by one;
* `Layout.Sound.mem_importedNames`: a service file binds each class that it imports.
-/

namespace ApiScaffold.TypeScript

variable {i : ImportText} {is : List ImportText} {u v w x y z r : List Char} {names : List String}

/-! ### Names -/

/-- A character of a name in an import clause: one of code that neither ends the name nor the
clause. -/
def isNameChar (c : Char) : Bool := isPlainCode c && !Text.isBlank c && c != ',' && c != '\x7d'

/-- A text that can be a name in an import clause. -/
structure IsName (w : List Char) : Prop where
  ne_nil : w ≠ []
  chars : w.all isNameChar = true

theorem IsName.isNameChar (h : IsName w) {c : Char} (hc : c ∈ w) : isNameChar c = true :=
  List.all_eq_true.1 h.chars c hc

theorem IsName.isBlank (h : IsName w) : ∀ c ∈ w, Text.isBlank c = false := by
  intro c hc
  have hchar := h.isNameChar hc
  simp only [TypeScript.isNameChar, Bool.and_eq_true, Bool.not_eq_true'] at hchar
  exact hchar.1.1.2

theorem IsName.notMem (h : IsName w) {c : Char} (hc : TypeScript.isNameChar c = false) : c ∉ w := by
  intro hmem
  rw [h.isNameChar hmem] at hc
  cases hc

theorem isNameChar_of_isIdentifierChar {c : Char} (h : Text.isIdentifierChar c = true) :
    isNameChar c = true := by
  have hplain := isPlainCode_of_isHeaderChar (isHeaderChar_of_isIdentifierChar h)
  have hblank := isBlank_of_isIdentifierChar h
  have hcomma : c ≠ ',' := ne_of_isIdentifierChar h (by decide)
  have hbrace : c ≠ '\x7d' := ne_of_isIdentifierChar h (by decide)
  simp [isNameChar, hplain, hblank, hcomma, hbrace]

/-- **Every identifier is a name,** whatever keyword it may be, and be its letters of any script. -/
theorem isName_of_identifierChars (hne : w ≠ []) (h : ∀ c ∈ w, Text.isIdentifierChar c = true) :
    IsName w :=
  ⟨hne, List.all_eq_true.2 fun c hc => isNameChar_of_isIdentifierChar (h c hc)⟩

theorem IsWord.isName (h : IsWord w) (hne : w ≠ []) : IsName w :=
  isName_of_identifierChars hne fun c hc => isIdentifierChar_of_isWordChar (h c hc)

/-! ### Items of a clause -/

theorem isBlank_space : ∀ c ∈ [' '], Text.isBlank c = true := List.all_eq_true.1 (by decide)

theorem dropWhile_isBlank_append (hu : ∀ c ∈ u, Text.isBlank c = true) (h : IsName w)
    (r : List Char) : (u ++ (w ++ r)).dropWhile Text.isBlank = w ++ r := by
  rw [List.dropWhile_append_of_pos hu]
  obtain ⟨c, cs, rfl⟩ := List.exists_cons_of_ne_nil h.ne_nil
  rw [List.cons_append, List.dropWhile_cons_of_neg]
  simp [h.isBlank c List.mem_cons_self]

/-- Blanks around a name are trimmed. -/
theorem trim_name (hu : ∀ c ∈ u, Text.isBlank c = true) (hv : ∀ c ∈ v, Text.isBlank c = true)
    (h : IsName w) : Text.trim (u ++ (w ++ v)) = w := by
  have hreverse : IsName w.reverse :=
    ⟨List.reverse_ne_nil_iff.2 h.ne_nil, by simpa using h.chars⟩
  have hright := dropWhile_isBlank_append (u := v.reverse)
    (fun c hc => hv c (List.mem_reverse.1 hc)) hreverse []
  rw [List.append_nil] at hright
  rw [Text.trim, Text.trimLeft, dropWhile_isBlank_append hu h, Text.trimRight,
    Text.dropSuffixWhile, List.reverse_append, hright, List.reverse_reverse]

theorem afterBlanks?_append (hv : ∀ c ∈ v, Text.isBlank c = true) (hne : v ≠ [])
    (hr : r.head?.any Text.isBlank = false) : afterBlanks? (v ++ r) = some r := by
  obtain ⟨c, cs, rfl⟩ := List.exists_cons_of_ne_nil hne
  have hcs : (cs ++ r).dropWhile Text.isBlank = r := by
    rw [List.dropWhile_append_of_pos fun d hd => hv d (List.mem_cons_of_mem c hd)]
    cases r with
    | nil => rfl
    | cons d ds => exact List.dropWhile_cons_of_neg (by simpa using hr)
  rw [List.cons_append, afterBlanks?, if_pos (hv c List.mem_cons_self), hcs]

theorem exists_of_afterBlanks? (h : afterBlanks? x = some r) :
    ∃ v, x = v ++ r ∧ v ≠ [] ∧ ∀ c ∈ v, Text.isBlank c = true := by
  cases x with
  | nil => cases h
  | cons c cs =>
    rw [afterBlanks?] at h
    split_ifs at h with hc
    obtain rfl := Option.some.inj h
    refine ⟨c :: cs.takeWhile Text.isBlank, ?_, List.cons_ne_nil _ _, ?_⟩
    · rw [List.cons_append, List.takeWhile_append_dropWhile]
    · simpa [hc] using List.all_eq_true.1 (List.all_takeWhile (p := Text.isBlank) (l := cs))

theorem takeWhile_name (h : IsName w) (hv : v.head?.all Text.isBlank = true) :
    (w ++ v).takeWhile (fun c => !Text.isBlank c) = w := by
  rw [List.takeWhile_append_of_pos fun c hc => by rw [h.isBlank c hc]; rfl]
  cases v with
  | nil => simp
  | cons c cs =>
    have hc : Text.isBlank c = true := hv
    rw [List.takeWhile_cons_of_neg (by simp [hc]), List.append_nil]

/-- The keyword `type` is taken off an item that is the word `type` and has a blank behind it. -/
theorem untyped_name (hu : ∀ c ∈ u, Text.isBlank c = true) (hv : ∀ c ∈ v, Text.isBlank c = true)
    (h : IsName w) :
    untyped (u ++ (w ++ v)) =
      if w = "type".toList ∧ v ≠ [] then [] else u ++ (w ++ v) := by
  have hword : IsName "type".toList := ⟨by decide, by decide⟩
  rw [untyped, dropWhile_isBlank_append hu h]
  split_ifs with htype
  · obtain ⟨rfl, hne⟩ := htype
    have hblanks := afterBlanks?_append (r := []) hv hne rfl
    rw [List.append_nil] at hblanks
    rw [Text.dropLeading?_eq_some_iff.2 rfl, Option.bind_some, hblanks, Option.getD_some]
  · have hnone : (Text.dropLeading? "type".toList (w ++ v)).bind afterBlanks? = none := by
      by_contra hsome
      obtain ⟨r, hr⟩ := Option.ne_none_iff_exists'.1 hsome
      obtain ⟨rest, hrest, hblanks⟩ := Option.bind_eq_some_iff.1 hr
      obtain ⟨b, rfl, hne, hb⟩ := exists_of_afterBlanks? hblanks
      -- A blank follows the keyword, so the name ends where the keyword does.
      have hsplit : w ++ v = "type".toList ++ (b ++ r) := Text.dropLeading?_eq_some_iff.1 hrest
      have hvhead : v.head?.all Text.isBlank = true := by
        cases v with
        | nil => rfl
        | cons c cs => exact hv c List.mem_cons_self
      have hbhead : (b ++ r).head?.all Text.isBlank = true := by
        obtain ⟨c, cs, rfl⟩ := List.exists_cons_of_ne_nil hne
        exact hb c List.mem_cons_self
      have hname : w = "type".toList := by
        rw [← takeWhile_name h hvhead, hsplit, takeWhile_name hword hbhead]
      subst hname
      exact htype ⟨rfl, by rw [List.append_cancel_left hsplit]; simp [hne]⟩
    rw [hnone, Option.getD_none]

theorem lastPart_name (h : ' ' ∉ w) (part : List Char) :
    lastPart " as ".toList part 0 w = part.reverse ++ w := by
  induction w generalizing part with
  | nil => simp [lastPart]
  | cons c w ih =>
    rw [List.mem_cons, not_or] at h
    have hnone : Text.dropLeading? " as ".toList (c :: w) = none := if_neg h.1
    rw [lastPart, hnone, if_neg (by simp), ih h.2]
    simp

/-- **An item that is a name binds it,** unless it is the word `type` with a blank behind it. -/
theorem boundName?_name (hu : ∀ c ∈ u, Text.isBlank c = true) (hv : ∀ c ∈ v, Text.isBlank c = true)
    (h : IsName w) :
    boundName? (u ++ (w ++ v)) =
      if w = "type".toList ∧ v ≠ [] then none else some (String.ofList w) := by
  by_cases htype : w = "type".toList ∧ v ≠ []
  · rw [boundName?, untyped_name hu hv h, if_pos htype, if_pos htype]
    rfl
  · have hself := trim_name (u := []) (v := []) (by simp) (by simp) h
    rw [List.nil_append, List.append_nil] at hself
    have hspace : ' ' ∉ w := h.notMem (by decide)
    rw [boundName?, untyped_name hu hv h, if_neg htype, if_neg htype]
    simp only [trim_name hu hv h, List.isEmpty_eq_false_iff.2 h.ne_nil, lastPart_name hspace,
      List.reverse_nil, List.nil_append, hself, Bool.false_eq_true, if_false]

/-! ### Clauses that list names -/

/-- The names that a clause binds of those that it lists: the word `type` at its end has a blank
behind it and is left out. -/
def boundOf (names : List String) : List String :=
  if names.getLast? = some "type" then names.dropLast else names

theorem boundOf_cons_cons (n m : String) (names : List String) :
    boundOf (n :: m :: names) = n :: boundOf (m :: names) := by
  unfold boundOf
  rw [List.getLast?_cons_cons]
  split_ifs <;> rfl

/-- The clause of an import line. -/
def clauseOf (names : List String) : List Char := ' ' :: (Render.commaList names ++ [' '])

theorem clauseOf_cons_cons (n m : String) (names : List String) :
    clauseOf (n :: m :: names) = (' ' :: n.toList) ++ ',' :: clauseOf (m :: names) := by
  have hseparator : ", ".toList = [',', ' '] := rfl
  unfold clauseOf Render.commaList
  rw [String.toList_intercalate, String.toList_intercalate, List.map_cons]
  change _ :: (Text.joinWith _ (n.toList :: (m :: names).map String.toList) ++ _) = _
  rw [Text.joinWith_cons _ _ (by simp), hseparator]
  simp [Text.joinWith]

/-- **A clause binds the names that it lists,** but for the word `type` at its end. -/
theorem clauseNames_clauseOf (h : ∀ n ∈ names, IsName n.toList) :
    clauseNames (clauseOf names) = boundOf names := by
  induction names with
  | nil => rfl
  | cons n names ih =>
    have hn := h n List.mem_cons_self
    have hcomma : ',' ∉ n.toList := hn.notMem (by decide)
    cases names with
    | nil =>
      have hone : clauseOf [n] = [' '] ++ (n.toList ++ [' ']) := by
        simp [clauseOf, Render.commaList]
      have hword : n.toList = "type".toList ↔ n = "type" := String.toList_inj
      rw [hone, clauseNames, Text.splitOn_of_notMem (by simp [hcomma]), List.filterMap_cons,
        boundName?_name isBlank_space isBlank_space hn, boundOf]
      by_cases htype : n = "type"
      · rw [if_pos ⟨hword.2 htype, by simp⟩, if_pos (by simp [htype])]
        rfl
      · rw [if_neg fun hboth => htype (hword.1 hboth.1), if_neg (by simp [htype])]
        simp
    | cons m names =>
      have hitem := boundName?_name (v := []) isBlank_space (by simp) hn
      rw [List.append_nil, if_neg (by simp), String.ofList_toList] at hitem
      have hrest := ih fun k hk => h k (List.mem_cons_of_mem n hk)
      rw [clauseNames] at hrest
      rw [clauseOf_cons_cons, clauseNames, Text.splitOn_append (by simp [hcomma]),
        boundOf_cons_cons, ← hrest]
      exact List.filterMap_cons_some hitem

/-! ### What a clause is -/

/-- What stands in front of the opening brace of an import clause: the keyword `import` between
blanks, and perhaps the keyword `type` and more blanks. -/
inductive ClauseFront : List Char → Prop
  | value {u v : List Char} (above : ∀ c ∈ u, Text.isBlank c = true)
      (blanks : ∀ c ∈ v, Text.isBlank c = true) (ne : v ≠ []) :
      ClauseFront (u ++ ("import".toList ++ v))
  | typed {u v w : List Char} (above : ∀ c ∈ u, Text.isBlank c = true)
      (blanks : ∀ c ∈ v, Text.isBlank c = true) (ne : v ≠ [])
      (more : ∀ c ∈ w, Text.isBlank c = true) (more_ne : w ≠ []) :
      ClauseFront (u ++ ("import".toList ++ (v ++ ("type".toList ++ w))))

theorem afterImport?_append (hu : ∀ c ∈ u, Text.isBlank c = true) (r : List Char) :
    afterImport? (u ++ ("import".toList ++ r)) = some r := by
  unfold afterImport?
  rw [List.dropWhile_append_of_pos hu]
  exact Text.dropLeading?_eq_some_iff.2 rfl

theorem skipTypeWord_eq_cons (h : skipTypeWord x = '\x7b' :: r) :
    x = '\x7b' :: r ∨ ∃ w, x = "type".toList ++ (w ++ '\x7b' :: r) ∧ w ≠ [] ∧
      ∀ c ∈ w, Text.isBlank c = true := by
  rw [skipTypeWord] at h
  cases hword : (Text.dropLeading? "type".toList x).bind afterBlanks? with
  | none =>
    rw [hword] at h
    exact Or.inl h
  | some t =>
    rw [hword, Option.getD_some] at h
    subst h
    obtain ⟨y, hy, hblanks⟩ := Option.bind_eq_some_iff.1 hword
    obtain ⟨w, rfl, hne, hw⟩ := exists_of_afterBlanks? hblanks
    exact Or.inr ⟨w, Text.dropLeading?_eq_some_iff.1 hy, hne, hw⟩

theorem clauseHere?_of_eq_some {inner after : List Char} (hinner : '\x7d' ∉ inner)
    (hx : afterImport? x = some y) (hy : afterBlanks? y = some z)
    (hz : skipTypeWord z = '\x7b' :: (inner ++ '\x7d' :: after)) :
    clauseHere? x = some (inner, after) := by
  have hall : ∀ c ∈ inner, (c != '\x7d') = true := fun c hc =>
    bne_iff_ne.2 fun heq => hinner (heq ▸ hc)
  have hbefore : (inner ++ '\x7d' :: after).takeWhile (· != '\x7d') = inner := by
    rw [takeWhile_append_of_not (by decide), List.takeWhile_eq_self_iff.2 hall]
  have hbehind : (inner ++ '\x7d' :: after).dropWhile (· != '\x7d') = '\x7d' :: after := by
    rw [dropWhile_append_of_not (by decide), List.dropWhile_eq_nil_iff.2 hall, List.nil_append]
  rw [clauseHere?]
  simp only [hx, hy, hz, hbehind, hbefore, Option.bind_eq_bind, Option.bind_some]

/-- **A clause** is what stands between an opening brace that follows the keywords and the next
closing brace. -/
theorem clauseHere?_eq_some_iff {inner after : List Char} :
    clauseHere? x = some (inner, after) ↔
      ∃ front, ClauseFront front ∧ '\x7d' ∉ inner ∧
        x = front ++ '\x7b' :: (inner ++ '\x7d' :: after) := by
  constructor
  · intro h
    unfold clauseHere? at h
    simp only [Option.bind_eq_bind, Option.bind_eq_some_iff] at h
    obtain ⟨y, hy, z, hz, h⟩ := h
    obtain ⟨u, rfl, hu⟩ := exists_of_afterImport? hy
    obtain ⟨v, rfl, hne, hv⟩ := exists_of_afterBlanks? hz
    split at h
    · rename_i rest hrest
      split at h
      · rename_i d ds hdrop
        obtain ⟨rfl, rfl⟩ := Prod.mk.inj (Option.some.inj h)
        have hd : d = '\x7d' := by
          have hhead := List.head?_dropWhile_not (· != '\x7d') rest
          rw [hdrop] at hhead
          simpa using hhead
        have hsplit := List.takeWhile_append_dropWhile (p := (· != '\x7d')) (l := rest)
        rw [hdrop, hd] at hsplit
        have hnot : '\x7d' ∉ rest.takeWhile (· != '\x7d') := fun hmem => by
          simpa using List.mem_takeWhile_imp hmem
        rcases skipTypeWord_eq_cons hrest with rfl | ⟨w, rfl, hwne, hw⟩
        · exact ⟨_, .value hu hv hne, hnot, by rw [hsplit]; simp⟩
        · exact ⟨_, .typed hu hv hne hw hwne, hnot, by rw [hsplit]; simp⟩
      · cases h
    · cases h
  · rintro ⟨front, hfront, hinner, rfl⟩
    cases hfront with
    | @value u v hu hv hne =>
      simp only [List.append_assoc]
      exact clauseHere?_of_eq_some hinner (afterImport?_append hu _)
        (afterBlanks?_append hv hne rfl) rfl
    | @typed u v w hu hv hne hw hwne =>
      have hmore := afterBlanks?_append (r := '\x7b' :: (inner ++ '\x7d' :: after)) hw hwne rfl
      simp only [List.append_assoc]
      refine clauseHere?_of_eq_some hinner (afterImport?_append hu _)
        (afterBlanks?_append hv hne rfl) ?_
      rw [skipTypeWord, Text.dropLeading?_eq_some_iff.2 rfl, Option.bind_some, hmore,
        Option.getD_some]

/-- The front of a clause in an import line, which imports values or types. -/
theorem clauseFront_import : ClauseFront "import ".toList :=
  .value (u := []) (by simp) isBlank_space (by simp)

theorem clauseFront_importType : ClauseFront "import type ".toList :=
  .typed (u := []) (by simp) isBlank_space (by simp) isBlank_space (by simp)

/-! ### Clauses of lines -/

theorem clausesFrom_skip (fresh : Bool) (xs : List Char) (c : Char) (r : List Char) :
    clausesFrom fresh (xs.length + 1) (xs ++ c :: r) = clausesFrom (c == '\n') 0 r := by
  induction xs generalizing fresh with
  | nil => rfl
  | cons x xs ih => exact ih _

/-- A clause where a line begins is found, and the search goes on behind its closing brace. -/
theorem clausesFrom_clause {front inner : List Char} (hfront : ClauseFront front)
    (hinner : '\x7d' ∉ inner) (r : List Char) :
    clausesFrom true 0 (front ++ '\x7b' :: (inner ++ '\x7d' :: r)) =
      inner :: clausesFrom false 0 r := by
  have hhere : clauseHere? (front ++ '\x7b' :: (inner ++ '\x7d' :: r)) = some (inner, r) :=
    clauseHere?_eq_some_iff.2 ⟨front, hfront, hinner, rfl⟩
  obtain ⟨c, xs, hxs⟩ : ∃ c xs, front ++ '\x7b' :: inner = c :: xs :=
    List.exists_cons_of_ne_nil (by simp)
  have htext : front ++ '\x7b' :: (inner ++ '\x7d' :: r) = c :: (xs ++ '\x7d' :: r) := by
    rw [← List.cons_append, ← List.append_assoc, hxs, List.cons_append]
  have hlength : (xs ++ '\x7d' :: r).length - r.length = xs.length + 1 := by
    rw [List.length_append, List.length_cons]
    omega
  rw [htext] at hhere ⊢
  rw [clausesFrom]
  simp only [if_true, hhere]
  rw [hlength, clausesFrom_skip]
  rfl

/-- Inside a line no clause begins. -/
theorem clausesFrom_append (h : '\n' ∉ x) (r : List Char) :
    clausesFrom false 0 (x ++ r) = clausesFrom false 0 r := by
  induction x with
  | nil => rfl
  | cons c x ih =>
    rw [List.mem_cons, not_or] at h
    have hfresh : (c == '\n') = false := beq_eq_false_iff_ne.2 (Ne.symm h.1)
    rw [List.cons_append, clausesFrom]
    simpa [hfresh] using ih h.2

/-- The rest of a line holds no clause. -/
theorem clausesFrom_line (h : '\n' ∉ x) (r : List Char) :
    clausesFrom false 0 (x ++ '\n' :: r) = clausesFrom true 0 r := by
  rw [clausesFrom_append h]
  rfl

/-- Nor does the rest of the last line. -/
theorem clausesFrom_lastLine (h : '\n' ∉ x) : clausesFrom false 0 x = [] := by
  rw [← List.append_nil x, clausesFrom_append h]
  rfl

/-- What stands in an import line behind the closing brace of its clause. -/
def behindClause (module : List Char) : List Char :=
  " from \x22".toList ++ (module ++ "\x22;".toList)

theorem lineBreak_notMem_behindClause (n : ℕ) : '\n' ∉ behindClause (List.replicate n ' ') := by
  unfold behindClause
  simp

/-- A clause in a line is found, and the search goes on in the next line. -/
theorem clausesFrom_importLine {front inner : List Char} (hfront : ClauseFront front)
    (hinner : '\x7d' ∉ inner) (n : ℕ) (r : List Char) :
    clausesFrom true 0 (front ++ '\x7b' :: (inner ++ '\x7d' ::
        (behindClause (List.replicate n ' ') ++ '\n' :: r))) = inner :: clausesFrom true 0 r := by
  rw [clausesFrom_clause hfront hinner, clausesFrom_line (lineBreak_notMem_behindClause n)]

theorem ImportText.masked_eq_clause (i : ImportText) :
    i.masked = "import ".toList ++ '\x7b' :: (' ' :: (i.clause ++ [' ']) ++
      '\x7d' :: (behindClause (List.replicate i.module.length ' ') ++ ['\n'])) := by
  unfold masked lineOf behindClause
  simp

theorem ImportText.Sound.brace_notMem (h : i.Sound) : '\x7d' ∉ ' ' :: (i.clause ++ [' ']) := by
  have hbrace : '\x7d' ∉ i.clause := fun hc => absurd (h.clause_header _ hc) (by decide)
  simp [hbrace]

/-- **The clauses of import lines are found one by one.** -/
theorem clausesFrom_lines (h : ∀ i ∈ is, i.Sound) (r : List Char) :
    clausesFrom true 0 (maskedLines is ++ r) =
      (is.map fun i => ' ' :: (i.clause ++ [' '])) ++ clausesFrom true 0 r := by
  induction is with
  | nil => rfl
  | cons i is ih =>
    have hline : i.masked ++ (maskedLines is ++ r) = "import ".toList ++ '\x7b' ::
        (' ' :: (i.clause ++ [' ']) ++ '\x7d' ::
          (behindClause (List.replicate i.module.length ' ') ++
            '\n' :: (maskedLines is ++ r))) := by
      rw [i.masked_eq_clause]
      simp
    rw [maskedLines_cons, List.append_assoc, hline,
      clausesFrom_importLine clauseFront_import (h i List.mem_cons_self).brace_notMem,
      ih fun i hi => h i (List.mem_cons_of_mem _ hi)]
    rfl

/-- A clause of one name binds it, unless it is the word `type`. -/
theorem clauseNames_one (h : IsName w) (htype : w ≠ "type".toList) :
    clauseNames (' ' :: (w ++ [' '])) = [String.ofList w] := by
  have hone : clauseOf [String.ofList w] = ' ' :: (w ++ [' ']) := by
    simp [clauseOf, Render.commaList]
  have hbound : boundOf [String.ofList w] = [String.ofList w] := by
    refine if_neg fun hlast => htype ?_
    rw [← String.toList_ofList (l := w)]
    exact congrArg String.toList (Option.some.inj hlast)
  rw [← hone, clauseNames_clauseOf (by simpa using h), hbound]

/-- **A service file binds what it imports.** -/
theorem Layout.Sound.mem_importedNames {l : Layout} (h : l.Sound) (hi : i ∈ l.imports)
    (hword : IsWord i.clause) (hne : i.clause ≠ []) (htype : i.clause ≠ "type".toList) :
    String.ofList i.clause ∈ importedNames l.text := by
  rw [importedNames, h.mask_text, Layout.masked, Layout.frame, clausesFrom_lines h.imports,
    List.flatMap_append]
  refine List.mem_append_left _ (List.mem_flatMap.2 ⟨_, List.mem_map_of_mem hi, ?_⟩)
  rw [clauseNames_one (hword.isName hne) htype]
  exact List.mem_singleton_self _

end ApiScaffold.TypeScript
