import ApiScaffold.Proofs.TypeScript.ImportedNames
import ApiScaffold.Proofs.TypeScript.Outline

/-!
# Imports that stay known

Import lines are put in where a line begins, in front of text that changes later.

* `ClausesClosed` says that no import clause is open at the end of a text;
* `BindsAbove` says that in a text an import line for a name stands behind such a text;
* `BindsAbove.mem`: then the name is read, whatever follows;
* `BindsAbove.insert`: import lines that are put in elsewhere change nothing in it;
* `bindsAbove_lines`: lines that are put in where no clause is open bind each of their names.
-/

namespace ApiScaffold.TypeScript

/-- Whether a line begins behind a text. `fresh` says that one begins in front of it. -/
def freshAfter : (fresh : Bool) → List Char → Bool
  | fresh, [] => fresh
  | _, c :: cs => freshAfter (c == '\n') cs

/-- Each import clause of a text that a brace behind it would close is closed in the text itself.
`fresh` says that a line begins here. -/
def ClausesClosed : (fresh : Bool) → List Char → Prop
  | _, [] => True
  | fresh, c :: cs =>
    (fresh = true → (clauseHere? (c :: cs ++ ['\x7d'])).isSome = true → '\x7d' ∈ cs) ∧
      ClausesClosed (c == '\n') cs

instance instDecidableClausesClosed : (fresh : Bool) → (cs : List Char) →
    Decidable (ClausesClosed fresh cs)
  | _, [] => isTrue trivial
  | _, c :: cs => @instDecidableAnd _ _ _ (instDecidableClausesClosed (c == '\n') cs)

variable {is : List ImportText} {p q r x front inner : List Char} {fresh : Bool} {name : String}

theorem freshAfter_append (fresh : Bool) (p q : List Char) :
    freshAfter fresh (p ++ q) = freshAfter (freshAfter fresh p) q := by
  induction p generalizing fresh with
  | nil => rfl
  | cons c p ih => exact ih _

/-! ### Open clauses -/

theorem ClauseFront.notMem_of_isBlank {c : Char} (hfront : ClauseFront front)
    (hblank : Text.isBlank c = false) (himport : c ∉ "import".toList) (htype : c ∉ "type".toList) :
    c ∉ front := by
  have hnot : ∀ {u : List Char}, (∀ d ∈ u, Text.isBlank d = true) → c ∉ u := fun hu hmem => by
    rw [hu c hmem] at hblank
    cases hblank
  cases hfront with
  | value hu hv _ =>
    rw [List.mem_append, List.mem_append, not_or, not_or]
    exact ⟨hnot hu, himport, hnot hv⟩
  | typed hu hv _ hw _ =>
    rw [List.mem_append, List.mem_append, List.mem_append, List.mem_append]
    simp only [not_or]
    exact ⟨hnot hu, himport, hnot hv, htype, hnot hw⟩

theorem ClauseFront.opening_notMem (h : ClauseFront front) : '\x7b' ∉ front :=
  h.notMem_of_isBlank (by decide) (by decide) (by decide)

theorem ClauseFront.closing_notMem (h : ClauseFront front) : '\x7d' ∉ front :=
  h.notMem_of_isBlank (by decide) (by decide) (by decide)

/-- A brace behind a text closes a clause if one begins in front of an opening brace. -/
theorem isSome_clauseHere?_close :
    (clauseHere? (x ++ ['\x7d'])).isSome = true ↔
      ∃ front rest, ClauseFront front ∧ x = front ++ '\x7b' :: rest := by
  constructor
  · intro h
    obtain ⟨⟨inner, after⟩, hsome⟩ := Option.isSome_iff_exists.1 h
    obtain ⟨front, hfront, -, hx⟩ := clauseHere?_eq_some_iff.1 hsome
    refine ⟨front, (inner ++ '\x7d' :: after).dropLast, hfront, ?_⟩
    have hlast := congrArg List.dropLast hx
    rwa [List.dropLast_concat, List.dropLast_append_of_ne_nil (List.cons_ne_nil _ _),
      List.dropLast_cons_of_ne_nil (by simp)] at hlast
  · rintro ⟨front, rest, hfront, rfl⟩
    obtain ⟨inner, after, hsplit, hinner⟩ :=
      List.eq_append_cons_of_mem (show '\x7d' ∈ rest ++ ['\x7d'] by simp)
    refine Option.isSome_iff_exists.2 ⟨(inner, after), clauseHere?_eq_some_iff.2
      ⟨front, hfront, hinner, ?_⟩⟩
    rw [← hsplit, List.append_assoc, List.cons_append]

/-- In front of a text in which no clause is open, a clause that begins where a line begins is
closed. -/
theorem ClausesClosed.closing_mem (h : ClausesClosed true x) (hfront : ClauseFront front)
    (hx : x = front ++ '\x7b' :: q) : '\x7d' ∈ q := by
  cases x with
  | nil => simp at hx
  | cons c cs =>
    have hmem : '\x7d' ∈ c :: cs :=
      List.mem_cons_of_mem c (h.1 rfl (isSome_clauseHere?_close.2 ⟨front, q, hfront, hx⟩))
    rw [hx, List.mem_append, List.mem_cons] at hmem
    rcases hmem with hmem | hmem | hmem
    · exact absurd hmem hfront.closing_notMem
    · exact absurd hmem (by decide)
    · exact hmem

/-- **A clause in front of which none is open is found,** whatever stands in front of it and
behind. -/
theorem mem_clausesFrom {skip : ℕ} (hfront : ClauseFront front) (hinner : '\x7d' ∉ inner)
    (hp : ClausesClosed fresh p) (hfresh : freshAfter fresh p = true) (hskip : skip ≤ p.length)
    (r : List Char) :
    inner ∈ clausesFrom fresh skip (p ++ (front ++ '\x7b' :: (inner ++ '\x7d' :: r))) := by
  induction p generalizing fresh skip with
  | nil =>
    obtain rfl : fresh = true := hfresh
    obtain rfl : skip = 0 := Nat.le_zero.1 hskip
    rw [List.nil_append, clausesFrom_clause hfront hinner]
    exact List.mem_cons_self
  | cons c p ih =>
    generalize hrest : front ++ '\x7b' :: (inner ++ '\x7d' :: r) = rest at ih ⊢
    cases skip with
    | succ n => exact ih hp.2 hfresh (Nat.le_of_succ_le_succ hskip)
    | zero =>
      rw [List.cons_append, clausesFrom]
      cases hhere : (if fresh then clauseHere? (c :: (p ++ rest)) else none) with
      | none => exact ih hp.2 hfresh (Nat.zero_le _)
      | some found =>
        obtain ⟨names, after⟩ := found
        obtain ⟨rfl, hclause⟩ : fresh = true ∧
            clauseHere? (c :: (p ++ rest)) = some (names, after) := by
          split_ifs at hhere with hf
          exact ⟨hf, hhere⟩
        obtain ⟨front', hfront', hnames, htext⟩ := clauseHere?_eq_some_iff.1 hclause
        rw [← List.cons_append] at htext
        by_cases hbrace : '\x7b' ∈ c :: p
        · -- The clause begins in front of the line, and there it is closed.
          obtain ⟨a, b, hsplit, ha⟩ := List.eq_append_cons_of_mem hbrace
          rw [hsplit, List.append_assoc, List.cons_append] at htext
          obtain ⟨rfl, hb⟩ := append_cons_inj_of_notMem ha hfront'.opening_notMem htext
          obtain ⟨b₁, b₂, rfl, hb₁⟩ :=
            List.eq_append_cons_of_mem (hp.closing_mem hfront' hsplit)
          rw [List.append_assoc, List.cons_append] at hb
          obtain ⟨rfl, rfl⟩ := append_cons_inj_of_notMem hb₁ hnames hb
          refine List.mem_cons_of_mem _ (ih hp.2 hfresh ?_)
          simp only [List.length_append]
          omega
        · -- There are only blanks in front of the line, if it is not read by itself.
          rw [← hrest, ← List.append_assoc] at htext
          have hnot : '\x7b' ∉ c :: p ++ front := by
            rw [List.mem_append, not_or]
            exact ⟨hbrace, hfront.opening_notMem⟩
          obtain ⟨-, hinside⟩ := append_cons_inj_of_notMem hnot hfront'.opening_notMem htext
          obtain ⟨rfl, -⟩ := append_cons_inj_of_notMem hinner hnames hinside
          exact List.mem_cons_self

/-! ### Lines that are put in -/

theorem lineBreak_mem_of_freshAfter (h : freshAfter fresh x = true) (hne : x ≠ []) : '\n' ∈ x := by
  induction x generalizing fresh with
  | nil => exact absurd rfl hne
  | cons c x ih =>
    by_cases hx : x = []
    · subst hx
      have hc : c = '\n' := by simpa [freshAfter] using h
      exact hc ▸ List.mem_cons_self
    · exact List.mem_cons_of_mem c (ih h hx)

theorem freshAfter_concat (fresh : Bool) (x : List Char) :
    freshAfter fresh (x ++ ['\n']) = true := by
  rw [freshAfter_append]
  rfl

/-- A line begins behind import lines. -/
theorem freshAfter_maskedLines (is : List ImportText) :
    freshAfter true (maskedLines is) = true := by
  induction is with
  | nil => rfl
  | cons i is ih =>
    have hline : freshAfter true i.masked = true := by
      rw [ImportText.masked, i.lineOf_eq, freshAfter_concat]
    rw [maskedLines_cons, freshAfter_append, hline, ih]

/-- A line break opens no clause. -/
theorem ClausesClosed.append_break (h : ClausesClosed fresh x) :
    ClausesClosed fresh (x ++ ['\n']) := by
  induction x generalizing fresh with
  | nil =>
    refine ⟨fun _ hopen => ?_, trivial⟩
    obtain ⟨front, rest, -, hx⟩ := isSome_clauseHere?_close.1 hopen
    have hmem : '\x7b' ∈ ['\n'] := hx ▸ by simp
    exact absurd hmem (by decide)
  | cons c x ih =>
    refine ⟨fun hf hopen => List.mem_append_left _ (h.1 hf ?_), ih h.2⟩
    obtain ⟨front, rest, hfront, hx⟩ := isSome_clauseHere?_close.1 hopen
    have htext : (c :: x) ++ ['\n'] = front ++ '\x7b' :: rest := hx
    rcases List.eq_nil_or_concat rest with rfl | ⟨rest, d, rfl⟩
    · have hlast := congrArg List.getLast? htext
      rw [List.getLast?_concat, List.getLast?_concat] at hlast
      exact absurd (Option.some.inj hlast) (by decide)
    · have hfirst := congrArg List.dropLast htext
      rw [List.concat_eq_append, List.dropLast_concat, ← List.cons_append, ← List.append_assoc,
        List.dropLast_concat] at hfirst
      exact isSome_clauseHere?_close.2 ⟨front, rest, hfront, hfirst⟩

theorem ClausesClosed.above_line (h : ClausesClosed true q) (hx : '\n' ∉ x) :
    ClausesClosed false (x ++ '\n' :: q) := by
  induction x with
  | nil => exact ⟨fun hf => absurd hf (by decide), h⟩
  | cons c x ih =>
    rw [List.mem_cons, not_or] at hx
    refine ⟨fun hf => absurd hf (by decide), ?_⟩
    rw [beq_eq_false_iff_ne.2 (Ne.symm hx.1)]
    exact ih hx.2

/-- Import lines are closed lines. -/
theorem ClausesClosed.below (his : ∀ i ∈ is, i.Sound) (h : ClausesClosed true q) :
    ClausesClosed true (maskedLines is ++ q) := by
  induction is with
  | nil => exact h
  | cons i is ih =>
    have hrest := ih fun j hj => his j (List.mem_cons_of_mem i hj)
    have hline : maskedLines (i :: is) ++ q = 'i' :: ("mport \x7b ".toList ++ (i.clause ++
        (" \x7d".toList ++ behindClause (List.replicate i.module.length ' '))) ++ '\n' ::
          (maskedLines is ++ q)) := by
      rw [maskedLines_cons, i.masked_eq_clause]
      simp
    have hclause : '\n' ∉ i.clause := by
      rcases (his i List.mem_cons_self).clause with hword | heq
      · exact hword.notMem (by decide)
      · rw [heq]
        decide
    rw [hline]
    refine ⟨fun _ _ => by simp, hrest.above_line ?_⟩
    simp [hclause, lineBreak_notMem_behindClause]

/-- **No clause is open behind a text into which import lines are put** where a line begins. -/
theorem ClausesClosed.insert (his : ∀ i ∈ is, i.Sound) (h : ClausesClosed fresh (p ++ q))
    (hfresh : freshAfter fresh p = true) : ClausesClosed fresh (p ++ (maskedLines is ++ q)) := by
  induction p generalizing fresh with
  | nil =>
    obtain rfl : fresh = true := hfresh
    exact h.below his
  | cons c p ih =>
    refine ⟨fun hf hopen => ?_, ih h.2 hfresh⟩
    cases is with
    | nil => exact h.1 hf hopen
    | cons i is =>
      have hline : '\x7d' ∈ i.masked := by
        rw [i.masked_eq_clause]
        simp
      simp [hline]

/-! ### Names that are bound above a place -/

/-- An import line for one name, up to the closing brace. -/
def lineHead (name : String) : List Char :=
  "import ".toList ++ '\x7b' :: (' ' :: (name.toList ++ [' ']) ++ ['\x7d'])

/-- In a text an import line for a name stands where a line begins, and no clause is open in front
of it. -/
def BindsAbove (name : String) (x : List Char) : Prop :=
  ∃ p r, x = p ++ (lineHead name ++ r) ∧ freshAfter true p = true ∧ ClausesClosed true p

/-- **The name is read,** whatever follows. -/
theorem BindsAbove.mem (h : BindsAbove name x) (hname : IsName name.toList) (htype : name ≠ "type")
    (r : List Char) : name ∈ (clausesFrom true 0 (x ++ r)).flatMap clauseNames := by
  obtain ⟨p, s, rfl, hfresh, hclosed⟩ := h
  have hinner : '\x7d' ∉ ' ' :: (name.toList ++ [' ']) := by
    have hbrace : '\x7d' ∉ name.toList := hname.notMem (by decide)
    simp [hbrace]
  have hmem := mem_clausesFrom clauseFront_import hinner hclosed hfresh (Nat.zero_le _) (s ++ r)
  have htext : p ++ (lineHead name ++ s) ++ r = p ++ ("import ".toList ++ '\x7b' ::
      (' ' :: (name.toList ++ [' ']) ++ '\x7d' :: (s ++ r))) := by
    unfold lineHead
    simp
  have hword : name.toList ≠ "type".toList := fun heq => htype (String.toList_inj.1 heq)
  rw [htext]
  refine List.mem_flatMap.2 ⟨_, hmem, ?_⟩
  rw [clauseNames_one hname hword, String.ofList_toList]
  exact List.mem_singleton_self name

/-- **Import lines that are put in leave the name bound.** -/
theorem BindsAbove.insert (his : ∀ i ∈ is, i.Sound) (hname : IsName name.toList)
    (h : BindsAbove name (p ++ q)) (hfresh : freshAfter true p = true) :
    BindsAbove name (p ++ (maskedLines is ++ q)) := by
  obtain ⟨front, r, hsplit, hfront, hclosed⟩ := h
  -- In front of the line, or where it begins.
  have habove : ∀ a, front = p ++ a → q = a ++ (lineHead name ++ r) →
      BindsAbove name (p ++ (maskedLines is ++ q)) := by
    rintro a rfl rfl
    refine ⟨p ++ (maskedLines is ++ a), r, by simp, ?_, hclosed.insert his hfresh⟩
    rw [freshAfter_append, hfresh] at hfront
    rw [freshAfter_append, hfresh, freshAfter_append, freshAfter_maskedLines, hfront]
  rcases List.append_eq_append_iff.1 hsplit with ⟨a, ha, hq⟩ | ⟨a, rfl, hq⟩
  · exact habove a ha hq
  by_cases hne : a = []
  · subst hne
    exact habove [] (by simp) hq.symm
  -- Behind the line, which has no line break up to its closing brace.
  have hbreak : '\n' ∈ a := by
    rw [freshAfter_append, hfront] at hfresh
    exact lineBreak_mem_of_freshAfter hfresh hne
  have hline : '\n' ∉ lineHead name := by
    have hword : '\n' ∉ name.toList := hname.notMem (by decide)
    unfold lineHead
    simp [hword]
  rcases List.append_eq_append_iff.1 hq with ⟨b, rfl, rfl⟩ | ⟨b, hb, -⟩
  · exact ⟨front, b ++ (maskedLines is ++ q), by simp, hfront, hclosed⟩
  · exact absurd (hb ▸ List.mem_append_left b hbreak) hline

/-- **Lines that are put in bind their names** where a line begins and no clause is open. -/
theorem bindsAbove_lines {i : ImportText} (his : ∀ i ∈ is, i.Sound) (hi : i ∈ is)
    (hclause : i.clause = name.toList) (hfresh : freshAfter true p = true)
    (hclosed : ClausesClosed true p) (q : List Char) :
    BindsAbove name (p ++ (maskedLines is ++ q)) := by
  obtain ⟨as, bs, rfl⟩ := List.append_of_mem hi
  have has : ∀ j ∈ as, j.Sound := fun j hj => his j (by simp [hj])
  have hlines : maskedLines (as ++ i :: bs) ++ q = maskedLines as ++ (lineHead name ++
      (behindClause (List.replicate i.module.length ' ') ++ '\n' :: (maskedLines bs ++ q))) := by
    unfold maskedLines lineHead
    rw [List.flatMap_append, List.flatMap_cons, i.masked_eq_clause, hclause]
    simp only [List.append_assoc, List.cons_append, List.nil_append]
  refine ⟨p ++ maskedLines as, _, by rw [hlines, List.append_assoc], ?_, ?_⟩
  · rw [freshAfter_append, hfresh, freshAfter_maskedLines]
  · have hinsert := ClausesClosed.insert (q := []) has (by rwa [List.append_nil]) hfresh
    rwa [List.append_nil] at hinsert

end ApiScaffold.TypeScript
