import ApiScaffold.Proofs.TypeScript.ImportLines
import ApiScaffold.Proofs.TypeScript.LexicalPieces
import ApiScaffold.Proofs.TypeScript.Splits

/-!
# The search for import declarations

* `ImportAt` says that a line of a masked text begins with the keyword, blanks apart;
* `Concluded` says that such a declaration goes on to its first semicolon, outside all brackets that
  it opens, and that its line ends there; `declarationLength?_of_concluded`: then it is found up to
  the end of this line;
* `braceDepth` counts the braces that are open after a text, `Balanced.braceDepth_prefix`: it is not
  negative in a balanced text;
* `lastDeclarationEnd_span`, `lastDeclarationEnd_line`, `lastDeclarationEnd_last`: the search goes
  on behind a declaration, or behind a line in which none begins.
-/

namespace ApiScaffold.TypeScript

/-! ### Declarations -/

/-- The line that begins at an offset of a masked text, or a line below empty ones, begins with the
keyword, blanks apart; `rest` follows it. -/
structure ImportAt (masked : List Char) (n : ℕ) (rest : List Char) : Prop where
  fresh : (masked.take n).getLast?.all (· == '\n') = true
  keyword : afterImport? (masked.drop n) = some rest
  word : rest.head?.any Text.isWordChar = false

instance instDecidableImportAt (masked : List Char) (n : ℕ) (rest : List Char) :
    Decidable (ImportAt masked n rest) :=
  decidable_of_iff ((masked.take n).getLast?.all (· == '\n') = true ∧
      afterImport? (masked.drop n) = some rest ∧ rest.head?.any Text.isWordChar = false)
    ⟨fun ⟨h₁, h₂, h₃⟩ => ⟨h₁, h₂, h₃⟩, fun ⟨h₁, h₂, h₃⟩ => ⟨h₁, h₂, h₃⟩⟩

/-- What follows the first semicolon of a text, spaces and tabs apart. -/
def behindSemicolon (rest : List Char) : List Char :=
  ((rest.dropWhile (· != ';')).drop 1).dropWhile isLineBlank

/-- What follows the keyword has a semicolon. In front of the first the brackets are balanced, and
the line ends with it. -/
structure Concluded (rest : List Char) : Prop where
  semicolon : ';' ∈ rest
  balanced : Balanced (rest.takeWhile (· != ';'))
  lineEnds : LineEnds (behindSemicolon rest)

instance instDecidableConcluded (rest : List Char) : Decidable (Concluded rest) :=
  decidable_of_iff (';' ∈ rest ∧ Balanced (rest.takeWhile (· != ';')) ∧
      (behindSemicolon rest).head?.all (· == '\n') = true)
    ⟨fun ⟨h₁, h₂, h₃⟩ => ⟨h₁, h₂, h₃⟩, fun ⟨h₁, h₂, h₃⟩ => ⟨h₁, h₂, h₃⟩⟩

section Declarations

variable {masked cs rest : List Char} {n : ℕ}

theorem exists_of_afterImport? (h : afterImport? cs = some rest) :
    ∃ gap, cs = gap ++ ("import".toList ++ rest) ∧ ∀ c ∈ gap, Text.isBlank c = true := by
  have hsplit := Text.dropLeading?_eq_some_iff.1 h
  refine ⟨cs.takeWhile Text.isBlank, ?_, List.all_eq_true.1 List.all_takeWhile⟩
  rw [← hsplit, List.takeWhile_append_dropWhile]

/-- A concluded declaration falls into two parts at its semicolon. -/
theorem Concluded.exists_split (h : Concluded rest) :
    ∃ w g, rest = w ++ ';' :: (g ++ behindSemicolon rest) ∧ ';' ∉ w ∧ Balanced w ∧
      ∀ c ∈ g, isLineBlank c = true := by
  obtain ⟨w, after, hsplit, hw⟩ := List.eq_append_cons_of_mem h.semicolon
  have hnot : ∀ c ∈ w, (c != ';') = true := fun c hc => bne_iff_ne.2 fun heq => hw (heq ▸ hc)
  have hbehind : behindSemicolon rest = after.dropWhile isLineBlank := by
    rw [behindSemicolon, hsplit, List.dropWhile_append_of_pos hnot]
    rfl
  have hbalanced := h.balanced
  rw [hsplit, List.takeWhile_append_of_pos hnot] at hbalanced
  refine ⟨w, after.takeWhile isLineBlank, ?_, hw, by simpa using hbalanced,
    List.all_eq_true.1 List.all_takeWhile⟩
  rw [hbehind, List.takeWhile_append_dropWhile, hsplit]

theorem lineEnd?_append {g r : List Char} (hg : ∀ c ∈ g, isLineBlank c = true) (hr : LineEnds r) :
    lineEnd? (g ++ r) = some g.length := by
  rw [lineEnd?, List.dropWhile_append_of_pos hg, List.takeWhile_append_of_pos hg]
  cases r with
  | nil => simp
  | cons c r =>
    obtain rfl : c = '\n' := by simpa [LineEnds] using hr
    simp [show isLineBlank '\n' = false by decide]

/-- A concluded declaration ends with the line of its semicolon. -/
theorem declarationTail?_of_concluded (h : Concluded rest) {w g : List Char}
    (hsplit : rest = w ++ ';' :: (g ++ behindSemicolon rest)) (hw : ';' ∉ w)
    (hg : ∀ c ∈ g, isLineBlank c = true) :
    declarationTail? rest = some (w.length + 1 + g.length) := by
  have hnot : ∀ c ∈ w, (c != ';') = true := fun c hc => bne_iff_ne.2 fun heq => hw (heq ▸ hc)
  have hbefore : rest.takeWhile (· != ';') = w := by
    rw [hsplit, List.takeWhile_append_of_pos hnot]
    simp
  have hafter : rest.dropWhile (· != ';') = ';' :: (g ++ behindSemicolon rest) := by
    rw [hsplit, List.dropWhile_append_of_pos hnot, ← hsplit]
    rfl
  rw [declarationTail?, hbefore, hafter]
  dsimp only
  rw [lineEnd?_append hg h.lineEnds]

/-- **A concluded declaration is found up to the end of the line of its semicolon.** The brackets in
front of this are balanced. -/
theorem ImportAt.exists_span (h : ImportAt masked n rest) (hc : Concluded rest) :
    ∃ u g, masked.drop n = u ++ ';' :: (g ++ behindSemicolon rest) ∧ u ≠ [] ∧ ';' ∉ u ∧
      Balanced u ∧ (∀ c ∈ g, isLineBlank c = true) ∧
      declarationLength? (masked.drop n) = some (u.length + (g.length + 1)) := by
  obtain ⟨gap, hdrop, hgap⟩ := exists_of_afterImport? h.keyword
  obtain ⟨w, g, hsplit, hw, hbalanced, hg⟩ := hc.exists_split
  refine ⟨gap ++ ("import".toList ++ w), g, ?_, by simp, ?_, ?_, hg, ?_⟩
  · rw [hdrop, List.append_assoc, List.append_assoc, ← hsplit]
  · intro hmem
    simp only [List.mem_append] at hmem
    rcases hmem with hmem | hmem | hmem
    · exact absurd (hgap _ hmem) (by decide)
    · exact absurd hmem (by decide)
    · exact hw hmem
  · exact .append (.of_plain fun c hc => isBracket_of_isBlank (hgap c hc))
      (.append (.of_plain (List.all_iff_forall_prop.1 (by decide))) hbalanced)
  · have hlen := congrArg List.length hsplit
    have htail := declarationTail?_of_concluded hc hsplit hw hg
    rw [declarationLength?, h.keyword]
    simp only [Option.bind_eq_bind, Option.bind_some, h.word, Bool.false_eq_true, if_false, htail,
      Option.pure_def, Option.some.injEq]
    rw [hdrop]
    simp only [List.length_append, List.length_cons] at hlen ⊢
    omega

/-- What is found begins with the keyword. -/
theorem exists_importAt (fresh : (masked.take n).getLast?.all (· == '\n') = true)
    (h : declarationLength? (masked.drop n) ≠ none) : ∃ rest, ImportAt masked n rest := by
  cases hkeyword : afterImport? (masked.drop n) with
  | none =>
    rw [declarationLength?, hkeyword] at h
    exact absurd rfl h
  | some rest =>
    refine ⟨rest, fresh, hkeyword, ?_⟩
    by_contra hword
    rw [declarationLength?, hkeyword] at h
    simp [hword] at h

end Declarations

/-! ### Braces -/

/-- The number of braces that a text opens less that of those that it closes. -/
def braceDepth (m : List Char) : ℤ := m.foldl nextDepth 0

section Depth

variable {m u : List Char} {o c : Char}

theorem nextDepth_eq (depth : ℤ) (c : Char) : nextDepth depth c = depth + nextDepth 0 c := by
  unfold nextDepth
  split_ifs <;> omega

theorem foldl_nextDepth (depth : ℤ) (m : List Char) :
    m.foldl nextDepth depth = depth + braceDepth m := by
  induction m generalizing depth with
  | nil => simp [braceDepth]
  | cons c m ih =>
    rw [braceDepth, List.foldl_cons, List.foldl_cons, ih, ih (nextDepth 0 c), nextDepth_eq,
      Int.add_assoc]

theorem braceDepth_cons (c : Char) (m : List Char) :
    braceDepth (c :: m) = nextDepth 0 c + braceDepth m := foldl_nextDepth (nextDepth 0 c) m

theorem braceDepth_append (m n : List Char) :
    braceDepth (m ++ n) = braceDepth m + braceDepth n := by
  rw [braceDepth, List.foldl_append, foldl_nextDepth]
  rfl

theorem nextDepth_of_not_bracket (hc : isBracket c = false) : nextDepth 0 c = 0 := by
  unfold nextDepth
  split_ifs with hopen hclose
  · rw [hopen] at hc
    exact absurd hc (by decide)
  · rw [hclose] at hc
    exact absurd hc (by decide)
  · rfl

theorem nextDepth_pair (ho : closerOf? o = some c) :
    0 ≤ nextDepth 0 o ∧ nextDepth 0 o + nextDepth 0 c = 0 := by
  rcases closerOf?_eq_some_iff.1 ho with ⟨rfl, rfl⟩ | ⟨rfl, rfl⟩ | ⟨rfl, rfl⟩ <;> decide

/-- A balanced text closes the braces that it opens, -/
theorem Balanced.braceDepth_eq (h : Balanced m) : braceDepth m = 0 := by
  induction h with
  | nil => rfl
  | plain hc _ ih => rw [braceDepth_cons, nextDepth_of_not_bracket hc, ih]; rfl
  | pair ho _ _ ihm ihr =>
    have hpair := (nextDepth_pair ho).2
    rw [braceDepth_cons, braceDepth_append, braceDepth_cons, ihm, ihr]
    omega

/-- and closes none before it opens it. -/
theorem Balanced.braceDepth_prefix (h : Balanced m) {v : List Char} (hu : m = u ++ v) :
    0 ≤ braceDepth u := by
  induction h generalizing u v with
  | nil =>
    obtain ⟨rfl, -⟩ := List.append_eq_nil_iff.1 hu.symm
    exact le_rfl
  | plain hc _ ih =>
    cases u with
    | nil => exact le_rfl
    | cons d u =>
      obtain ⟨rfl, hrest⟩ := List.cons.inj hu
      have hdepth := ih hrest
      rw [braceDepth_cons, nextDepth_of_not_bracket hc]
      omega
  | pair ho hm _ ihm ihr =>
    obtain ⟨hopen, hpair⟩ := nextDepth_pair ho
    cases u with
    | nil => exact le_rfl
    | cons d u =>
      obtain ⟨rfl, hrest⟩ := List.cons.inj hu
      rw [braceDepth_cons]
      rcases List.append_eq_append_iff.1 hrest with ⟨as, rfl, has⟩ | ⟨bs, hbs, -⟩
      · -- The part reaches to the closing bracket of the pair, or over it.
        cases as with
        | nil =>
          rw [List.append_nil, hm.braceDepth_eq]
          omega
        | cons a as =>
          obtain ⟨rfl, hlast⟩ := List.cons.inj has
          have hdepth := ihr hlast
          rw [braceDepth_append, braceDepth_cons, hm.braceDepth_eq]
          omega
      · have hdepth := ihm hbs
        omega

end Depth

/-! ### Steps of the search -/

section Steps

variable {found pos : ℕ} {depth : ℤ} {fresh : Bool} {u g r line : List Char}

/-- Behind a declaration the search goes on at the end of its line. -/
theorem lastDeclarationEnd_span (hu : u ≠ []) (hg : '\n' ∉ g)
    (h : declarationLength? (u ++ ';' :: (g ++ r)) = some (u.length + (g.length + 1))) :
    lastDeclarationEnd found pos depth true 0 (u ++ ';' :: (g ++ r)) =
      lastDeclarationEnd (if depth = 0 then pos + (u.length + (g.length + 1)) else found)
        (pos + (u.length + (g.length + 1))) (depth + braceDepth (u ++ ';' :: g)) false 0 r := by
  obtain ⟨a, u, rfl⟩ := List.exists_cons_of_ne_nil hu
  obtain ⟨x, d, hx, hd⟩ : ∃ x d, ';' :: g = x ++ [d] ∧ d ≠ '\n' := by
    have hconcat := List.dropLast_concat_getLast (List.cons_ne_nil ';' g)
    refine ⟨_, _, hconcat.symm, fun heq => ?_⟩
    have hmem := List.getLast_mem (List.cons_ne_nil ';' g)
    rw [heq] at hmem
    exact hg (by simpa using hmem)
  have hrest : u ++ ';' :: (g ++ r) = (u ++ x) ++ d :: r := by
    rw [← List.cons_append, hx]
    simp
  have hlen := congrArg List.length hx
  simp only [List.length_cons, List.length_append, List.length_nil] at hlen
  have hsize : (a :: u).length + (g.length + 1) - 1 = (u ++ x).length + 1 := by
    simp only [List.length_cons, List.length_append]
    omega
  have hskip := lastDeclarationEnd_skip
    (if depth = 0 then pos + ((a :: u).length + (g.length + 1)) else found) (pos + 1)
    (nextDepth depth a) (a == '\n') (u ++ x) d r
  have hall : (u ++ x) ++ [d] = u ++ ';' :: g := by rw [hx, List.append_assoc]
  rw [hall, foldl_nextDepth, beq_eq_false_iff_ne.2 hd] at hskip
  rw [List.cons_append] at h ⊢
  rw [lastDeclarationEnd]
  rw [if_pos rfl, h]
  dsimp only
  rw [hsize, hrest]
  refine hskip.trans ?_
  rw [List.cons_append, braceDepth_cons, ← Int.add_assoc, ← nextDepth_eq]
  congr 1
  simp only [List.length_cons, List.length_append]
  omega

/-- A line in which no declaration begins is passed over. -/
theorem lastDeclarationEnd_line (hline : '\n' ∉ line)
    (h : fresh = true → declarationLength? (line ++ '\n' :: r) = none) :
    lastDeclarationEnd found pos depth fresh 0 (line ++ '\n' :: r) =
      lastDeclarationEnd found (pos + (line.length + 1)) (depth + braceDepth line) true 0 r := by
  induction line generalizing pos depth fresh with
  | nil =>
    rw [List.nil_append] at h ⊢
    rw [lastDeclarationEnd_of_none h]
    simp [nextDepth, braceDepth]
  | cons c line ih =>
    rw [List.mem_cons, not_or] at hline
    rw [List.cons_append] at h ⊢
    rw [lastDeclarationEnd_of_none h, beq_eq_false_iff_ne.2 (Ne.symm hline.1),
      ih hline.2 fun h => absurd h Bool.false_ne_true, braceDepth_cons, ← Int.add_assoc,
      ← nextDepth_eq, List.length_cons, Nat.add_right_comm, Nat.add_assoc, Nat.add_assoc]

/-- A line break that ends no such line begins the next one. -/
theorem lastDeclarationEnd_break (found pos : ℕ) (depth : ℤ) (r : List Char) :
    lastDeclarationEnd found pos depth false 0 ('\n' :: r) =
      lastDeclarationEnd found (pos + 1) depth true 0 r := by
  rw [lastDeclarationEnd_of_none fun h => absurd h Bool.false_ne_true]
  rfl

/-- The last line, in which no declaration begins, leaves what was found. -/
theorem lastDeclarationEnd_last (hline : '\n' ∉ line)
    (h : fresh = true → declarationLength? line = none) :
    lastDeclarationEnd found pos depth fresh 0 line = found := by
  induction line generalizing pos depth fresh with
  | nil => rfl
  | cons c line ih =>
    rw [List.mem_cons, not_or] at hline
    rw [lastDeclarationEnd_of_none h, beq_eq_false_iff_ne.2 (Ne.symm hline.1),
      ih hline.2 fun h => absurd h Bool.false_ne_true]

end Steps

end ApiScaffold.TypeScript
