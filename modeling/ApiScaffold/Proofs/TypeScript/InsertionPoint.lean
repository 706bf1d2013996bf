import ApiScaffold.Proofs.TypeScript.ImportScan
import ApiScaffold.Proofs.TypeScript.Offsets
import ApiScaffold.Proofs.TypeScript.Tiling
import ApiScaffold.Reconcile

/-!
# The place of new imports

The search for import declarations takes what it finds up to a semicolon, wherever this is, and
counts the braces in front of it, but no other brackets.

* `ImportEnd` is the end of the line of an import declaration outside all brackets;
* `TidyImports` says that each line that begins with the keyword ends with its semicolon, that none
  of them stands in parentheses or square brackets alone, and that no block comment begins behind
  one and goes on in the next line;
* `Settled` is the invariant of the search: what it has found is the greatest of these ends so far;
* `importInsertionPoint_tidy`: so is the place that is found in the end, and it lies at the end of a
  line, in no comment but one that ends there, in no literal, and outside all brackets.
-/

namespace ApiScaffold.TypeScript

/-! ### The search -/

/-- The end of the line of an import declaration outside all brackets. -/
def ImportEnd (masked : List Char) (e : ℕ) : Prop :=
  ∃ n rest, ImportAt masked n rest ∧ Concluded rest ∧ Balanced (masked.take n) ∧
    e + (behindSemicolon rest).length = masked.length

/-- The search has found the greatest of the ends for the lines in front of an offset. -/
structure Settled (masked : List Char) (n found : ℕ) : Prop where
  le : found ≤ n
  ends : found = 0 ∨ ImportEnd masked found
  greatest : ∀ k rest, k < n → ImportAt masked k rest → Balanced (masked.take k) →
    masked.length ≤ found + (behindSemicolon rest).length

section Run

variable {masked u g r x t rest : List Char} {n k found : ℕ}

/-- What stands in front of an offset behind another. -/
theorem take_add_of_drop (hdrop : masked.drop n = x ++ t) {j : ℕ} (hj : j ≤ x.length) :
    masked.take (n + j) = masked.take n ++ x.take j := by
  rw [List.take_add, hdrop, List.take_append_of_le_length hj]

/-- No line begins in a text without a line break. -/
theorem not_fresh_of_drop (hdrop : masked.drop n = x ++ t) (hx : '\n' ∉ x) (hk : n < k)
    (hle : k ≤ n + x.length) : (masked.take k).getLast?.all (· == '\n') = false := by
  obtain ⟨j, rfl⟩ := Nat.exists_eq_add_of_lt hk
  rw [Nat.add_assoc] at hle ⊢
  rw [take_add_of_drop hdrop (Nat.le_of_add_le_add_left hle), List.getLast?_append]
  cases hlast : (x.take (j + 1)).getLast? with
  | none =>
    have hnil := congrArg List.length (List.getLast?_eq_none_iff.1 hlast)
    rw [List.length_take, List.length_nil] at hnil
    omega
  | some c =>
    have hmem := List.mem_of_mem_take (List.mem_of_getLast? hlast)
    exact beq_eq_false_iff_ne.2 fun heq => hx (heq ▸ hmem)

/-- Where no declaration begins the search stays settled to the end of the line. -/
theorem Settled.passed (h : Settled masked n found) (hdrop : masked.drop n = x ++ t)
    (hx : '\n' ∉ x) (hnone : ∀ rest, ¬ImportAt masked n rest) :
    Settled masked (n + (x.length + 1)) found := by
  refine ⟨by have := h.le; omega, h.ends, fun k rest hk hat hbalanced => ?_⟩
  rcases lt_trichotomy k n with hlt | rfl | hgt
  · exact h.greatest k rest hlt hat hbalanced
  · exact absurd hat (hnone rest)
  · have hfresh := hat.fresh
    rw [not_fresh_of_drop hdrop hx hgt (by omega)] at hfresh
    cases hfresh

/-- Two declarations that go on to the same semicolon end with the same line. -/
theorem length_behindSemicolon_eq (hdrop : masked.drop n = u ++ ';' :: (g ++ behindSemicolon rest))
    (hu : ';' ∉ u) (hg : ∀ c ∈ g, isLineBlank c = true) (hrest : Concluded rest) (hk : n ≤ k)
    (hle : k ≤ n + u.length) {rest' : List Char} (hat : ImportAt masked k rest')
    (hrest' : Concluded rest') :
    (behindSemicolon rest').length = (behindSemicolon rest).length := by
  obtain ⟨j, rfl⟩ := Nat.exists_eq_add_of_le hk
  obtain ⟨v, g', hdrop', -, hv, -, hg', -⟩ := hat.exists_span hrest'
  rw [← List.drop_drop, hdrop, List.drop_append_of_le_length (Nat.le_of_add_le_add_left hle)]
    at hdrop'
  have hbefore : ';' ∉ u.drop j := fun hmem => hu (List.mem_of_mem_drop hmem)
  obtain ⟨w, rfl, hw⟩ := exists_append_of_notMem hbefore hdrop'
  cases w with
  | cons c w =>
    obtain rfl := (List.cons.inj hw).1
    exact absurd (by simp) hv
  | nil =>
    have hbehind := (List.cons.inj hw).2
    have hend := lineEnd?_append hg hrest.lineEnds
    rw [hbehind, lineEnd?_append hg' hrest'.lineEnds] at hend
    have hlen := congrArg List.length hbehind
    rw [List.length_append, List.length_append, Option.some.inj hend] at hlen
    omega

/-- Behind a declaration the search is settled again. -/
theorem Settled.span (h : Settled masked n found) (balanced : Balanced masked)
    (tidy : ∀ k rest, ImportAt masked k rest → Concluded rest ∧
      (braceDepth (masked.take k) = 0 → Balanced (masked.take k)))
    (hat : ImportAt masked n rest) {e : ℕ}
    (he : e + (behindSemicolon rest).length = masked.length) :
    Settled masked (e + 1) (if braceDepth (masked.take n) = 0 then e else found) := by
  obtain ⟨hconcluded, houter⟩ := tidy n rest hat
  obtain ⟨u, g, hdrop, -, hu, hbalanced, hg, -⟩ := hat.exists_span hconcluded
  have hlen := congrArg List.length hdrop
  simp only [List.length_drop, List.length_append, List.length_cons] at hlen
  have hle := h.le
  refine ⟨by split_ifs <;> omega, ?_, fun k rest' hk hat' hbalanced' => ?_⟩
  · split_ifs with hdepth
    · exact Or.inr ⟨n, rest, hat, hconcluded, houter hdepth, he⟩
    · exact h.ends
  rcases lt_or_ge k n with hlt | hge
  · have hgreatest := h.greatest k rest' hlt hat' hbalanced'
    split_ifs <;> omega
  -- The line begins in front of the semicolon, since there is no line break behind it.
  have hreach : k ≤ n + u.length := by
    by_contra hgt
    have hdrop' : masked.drop (n + u.length) = (';' :: g) ++ behindSemicolon rest := by
      rw [← List.drop_drop, hdrop, List.drop_left]
      rfl
    have hline : '\n' ∉ ';' :: g := by
      simp only [List.mem_cons, not_or]
      exact ⟨by decide, fun hmem => absurd (hg _ hmem) (by decide)⟩
    have hfresh := hat'.fresh
    rw [not_fresh_of_drop hdrop' hline (by omega) (by rw [List.length_cons]; omega)] at hfresh
    cases hfresh
  have hsame :=
    length_behindSemicolon_eq hdrop hu hg hconcluded hge hreach hat' (tidy k rest' hat').1
  -- Nor is it outside all brackets if the declaration is not.
  have hdepth : braceDepth (masked.take n) = 0 := by
    obtain ⟨j, rfl⟩ := Nat.exists_eq_add_of_le hge
    have hzero := hbalanced'.braceDepth_eq
    rw [take_add_of_drop hdrop (Nat.le_of_add_le_add_left hreach), braceDepth_append] at hzero
    have hbefore := balanced.braceDepth_prefix (List.take_append_drop n masked).symm
    have hinside := hbalanced.braceDepth_prefix (List.take_append_drop j u).symm
    omega
  rw [if_pos hdepth]
  omega

/-- The line behind a line break. -/
theorem next_line (hdrop : masked.drop n = x ++ '\n' :: t) :
    masked.drop (n + (x.length + 1)) = t ∧
      (masked.take (n + (x.length + 1))).getLast?.all (· == '\n') = true ∧
      braceDepth (masked.take (n + (x.length + 1))) =
        braceDepth (masked.take n) + braceDepth x := by
  have hsplit : masked.drop n = (x ++ ['\n']) ++ t := by rw [hdrop, List.append_assoc]; rfl
  have hlen : x.length + 1 = (x ++ ['\n']).length := by simp
  rw [hlen, take_add_of_drop hsplit le_rfl, List.take_length, ← List.drop_drop, hsplit,
    List.drop_left, ← List.append_assoc, braceDepth_append, braceDepth_append]
  refine ⟨rfl, by simp, ?_⟩
  rw [show braceDepth ['\n'] = 0 by decide, Int.add_zero]

/-- **The search stays settled to the end of the text.** -/
theorem settled_lastDeclarationEnd (balanced : Balanced masked)
    (tidy : ∀ k rest, ImportAt masked k rest → Concluded rest ∧
      (braceDepth (masked.take k) = 0 → Balanced (masked.take k)))
    (h : Settled masked n found) (hn : n ≤ masked.length)
    (fresh : (masked.take n).getLast?.all (· == '\n') = true) :
    Settled masked (masked.length + 1)
      (lastDeclarationEnd found n (braceDepth (masked.take n)) true 0 (masked.drop n)) := by
  induction hsize : masked.length - n using Nat.strong_induction_on generalizing n found with
  | _ size ih =>
    -- The search goes on with the next line.
    have later : ∀ {x t found'}, masked.drop n = x ++ '\n' :: t →
        Settled masked (n + (x.length + 1)) found' →
        Settled masked (masked.length + 1) (lastDeclarationEnd found' (n + (x.length + 1))
          (braceDepth (masked.take n) + braceDepth x) true 0 t) := by
      intro x t found' hdrop h'
      obtain ⟨hnext, hfresh, hdepth⟩ := next_line hdrop
      have hlen := congrArg List.length hdrop
      simp only [List.length_drop, List.length_append, List.length_cons] at hlen
      rw [← hnext, ← hdepth]
      exact ih _ (by omega) h' (by omega) hfresh rfl
    by_cases hat : ∃ rest, ImportAt masked n rest
    · obtain ⟨rest, hat⟩ := hat
      obtain ⟨hconcluded, -⟩ := tidy n rest hat
      obtain ⟨u, g, hdrop, hne, -, -, hg, hlength⟩ := hat.exists_span hconcluded
      have hlen := congrArg List.length hdrop
      simp only [List.length_drop, List.length_append, List.length_cons] at hlen
      have hline : '\n' ∉ g := fun hmem => absurd (hg _ hmem) (by decide)
      have hspan := h.span balanced tidy hat (e := n + (u.length + (g.length + 1))) (by omega)
      rw [hdrop] at hlength
      rw [hdrop, lastDeclarationEnd_span hne hline hlength]
      cases hbehind : behindSemicolon rest with
      | nil =>
        rw [hbehind, List.length_nil] at hlen
        rwa [show n + (u.length + (g.length + 1)) = masked.length by omega] at hspan ⊢
      | cons c r =>
        have hend := hconcluded.lineEnds
        rw [hbehind] at hend hdrop
        obtain rfl : c = '\n' := by simpa [LineEnds] using hend
        rw [lastDeclarationEnd_break]
        have hsplit : masked.drop n = (u ++ ';' :: g) ++ '\n' :: r := by
          rw [hdrop, List.append_assoc]
          rfl
        have hplace : n + (u.length + (g.length + 1)) + 1 =
            n + ((u ++ ';' :: g).length + 1) := by
          simp only [List.length_append, List.length_cons]
          omega
        rw [hplace] at hspan ⊢
        exact later hsplit hspan
    · have hnone : ∀ rest, ¬ImportAt masked n rest := fun rest hrest => hat ⟨rest, hrest⟩
      have hnot : declarationLength? (masked.drop n) = none := by
        by_contra hsome
        exact hat (exists_importAt fresh hsome)
      by_cases hbreak : '\n' ∈ masked.drop n
      · obtain ⟨x, t, hdrop, hx⟩ := List.eq_append_cons_of_mem hbreak
        rw [hdrop] at hnot
        rw [hdrop, lastDeclarationEnd_line hx fun _ => hnot]
        exact later hdrop (h.passed hdrop hx hnone)
      · rw [lastDeclarationEnd_last hbreak fun _ => hnot]
        have hlast := h.passed (List.append_nil _).symm hbreak hnone
        rwa [List.length_drop, show n + (masked.length - n + 1) = masked.length + 1 by omega]
          at hlast

end Run

/-! ### Comments -/

/-- Whether the next character belongs to a block comment. -/
def Mode.isBlockComment : Mode → Bool
  | .blockOpen _ | .block _ _ => true
  | _ => false

/-- Code, or a comment. -/
def Mode.NoLiteral : Mode → Prop
  | .code | .lineComment | .blockOpen _ | .block _ _ => True
  | _ => False

section Modes

variable {source g t : List Char} {c : Char} {i : ℕ}

/-- What the mask shows in code but for a comment or a regular expression. -/
theorem shown_code_cases {s : ScanState} (hs : s.mode = .code) (c : Char) (r : List Char) :
    shown s c r = c ∧ (modeAfterCode s c r = .code ∨ isQuote c = true) ∨
      shown s c r = ' ' ∧ (modeAfterCode s c r).NoLiteral ∨ shown s c r = '\x22' := by
  rw [shown, hs]
  dsimp only
  by_cases hquote : isQuote c = true
  · have hafter : modeAfterCode s c r = .quoted c s.line := by simp [modeAfterCode, hquote]
    rw [hafter]
    exact Or.inl ⟨rfl, Or.inr hquote⟩
  · by_cases hslash : c = '/'
    · subst hslash
      rw [modeAfterCode_slash]
      split_ifs
      · exact Or.inr (Or.inl ⟨rfl, trivial⟩)
      · exact Or.inr (Or.inl ⟨rfl, trivial⟩)
      · cases patternEnd? r with
        | none => exact Or.inl ⟨rfl, Or.inl rfl⟩
        | some p => exact Or.inr (Or.inr rfl)
      · exact Or.inl ⟨rfl, Or.inl rfl⟩
    · have hplain : isPlainCode c = true := by
        simp [isPlainCode, Bool.eq_false_iff.2 hquote, hslash]
      rw [modeAfterCode_of_plain hplain]
      exact Or.inl ⟨rfl, Or.inl rfl⟩

/-- Behind a semicolon of the mask the scan is in code. -/
theorem mode_behind_semicolon (h : (mask source)[i]? = some ';') :
    (stateAt source (i + 1)).mode = .code := by
  obtain ⟨c, hc⟩ : ∃ c, source[i]? = some c := by
    have hi := (List.getElem?_eq_some_iff.1 h).1
    rw [length_mask] at hi
    exact ⟨_, List.getElem?_eq_getElem hi⟩
  rw [getElem?_mask_eq_shown hc] at h
  have hshown := Option.some.inj h
  have hmarked : (stateAt source i).mode.Marked :=
    marked_stateAfter (show ScanState.start.mode.Marked from trivial) _ _
  have hcode := mode_eq_code_of_shown hmarked (by decide) (by decide) (by decide) hshown
  rw [stateAt_succ hc, ScanState.next, nextMode, hcode]
  dsimp only
  rcases shown_code_cases hcode c (source.drop (i + 1)) with
    ⟨hsame, hafter | hquote⟩ | ⟨hspace, -⟩ | hmark
  · exact hafter
  · rw [← hsame, hshown] at hquote
    exact absurd hquote (by decide)
  · rw [hspace] at hshown
    exact absurd hshown (by decide)
  · rw [hmark] at hshown
    exact absurd hshown (by decide)

/-- A blank of the mask begins no literal. -/
theorem noLiteral_behind_blank (hmode : (stateAt source i).mode.NoLiteral)
    (h : (mask source)[i]? = some c) (hc : isLineBlank c = true) :
    (stateAt source (i + 1)).mode.NoLiteral := by
  obtain ⟨d, hd⟩ : ∃ d, source[i]? = some d := by
    have hi := (List.getElem?_eq_some_iff.1 h).1
    rw [length_mask] at hi
    exact ⟨_, List.getElem?_eq_getElem hi⟩
  rw [getElem?_mask_eq_shown hd] at h
  have hshown := Option.some.inj h
  rw [stateAt_succ hd, ScanState.next, nextMode]
  generalize hs : stateAt source i = s at *
  dsimp only
  cases hm : s.mode with
  | code =>
    dsimp only
    rcases shown_code_cases hm d (source.drop (i + 1)) with
      ⟨hsame, hafter | hquote⟩ | ⟨-, hafter⟩ | hmark
    · rw [hafter]
      trivial
    · rw [← hsame, hshown] at hquote
      simp only [isLineBlank, Bool.or_eq_true, beq_iff_eq] at hc
      rcases hc with rfl | rfl <;> exact absurd hquote (by decide)
    · exact hafter
    · rw [← hshown, hmark] at hc
      exact absurd hc (by decide)
  | lineComment => dsimp only; split_ifs <;> trivial
  | blockOpen => trivial
  | block => dsimp only; split_ifs <;> trivial
  | _ =>
    rw [hm] at hmode
    exact hmode.elim

/-- Behind blanks of the mask it is in code or in a comment. -/
theorem noLiteral_behind_blanks (hmode : (stateAt source i).mode.NoLiteral)
    (h : (mask source).drop i = g ++ t) (hg : ∀ c ∈ g, isLineBlank c = true) :
    (stateAt source (i + g.length)).mode.NoLiteral := by
  induction g generalizing i with
  | nil => exact hmode
  | cons c g ih =>
    have hat : (mask source)[i]? = some c := by
      rw [← List.head?_drop, h]
      rfl
    have hrest : (mask source).drop (i + 1) = g ++ t := by
      rw [← List.drop_drop, h]
      rfl
    have hnext := ih (noLiteral_behind_blank hmode hat (hg c (List.mem_cons_self ..))) hrest
      fun d hd => hg d (List.mem_cons_of_mem c hd)
    rwa [List.length_cons, Nat.add_comm g.length, ← Nat.add_assoc]

end Modes

/-! ### The place that is found -/

section Place

variable {source masked rest : List Char} {n e : ℕ}

theorem ImportAt.lt_length (hat : ImportAt masked n rest) (hc : Concluded rest) :
    n + (behindSemicolon rest).length < masked.length := by
  obtain ⟨u, g, hdrop, -⟩ := hat.exists_span hc
  have hlen := congrArg List.length hdrop
  simp only [List.length_drop, List.length_append, List.length_cons] at hlen
  omega

/-- The end of the line of a declaration comes behind its semicolon and blanks. -/
theorem ImportAt.exists_semicolon (hat : ImportAt masked n rest) (hc : Concluded rest)
    (he : e + (behindSemicolon rest).length = masked.length) :
    ∃ i g, e = i + 1 + g.length ∧ masked[i]? = some ';' ∧
      masked.drop (i + 1) = g ++ behindSemicolon rest ∧ (∀ c ∈ g, isLineBlank c = true) ∧
      (Balanced (masked.take n) → Balanced (masked.take e)) := by
  obtain ⟨u, g, hdrop, -, -, hu, hg, -⟩ := hat.exists_span hc
  have hlen := congrArg List.length hdrop
  simp only [List.length_drop, List.length_append, List.length_cons] at hlen
  have hbehind : masked.drop (n + u.length) = ';' :: (g ++ behindSemicolon rest) := by
    rw [← List.drop_drop, hdrop, List.drop_left]
  refine ⟨n + u.length, g, by omega, ?_, ?_, hg, fun hbalanced => ?_⟩
  · rw [← List.head?_drop, hbehind]
    rfl
  · rw [← List.drop_drop, hbehind]
    rfl
  · have hsplit : masked.drop n = (u ++ ';' :: g) ++ behindSemicolon rest := by
      rw [hdrop, List.append_assoc]
      rfl
    have hspan : e = n + (u ++ ';' :: g).length := by
      simp only [List.length_append, List.length_cons]
      omega
    have hblank : Balanced g := .of_plain fun c hc => by
      have hline := hg c hc
      simp only [isLineBlank, Bool.or_eq_true, beq_iff_eq] at hline
      rcases hline with rfl | rfl <;> decide
    rw [hspan, take_add_of_drop hsplit le_rfl, List.take_length]
    exact hbalanced.append (hu.append (.plain (by decide) hblank))

/-- The lines of a text are those of its mask. -/
theorem lineEnds_of_mask (h : LineEnds ((mask source).drop e)) : LineEnds (source.drop e) := by
  rw [LineEnds, List.head?_drop] at h ⊢
  cases hc : source[e]? with
  | none => rfl
  | some c =>
    obtain ⟨d, hd⟩ : ∃ d, (mask source)[e]? = some d := by
      have hlt := (List.getElem?_eq_some_iff.1 hc).1
      rw [← length_mask source] at hlt
      exact ⟨_, List.getElem?_eq_getElem hlt⟩
    rw [hd] at h
    obtain rfl : d = '\n' := by simpa using h
    have hbreak := ((mask_offsets source).2.1 e).1 hd
    rw [hc] at hbreak
    rw [hbreak]
    rfl

/-- A place outside all brackets does not lie in the body of a class. -/
theorem outside_of_balanced_take (balanced : Balanced masked) (h : Balanced (masked.take e))
    {name : String} {body : ClassBody} (found : findBody? name masked = some body) :
    e ≤ body.opening ∨ body.closing < e := by
  by_contra hinside
  push Not at hinside
  have hclosed := (tiled_of_findBody? balanced found).closed
  have hnone : openOffsets masked e = [] := by
    have htake : masked.zipIdx.take e = (masked.take e).zipIdx :=
      List.ext_getElem? fun i => by
        rw [List.getElem?_take, List.getElem?_zipIdx, List.getElem?_zipIdx, List.getElem?_take]
        split_ifs <;> rfl
    rw [openOffsets, openBrackets, htake, h.foldl_pushPop]
    rfl
  exact notMem_openOffsets (by rw [hnone]; exact List.not_mem_nil) hinside.1 hinside.2 hclosed.mem

end Place

/-- Each line that begins with the keyword ends with its semicolon. Outside all braces it stands
outside all brackets, and no block comment begins behind it and goes on in the next line. -/
def TidyImports (source : List Char) : Prop :=
  ∀ n rest, ImportAt (mask source) n rest → Concluded rest ∧
    (braceDepth ((mask source).take n) = 0 → Balanced ((mask source).take n) ∧
      (stateAt source (source.length - (behindSemicolon rest).length)).mode.isBlockComment = false)

instance instDecidableTidyImports (source : List Char) : Decidable (TidyImports source) :=
  decidable_of_iff (∀ n < source.length, ∀ rest ∈ afterImport? ((mask source).drop n),
      ImportAt (mask source) n rest → Concluded rest ∧
        (braceDepth ((mask source).take n) = 0 → Balanced ((mask source).take n) ∧
          (stateAt source (source.length - (behindSemicolon rest).length)).mode.isBlockComment =
            false)) <| by
    refine ⟨fun h n rest hat => h n ?_ rest hat.keyword hat, fun h n _ rest _ hat => h n rest hat⟩
    by_contra hn
    have hkeyword := hat.keyword
    rw [List.drop_of_length_le (by rw [length_mask]; omega)] at hkeyword
    cases hkeyword

/-- **The place of new imports** in a text with tidy imports: it is the beginning, and no
declaration stands outside all brackets; or it is the last of the ends of their lines. Then it is
the end of a line, in code or in a line comment that ends there, and outside all brackets. In either
case it does not lie in the body of a class. -/
theorem importInsertionPoint_tidy {source : List Char} (balanced : balanceProblems source = [])
    (tidy : TidyImports source) :
    (importInsertionPoint source = 0 ∧
        (∀ n rest, ImportAt (mask source) n rest → ¬Balanced ((mask source).take n)) ∨
      IsGreatest {e | ImportEnd (mask source) e} (importInsertionPoint source) ∧
        LineEnds (source.drop (importInsertionPoint source)) ∧
        ((stateAt source (importInsertionPoint source)).mode = .code ∨
          (stateAt source (importInsertionPoint source)).mode = .lineComment) ∧
        Balanced ((mask source).take (importInsertionPoint source))) ∧
      ∀ name body, findClass? source name = some body →
        importInsertionPoint source ≤ body.opening ∨
          body.closing < importInsertionPoint source := by
  have hbalanced := balanced_mask balanced
  have hsettled : Settled (mask source) (source.length + 1) (importInsertionPoint source) := by
    have hstart : Settled (mask source) 0 0 :=
      ⟨le_rfl, Or.inl rfl, fun k rest hk => absurd hk (Nat.not_lt_zero k)⟩
    have hend := settled_lastDeclarationEnd hbalanced
      (fun k rest hat => ⟨(tidy k rest hat).1, fun hdepth => ((tidy k rest hat).2 hdepth).1⟩)
      hstart (Nat.zero_le _) rfl
    rwa [length_mask] at hend
  have hsize : (mask source).length = source.length := length_mask source
  have hgreatest : ∀ n rest, ImportAt (mask source) n rest → Balanced ((mask source).take n) →
      source.length ≤ importInsertionPoint source + (behindSemicolon rest).length := by
    intro n rest hat houter
    have hlt := hat.lt_length (tidy n rest hat).1
    have hall := hsettled.greatest n rest (by omega) hat houter
    omega
  rcases hsettled.ends with hzero | ⟨n, rest, hat, hconcluded, houter, he⟩
  · refine ⟨Or.inl ⟨hzero, fun n rest hat houter => ?_⟩, fun name body _ => Or.inl (by omega)⟩
    have hlt := hat.lt_length (tidy n rest hat).1
    have hall := hgreatest n rest hat houter
    omega
  · obtain ⟨i, g, hi, hsemicolon, hbehind, hg, htake⟩ := hat.exists_semicolon hconcluded he
    have hplace := htake houter
    refine ⟨Or.inr ⟨⟨⟨n, rest, hat, hconcluded, houter, he⟩, ?_⟩, ?_, ?_, hplace⟩,
      fun name body found => outside_of_balanced_take hbalanced hplace found⟩
    · rintro e ⟨k, rest', hat', -, houter', he'⟩
      have hall := hgreatest k rest' hat' houter'
      omega
    · refine lineEnds_of_mask ?_
      rw [hi, ← List.drop_drop, hbehind, List.drop_left]
      exact hconcluded.lineEnds
    · -- What follows the semicolon in its line can only be a comment.
      have hcode : (stateAt source (i + 1)).mode.NoLiteral := by
        rw [mode_behind_semicolon hsemicolon]
        trivial
      have hmode := noLiteral_behind_blanks hcode hbehind hg
      obtain ⟨-, hcomment⟩ := (tidy n rest hat).2 houter.braceDepth_eq
      rw [show source.length - (behindSemicolon rest).length = importInsertionPoint source by omega]
        at hcomment
      rw [← hi] at hmode
      generalize (stateAt source (importInsertionPoint source)).mode = mode at hmode hcomment
      cases mode with
      | code => exact Or.inl rfl
      | lineComment => exact Or.inr rfl
      | blockOpen => cases hcomment
      | block => cases hcomment
      | _ => exact hmode.elim

/-- Two import declarations, one of them with a comment behind it and the other over several lines,
and a call of the keyword in the body of a method. -/
def tidySource : List Char :=
  ["import \x7b A \x7d from \x22./a\x22; // a\n", "import \x7b\n  B\n\x7d from \x22./b\x22;\n",
    "class C \x7b\n  d() \x7b\n", "    import(\x22./e\x22);\n  \x7d\n\x7d\n"].flatMap String.toList

theorem importInsertionPoint_tidySource :
    (balanceProblems tidySource = [] ∧ TidyImports tidySource) ∧
      IsGreatest {e | ImportEnd (mask tidySource) e} 56 ∧ LineEnds (tidySource.drop 56) ∧
      ∀ name body, findClass? tidySource name = some body →
        56 ≤ body.opening ∨ body.closing < 56 := by
  have balanced : balanceProblems tidySource = [] := by decide +kernel
  have tidy : TidyImports tidySource := by decide +kernel
  have point : importInsertionPoint tidySource = 56 := by decide +kernel
  obtain ⟨hplace, hclass⟩ := importInsertionPoint_tidy balanced tidy
  rw [point] at hplace hclass
  rcases hplace with ⟨hzero, -⟩ | ⟨hgreatest, hline, -⟩
  · cases hzero
  · exact ⟨⟨balanced, tidy⟩, hgreatest, hline, hclass⟩

/-- An import declaration without a semicolon, above a class. -/
def bareImport : List Char :=
  ["import \x7b Pet \x7d from \x22./pet\x22\n", "class A \x7b\n  count = 1;\n",
    "\x7d\n"].flatMap String.toList

/-- A service that lacks an import there. -/
def ownedService : Service where
  name := "A"
  description := ""
  methods := []
  imports := [⟨"Owner", "@/models/Owner"⟩]

/-- An import declaration with a comment behind it that goes on in the next line. -/
def remarkedImport : List Char :=
  ["import \x7b Pet \x7d from \x22./pet\x22; /* a\n b */\n",
    "class A \x7b\n\x7d\n"].flatMap String.toList

/-- An import declaration over several lines with a call behind it. -/
def crowdedImport : List Char :=
  ["import \x7b\n  Pet\n\x7d from \x22./pet\x22; run();\n",
    "class A \x7b\n\x7d\n"].flatMap String.toList

/-- A call of the keyword in square brackets. -/
def calledImport : List Char :=
  ["load([\n  import(\x22./a\x22)\n", "], () => \x7b\n  run();\n\x7d);\n",
    "class A \x7b\n\x7d\n"].flatMap String.toList

/-- Behind a declaration without a semicolon the place lies in the body of a class, and an import is
put there, while the text passes all checks. It lies in a comment that begins behind the semicolon
and goes on in the next line; in the braces of the declaration itself, if code follows its semicolon
in the line; and in braces behind a call of the keyword in square brackets. -/
theorem importInsertionPoint_astray :
    (balanceProblems bareImport = [] ∧
        ∃ body ∈ findClass? bareImport "A", body.opening < importInsertionPoint bareImport ∧
          importInsertionPoint bareImport ≤ body.closing ∧
          Splice.apply bareImport (Reconcile.changes {} ownedService bareImport body).edits =
            ["import \x7b Pet \x7d from \x22./pet\x22\n", "class A \x7b\n  count = 1;\n",
              "import \x7b Owner \x7d from \x22@/models/Owner.ts\x22;\n",
              "\x7d\n"].flatMap String.toList) ∧
      (balanceProblems remarkedImport = [] ∧ (stateAt remarkedImport
        (importInsertionPoint remarkedImport)).mode.isBlockComment = true) ∧
      (balanceProblems crowdedImport = [] ∧
        ¬Balanced ((mask crowdedImport).take (importInsertionPoint crowdedImport))) ∧
      balanceProblems calledImport = [] ∧
        ¬Balanced ((mask calledImport).take (importInsertionPoint calledImport)) := by
  refine ⟨⟨by decide +kernel, ⟨"A", 36, 51, [⟨"count", .property, 37, 50⟩]⟩, by decide +kernel,
      by decide +kernel⟩, ⟨by decide +kernel, by decide +kernel⟩,
    ⟨by decide +kernel, by decide +kernel⟩, ⟨by decide +kernel, by decide +kernel⟩⟩

end ApiScaffold.TypeScript
