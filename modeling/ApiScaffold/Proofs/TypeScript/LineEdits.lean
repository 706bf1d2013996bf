import ApiScaffold.Proofs.Splice
import ApiScaffold.Proofs.TypeScript.MethodText
import ApiScaffold.Proofs.TypeScript.Offsets

/-!
# Edits that put in lines

What an edit leaves alone may still be scanned in another way afterwards: whether a slash divides or
begins a regular expression depends on what stands around it. Edits that take whole lines change
nothing of the kind.

* `Rests` says that the scan of a text ends outside literals and block comments; `Rests.scan_eq`: it
  is the same scan if a line break follows instead;
* `Below` are states that differ in what was read before a line began; `Below.scan_eq`: they mask
  the same text alike;
* `Clear` is an edit that puts in lines of code, be it in the place of others or above the text;
* `mask_apply`: clear edits do to the mask what they do to the text.
-/

namespace ApiScaffold.TypeScript

open Splice

/-! ### Modes at the end of a line -/

/-- Code, or a comment up to the end of the line: a line break there is one of code. -/
def Mode.Free : Mode → Prop
  | .code | .lineComment => True
  | _ => False

instance instDecidableFree (m : Mode) : Decidable m.Free := by
  cases m <;> unfold Mode.Free <;> infer_instance

theorem Mode.Free.eq {m : Mode} (h : m.Free) : m = .code ∨ m = .lineComment := by
  cases m with
  | code => exact Or.inl rfl
  | lineComment => exact Or.inr rfl
  | _ => exact h.elim

/-- The number of characters of a regular expression that are still to come. -/
def Mode.patternRest : Mode → ℕ
  | .pattern body flags => body + 1 + flags
  | .patternFlags count => count
  | _ => 0

theorem Mode.Free.patternRest_eq {m : Mode} (h : m.Free) : m.patternRest = 0 := by
  rcases h.eq with rfl | rfl <;> rfl

section Lookahead

variable {s : ScanState} {c : Char} {cs t u w r v : List Char} {n flags : ℕ}

theorem patternRest_next (h : 1 < s.mode.patternRest) (c : Char) (r : List Char) :
    (s.next c r).mode.patternRest + 1 = s.mode.patternRest := by
  rw [ScanState.next, nextMode]
  dsimp only
  cases hm : s.mode with
  | pattern body flags =>
    rw [hm] at h
    cases body with
    | zero =>
      have hflags : flags ≠ 0 := by
        rintro rfl
        exact absurd h (by decide)
      dsimp only
      rw [if_neg hflags]
      simp only [Mode.patternRest]
      omega
    | succ body =>
      simp only [Mode.patternRest]
      omega
  | patternFlags count =>
    rw [hm] at h
    have hcount : 1 < count := h
    dsimp only
    rw [if_neg (by omega)]
    simp only [Mode.patternRest]
    omega
  | _ =>
    rw [hm] at h
    exact absurd (show 1 < 0 from h) (by decide)

/-- Inside a regular expression each character takes one off. -/
theorem patternRest_stateAfter (h : t.length < s.mode.patternRest) (r : List Char) :
    (stateAfter r s t).mode.patternRest + t.length = s.mode.patternRest := by
  induction t generalizing s with
  | nil => rfl
  | cons c cs ih =>
    rw [List.length_cons] at h
    have hone : 1 < s.mode.patternRest := by omega
    have hnext := patternRest_next hone c (cs ++ r)
    have hrest := ih (s := s.next c (cs ++ r)) (by omega)
    rw [stateAfter, List.length_cons]
    omega

/-- No line of a regular expression ends but with a backslash. -/
theorem PatternBody.getLast?_of_break {k : Bool} (h : PatternBody k (cs ++ '\n' :: w)) :
    cs.getLast? = some '\\' := by
  generalize hbody : cs ++ '\n' :: w = body at h
  induction h generalizing cs with
  | nil => simp at hbody
  | @escape k c ds h ih =>
    match cs, hbody with
    | [_], hbody => rw [(List.cons.inj hbody).1]; rfl
    | _ :: _ :: cs, hbody =>
      rw [List.cons_append, List.cons_append, List.cons.injEq, List.cons.injEq] at hbody
      have hlast := ih hbody.2.2
      rw [List.getLast?_cons, List.getLast?_cons, hlast]
      rfl
  | openClass _ ih | closeClass _ ih =>
    cases cs with
    | nil => simp at hbody
    | cons d cs =>
      rw [List.getLast?_cons, ih (List.cons.inj hbody).2]
      rfl
  | inClass hc _ ih | plain hc _ ih =>
    cases cs with
    | nil =>
      obtain ⟨rfl, -⟩ := List.cons.inj hbody
      simp at hc
    | cons d cs =>
      rw [List.getLast?_cons, ih (List.cons.inj hbody).2]
      rfl

/-- A regular expression that ends in a text does so whatever follows; one that does not end there
does not go on in the next line. -/
theorem patternEnd?_ahead (hcs : cs.getLast? ≠ some '\\')
    (hinside : ∀ n flags, patternEnd? (cs ++ r) = some (n, flags) → n + 1 + flags ≤ cs.length) :
    patternEnd? (cs ++ '\n' :: v) = patternEnd? (cs ++ r) := by
  have hlength : patternLength? false (cs ++ '\n' :: v) = patternLength? false (cs ++ r) := by
    cases hr : patternLength? false (cs ++ r) with
    | none =>
      by_contra hsome
      obtain ⟨n, hn⟩ := Option.ne_none_iff_exists'.1 hsome
      obtain ⟨body, after, hsplit, -, hbody⟩ := patternBody_of_length? hn
      rcases List.append_eq_append_iff.1 hsplit with ⟨w, rfl, hw⟩ | ⟨w, rfl, hw⟩
      · cases w with
        | nil => exact absurd (List.cons.inj hw).1 (by decide)
        | cons d w =>
          obtain ⟨rfl, -⟩ := List.cons.inj hw
          exact hcs hbody.getLast?_of_break
      · cases w with
        | nil => exact absurd (List.cons.inj hw).1 (by decide)
        | cons d w =>
          obtain ⟨rfl, -⟩ := List.cons.inj hw
          rw [List.append_assoc, List.cons_append, patternLength?_of_body hbody] at hr
          cases hr
    | some n =>
      obtain ⟨body, after, hsplit, rfl, hbody⟩ := patternBody_of_length? hr
      have hle := hinside body.length _ (by rw [patternEnd?, hr]; rfl)
      obtain ⟨w, rfl⟩ : body ++ ['/'] <+: cs :=
        List.prefix_of_prefix_length_le ⟨after, by rw [hsplit]; simp⟩ (List.prefix_append cs r)
          (by rw [List.length_append, List.length_singleton]; omega)
      rw [List.append_assoc, List.append_assoc, List.singleton_append]
      exact patternLength?_of_body hbody _
  rw [patternEnd?, patternEnd?, hlength]
  refine Option.map_congr fun n hn => ?_
  -- The flags end in the text as well.
  have hle := hinside n _ (by rw [patternEnd?, hn]; rfl)
  rw [List.drop_append_of_le_length (by omega)] at hle
  rw [List.drop_append_of_le_length (by omega), List.drop_append_of_le_length (by omega),
    List.takeWhile_append, List.takeWhile_append]
  rw [List.takeWhile_append] at hle
  split_ifs at hle ⊢ with hall
  · have hnil : r.takeWhile Text.isIdentifierChar = [] := by
      rw [List.length_append, List.length_drop] at hle
      exact List.eq_nil_of_length_eq_zero (by omega)
    rw [hnil]
    rfl
  · rfl

/-- The scan of a text, with what follows it in sight, ends outside literals and block comments: in
code, or in a comment that ends there with its line. -/
structure Rests (s : ScanState) (u r : List Char) : Prop where
  free : (stateAfter r s u).mode.Free
  line : (stateAfter r s u).mode = .lineComment → r.head? = some '\n'
  ne_nil : r ≠ []
  /-- A backslash would take the next character along. -/
  backslash : u.getLast? ≠ some '\\'

theorem Rests.tail (h : Rests s (c :: cs) r) : Rests (s.next c (cs ++ r)) cs r where
  free := h.free
  line := h.line
  ne_nil := h.ne_nil
  backslash := by
    have hlast := h.backslash
    cases cs with
    | nil => simp
    | cons d ds => rwa [List.getLast?_cons_cons] at hlast

/-- A slash at the end of a line divides. -/
theorem modeAfterCode_of_break (s : ScanState) (hr : r.head? = some '\n') :
    modeAfterCode s '/' r = .code := by
  obtain ⟨v, rfl⟩ := List.head?_eq_some_iff.1 hr
  have hnone : patternEnd? ('\n' :: v) = none := rfl
  rw [modeAfterCode_slash, hnone, hr]
  split_ifs with h₁ h₂
  · exact absurd (Option.some.inj h₁) (by decide)
  · exact absurd (Option.some.inj h₂) (by decide)
  · rfl
  · rfl

/-- A slash begins the same there if a line break follows instead. -/
theorem Rests.modeAfterCode_eq (h : Rests s (c :: cs) r) (hs : s.mode = .code) (v : List Char) :
    modeAfterCode s c (cs ++ '\n' :: v) = modeAfterCode s c (cs ++ r) := by
  by_cases hslash : c = '/'
  swap
  · unfold modeAfterCode
    rw [if_neg hslash, if_neg hslash]
  subst hslash
  have hrest := h.tail
  have hmode : (s.next '/' (cs ++ r)).mode = modeAfterCode s '/' (cs ++ r) := by
    rw [ScanState.next, nextMode, hs]
  cases cs with
  | nil =>
    rw [List.nil_append, List.nil_append, @modeAfterCode_of_break ('\n' :: v) s rfl]
    rcases hrest.free.eq with hcode | hline
    · exact (hmode.symm.trans hcode).symm
    · exact (modeAfterCode_of_break s (hrest.line hline)).symm
  | cons d ds =>
    have hinside : ∀ n flags, modeAfterCode s '/' (d :: ds ++ r) = .pattern n flags →
        n + 1 + flags ≤ (d :: ds).length := by
      intro n flags hpattern
      by_contra hlt
      rw [hpattern] at hmode
      have hcount := patternRest_stateAfter (s := s.next '/' (d :: ds ++ r)) (t := d :: ds)
        (by rw [hmode]; exact not_le.1 hlt) r
      rw [hrest.free.patternRest_eq, hmode] at hcount
      simp only [Mode.patternRest, Nat.zero_add] at hcount
      exact hlt hcount.ge
    have hhead : (d :: ds ++ '\n' :: v).head? = (d :: ds ++ r).head? := rfl
    rw [modeAfterCode_slash] at hinside
    rw [modeAfterCode_slash, modeAfterCode_slash, hhead]
    split_ifs at hinside ⊢
    · rfl
    · rfl
    · rw [patternEnd?_ahead hrest.backslash fun n flags hend => hinside n flags (by rw [hend])]
    · rfl

/-- Only in code does a step depend on what follows. -/
theorem next_congr {x y : List Char}
    (h : s.mode = .code → modeAfterCode s c x = modeAfterCode s c y)
    (hempty : x.isEmpty = y.isEmpty) : s.next c x = s.next c y ∧ shown s c x = shown s c y := by
  unfold ScanState.next nextMode nextLast shown
  rw [hempty]
  cases hm : s.mode with
  | code =>
    dsimp only
    rw [h hm]
    exact ⟨rfl, rfl⟩
  | pattern body flags => cases body <;> exact ⟨rfl, rfl⟩
  | _ => exact ⟨rfl, rfl⟩

theorem Rests.next_eq (h : Rests s (c :: cs) r) (v : List Char) :
    s.next c (cs ++ '\n' :: v) = s.next c (cs ++ r) ∧
      shown s c (cs ++ '\n' :: v) = shown s c (cs ++ r) := by
  refine next_congr (fun hs => h.modeAfterCode_eq hs v) ?_
  have hne := h.ne_nil
  cases cs <;> cases r <;> simp_all

/-- The scan of a text that ends so does not depend on what follows, if a line break follows. -/
theorem Rests.scan_eq (h : Rests s u r) (v : List Char) :
    maskBefore ('\n' :: v) s u = maskBefore r s u ∧
      problemsBefore ('\n' :: v) s u = problemsBefore r s u := by
  induction u generalizing s with
  | nil => exact ⟨rfl, rfl⟩
  | cons c cs ih =>
    obtain ⟨hnext, hshown⟩ := h.next_eq v
    obtain ⟨hmask, hproblems⟩ := ih h.tail
    exact ⟨by rw [maskBefore, maskBefore, hnext, hshown, hmask],
      by rw [problemsBefore, problemsBefore, hnext, hproblems]⟩

/-- Nor do the states on the way. -/
theorem Rests.stateAfter_eq (h : Rests s (t ++ u) r) (v : List Char) :
    stateAfter (u ++ '\n' :: v) s t = stateAfter (u ++ r) s t := by
  induction t generalizing s with
  | nil => rfl
  | cons c cs ih =>
    rw [List.cons_append] at h
    have hnext := (h.next_eq v).1
    have hrest := h.tail
    rw [List.append_assoc] at hnext hrest
    rw [List.append_assoc] at hnext
    rw [stateAfter, stateAfter, hnext]
    exact ih hrest

end Lookahead

/-! ### States below a line break -/

/-- What was last read lets a slash open a regular expression, whatever stands in front: nothing, or
a line break. -/
def Fresh (last : Option Char) : Prop := last = none ∨ last = some '\n'

/-- Two states that agree on everything but lines and what was read before the text `x`, in which
something else than blanks has been read since, or a line of code has begun. -/
structure Below (s s' : ScanState) : Prop where
  mode : SameMode s.mode s'.mode
  recent : ∃ x y y' : List Char, s.recent = (x ++ y).take keywordReach ∧
    s'.recent = (x ++ y').take keywordReach ∧ y.head?.any Text.isIdentifierChar = false ∧
    y'.head?.any Text.isIdentifierChar = false ∧
    (s.last = s'.last ∧ (∃ c ∈ x, Text.isBlank c = false) ∨ Fresh s.last ∧ Fresh s'.last)

section Below

variable {s s' : ScanState} {c : Char} {x y y' r : List Char}

theorem takeWhile_append_of_head {p : Char → Bool} (hy : y.head?.any p = false) (x : List Char) :
    (x ++ y).takeWhile p = x.takeWhile p := by
  cases y with
  | nil => rw [List.append_nil]
  | cons d ds =>
    have hd : p d = false := hy
    exact takeWhile_append_of_not hd x ds

/-- An identifier at the end of a text does not reach beyond what is no part of one, if anything but
blanks stands behind. -/
theorem trailingIdentifier_take (hy : y.head?.any Text.isIdentifierChar = false)
    (hy' : y'.head?.any Text.isIdentifierChar = false) (hx : ∃ c ∈ x, Text.isBlank c = false)
    (size : ℕ) :
    trailingIdentifier ((x ++ y).take size).reverse =
      trailingIdentifier ((x ++ y').take size).reverse := by
  have hhead : ∀ {z : List Char}, z.head?.any Text.isIdentifierChar = false →
      ∀ n, (z.take n).head?.any Text.isIdentifierChar = false := by
    intro z hz n
    cases n with
    | zero => rfl
    | succ n =>
      cases z with
      | nil => rfl
      | cons d ds => exact hz
  rcases Nat.lt_or_ge x.length size with hlt | hge
  · have hsize : x.take size = x := List.take_of_length_le hlt.le
    obtain ⟨c, hc, hblank⟩ := hx
    have hdrop : ∀ z : List Char, (x ++ z).dropWhile Text.isBlank =
        x.dropWhile Text.isBlank ++ z := by
      intro z
      obtain ⟨u, v, rfl⟩ := List.append_of_mem hc
      rw [List.append_assoc, List.cons_append, dropWhile_append_of_not hblank,
        dropWhile_append_of_not hblank, List.append_assoc, List.cons_append]
    rw [List.take_append, List.take_append, hsize, trailingIdentifier_reverse,
      trailingIdentifier_reverse, hdrop, hdrop, takeWhile_append_of_head (hhead hy _),
      takeWhile_append_of_head (hhead hy' _)]
  · rw [List.take_append_of_le_length hge, List.take_append_of_le_length hge]

theorem patternAllowed_of_fresh (h : Fresh s.last) : patternAllowed s = true := by
  unfold patternAllowed
  rcases h with h | h
  · rw [h]
  · rw [h]
    rfl

theorem Below.patternAllowed_eq (h : Below s s') : patternAllowed s = patternAllowed s' := by
  obtain ⟨x, y, y', hrecent, hrecent', hy, hy', ⟨hlast, hx⟩ | ⟨hfresh, hfresh'⟩⟩ := h.recent
  · unfold patternAllowed
    rw [hlast, hrecent, hrecent', trailingIdentifier_take hy hy' hx]
  · rw [patternAllowed_of_fresh hfresh, patternAllowed_of_fresh hfresh']

theorem take_cons_take (c : Char) (z : List Char) :
    (c :: z.take keywordReach).take keywordReach = (c :: z).take keywordReach := by
  unfold keywordReach
  rw [List.take_succ_cons, List.take_succ_cons, List.take_take]
  rfl

/-- Two states that go on alike are below a character that is no blank, if not below more. -/
theorem below_next (hmode : SameMode s.mode s'.mode)
    (hcode : SameMode (modeAfterCode s c r) (modeAfterCode s' c r))
    (hrecent : s.recent = (x ++ y).take keywordReach)
    (hrecent' : s'.recent = (x ++ y').take keywordReach)
    (hy : y.head?.any Text.isIdentifierChar = false)
    (hy' : y'.head?.any Text.isIdentifierChar = false)
    (hlast : s.last = s'.last ∧ (∃ e ∈ c :: x, Text.isBlank e = false) ∨
      Fresh s.last ∧ Fresh s'.last) :
    Below (s.next c r) (s'.next c r) := by
  refine ⟨hmode.nextMode hcode, c :: x, y, y', ?_, ?_, hy, hy', ?_⟩
  · rw [ScanState.next, hrecent]
    exact take_cons_take c (x ++ y)
  · rw [ScanState.next, hrecent']
    exact take_cons_take c (x ++ y')
  · rcases hmode.nextLast hcode with ⟨h₁, h₂⟩ | ⟨d, h₁, h₂, hd⟩
    · rw [ScanState.next, ScanState.next, h₁, h₂]
      exact hlast
    · rw [ScanState.next, ScanState.next, h₁, h₂]
      rcases hd with rfl | hblank
      · exact Or.inr ⟨Or.inr rfl, Or.inr rfl⟩
      · exact Or.inl ⟨rfl, c, List.mem_cons_self, hblank⟩

theorem Below.next (h : Below s s') (c : Char) (r : List Char) :
    Below (s.next c r) (s'.next c r) := by
  have hcode : SameMode (modeAfterCode s c r) (modeAfterCode s' c r) :=
    .modeAfterCode h.patternAllowed_eq c rfl rfl
  obtain ⟨x, y, y', hrecent, hrecent', hy, hy', hlast⟩ := h.recent
  refine below_next h.mode hcode hrecent hrecent' hy hy' (hlast.imp_left ?_)
  rintro ⟨hsame, e, he, hblank⟩
  exact ⟨hsame, e, List.mem_cons_of_mem c he, hblank⟩

/-- **Such states mask the same text alike,** and it has problems after the one if it has after the
other. -/
theorem Below.scan_eq (h : Below s s') (t : List Char) :
    maskFrom s t = maskFrom s' t ∧
      (literalProblemsFrom s t = [] ↔ literalProblemsFrom s' t = []) := by
  induction t generalizing s s' with
  | nil =>
    refine ⟨rfl, ?_⟩
    have hmode := h.mode
    unfold literalProblemsFrom ScanState.endProblem
    generalize s.mode = m at hmode
    generalize s'.mode = m' at hmode
    cases hmode <;> simp
  | cons c cs ih =>
    have hcode : SameMode (modeAfterCode s c cs) (modeAfterCode s' c cs) :=
      .modeAfterCode h.patternAllowed_eq c rfl rfl
    obtain ⟨hmask, hproblems⟩ := ih (h.next c cs)
    refine ⟨?_, ?_⟩
    · rw [maskFrom, maskFrom, h.mode.shown hcode rfl, hmask]
    · rw [literalProblemsFrom, literalProblemsFrom, List.append_eq_nil_iff,
        List.append_eq_nil_iff, hproblems, h.mode.lineEndProblem_eq_nil_iff c]

/-- A line of code begins, or the text. -/
structure LineStart (s : ScanState) : Prop where
  mode : s.mode = .code
  last : Fresh s.last
  recent : ∃ y : List Char, s.recent = y.take keywordReach ∧
    y.head?.any Text.isIdentifierChar = false

theorem lineStart_start : LineStart .start := ⟨rfl, Or.inl rfl, [], rfl, rfl⟩

theorem Mode.Free.lineStart (h : s.mode.Free) (r : List Char) : LineStart (s.next '\n' r) := by
  have hstate : (s.next '\n' r).mode = .code ∧ (s.next '\n' r).last = some '\n' := by
    rcases h.eq with hm | hm
    · have hafter : modeAfterCode s '\n' r = .code := modeAfterCode_of_plain (by decide) s r
      rw [ScanState.next, nextMode, nextLast, hm, hafter]
      exact ⟨rfl, rfl⟩
    · rw [ScanState.next, nextMode, nextLast, hm]
      exact ⟨rfl, rfl⟩
  exact ⟨hstate.1, Or.inr hstate.2, '\n' :: s.recent, rfl, rfl⟩

/-- Where a line begins, what stands in front makes no difference. -/
theorem LineStart.below (h : LineStart s) (h' : LineStart s') : Below s s' := by
  obtain ⟨y, hy, hhead⟩ := h.recent
  obtain ⟨y', hy', hhead'⟩ := h'.recent
  exact ⟨by rw [h.mode, h'.mode]; exact .refl _, [], y, y', hy, hy', hhead, hhead',
    Or.inr ⟨h.last, h'.last⟩⟩

end Below

/-! ### Edits -/

/-- The scan rests in front of an offset. -/
def RestsAt (source : List Char) (i : ℕ) : Prop := Rests .start (source.take i) (source.drop i)

/-- A line of code ends at an offset. -/
structure BreaksAt (source : List Char) (i : ℕ) : Prop where
  lineBreak : source[i]? = some '\n'
  free : (stateAt source i).mode.Free

instance instDecidableRestsAt (source : List Char) (i : ℕ) : Decidable (RestsAt source i) :=
  decidable_of_iff ((stateAt source i).mode.Free ∧
      ((stateAt source i).mode = .lineComment → (source.drop i).head? = some '\n') ∧
      source.drop i ≠ [] ∧ (source.take i).getLast? ≠ some '\\')
    ⟨fun ⟨h₁, h₂, h₃, h₄⟩ => ⟨h₁, h₂, h₃, h₄⟩, fun ⟨h₁, h₂, h₃, h₄⟩ => ⟨h₁, h₂, h₃, h₄⟩⟩

instance instDecidableBreaksAt (source : List Char) (i : ℕ) : Decidable (BreaksAt source i) :=
  decidable_of_iff (source[i]? = some '\n' ∧ (stateAt source i).mode.Free)
    ⟨fun ⟨h₁, h₂⟩ => ⟨h₁, h₂⟩, fun ⟨h₁, h₂⟩ => ⟨h₁, h₂⟩⟩

/-- A text that can be put in where the scan rests, if a line break follows: none, or lines of
code. -/
def IsLines (t : List Char) : Prop :=
  t = [] ∨ ∃ u m, t = '\n' :: u ∧ Piece u m LineBreakAhead

/-- The mask of such a text. -/
def maskedLine (t : List Char) : List Char := maskBefore ['\n'] .start t

section Replace

variable {source t v : List Char} {s s' : ScanState} {a b i : ℕ}

theorem shown_break (h : s.mode.Free) (r : List Char) : shown s '\n' r = '\n' := by
  rcases h.eq with hm | hm
  · exact shown_of_plain hm (by decide) r
  · rw [shown, hm]
    rfl

theorem mode_next_break (h : s.mode.Free) (r : List Char) : (s.next '\n' r).mode = .code := by
  rcases h.eq with hm | hm
  · exact mode_next_of_plain hm (by decide) r
  · rw [ScanState.next, nextMode, hm]
    rfl

theorem lineEndProblem_of_free (h : s.mode.Free) (c : Char) : lineEndProblem s c = [] := by
  rcases h.eq with hm | hm <;> rw [lineEndProblem, hm]

/-- What follows a line break is scanned alike from all states that rest. -/
theorem Mode.Free.scan_eq (h : s.mode.Free) (h' : s'.mode.Free) (v : List Char) :
    maskFrom s ('\n' :: v) = maskFrom s' ('\n' :: v) ∧
      (literalProblemsFrom s ('\n' :: v) = [] ↔ literalProblemsFrom s' ('\n' :: v) = []) := by
  obtain ⟨hmask, hproblems⟩ := ((h.lineStart v).below (h'.lineStart v)).scan_eq v
  rw [maskFrom, maskFrom, shown_break h, shown_break h', hmask, literalProblemsFrom,
    literalProblemsFrom, lineEndProblem_of_free h, lineEndProblem_of_free h']
  exact ⟨rfl, hproblems⟩

theorem maskedLine_cons {u m : List Char} (hu : Piece u m LineBreakAhead) :
    maskedLine ('\n' :: u) = '\n' :: m := by
  have hcode : (ScanState.start.next '\n' (u ++ ['\n'])).mode = .code :=
    mode_next_break (s := .start) trivial _
  rw [maskedLine, maskBefore, shown_break (s := .start) trivial, (hu _ _ hcode ⟨[], rfl⟩).1]

/-- Lines that are put in leave the scan at rest. -/
theorem IsLines.scan (ht : IsLines t) (hs : s.mode.Free) (v : List Char) :
    ∃ s', s'.mode.Free ∧
      maskFrom s (t ++ '\n' :: v) = maskedLine t ++ maskFrom s' ('\n' :: v) ∧
      literalProblemsFrom s (t ++ '\n' :: v) = literalProblemsFrom s' ('\n' :: v) := by
  rcases ht with rfl | ⟨u, m, rfl, hu⟩
  · exact ⟨s, hs, rfl, rfl⟩
  · have hpiece := hu (s.next '\n' (u ++ '\n' :: v)) ('\n' :: v) (mode_next_break hs _) ⟨v, rfl⟩
    refine ⟨stateAfter ('\n' :: v) (s.next '\n' (u ++ '\n' :: v)) u, ?_, ?_, ?_⟩
    · rw [hpiece.2.1]
      trivial
    · rw [List.cons_append, maskFrom, shown_break hs, maskFrom_append, hpiece.1,
        maskedLine_cons hu, List.cons_append]
    · rw [List.cons_append, literalProblemsFrom, lineEndProblem_of_free hs,
        literalProblemsFrom_append, hpiece.2.2]
      rfl

theorem IsLines.head (ht : IsLines t) (v : List Char) : ∃ w, t ++ '\n' :: v = '\n' :: w := by
  rcases ht with rfl | ⟨u, m, rfl, -⟩
  · exact ⟨v, rfl⟩
  · exact ⟨u ++ '\n' :: v, rfl⟩

theorem IsLines.append_break (ht : IsLines t) (hne : t ≠ []) : IsLines (t ++ ['\n']) := by
  rcases ht with rfl | ⟨u, m, rfl, hu⟩
  · exact absurd rfl hne
  · have hbreak : Piece ['\n'] ['\n'] LineBreakAhead := Piece.of_all rfl
    exact Or.inr ⟨u ++ ['\n'], m ++ ['\n'], rfl, hu.append hbreak fun r _ => ⟨r, rfl⟩⟩

/-- Methods below each other are lines of code. -/
theorem isLines_textOf {es : List MethodText} (h : ∀ e ∈ es, e.Sound) : IsLines (textOf es) := by
  cases es with
  | nil => exact Or.inl rfl
  | cons e es =>
    have he := h e List.mem_cons_self
    have hes : ∀ e ∈ es, e.Sound := fun e he => h e (List.mem_cons_of_mem _ he)
    obtain ⟨lead, hlead⟩ := List.head?_eq_some_iff.1 he.lineBreak
    have hplain : ∀ c ∈ lead, isPlainCode c = true := fun c hc =>
      he.lead_plain c (hlead ▸ List.mem_cons_of_mem _ hc)
    refine Or.inr ⟨lead ++ e.around e.body ++ textOf es, _, ?_,
      (he.piece_around hplain).append (piece_textOf hes) fun r hr => lineBreakAhead_textOf hes hr⟩
    rw [textOf_cons, MethodText.text, hlead]
    rfl

theorem maskedLine_of_piece {m : List Char} (h : Piece t m LineBreakAhead) : maskedLine t = m :=
  (h .start ['\n'] rfl ⟨[], rfl⟩).1

theorem maskedLine_textOf {es : List MethodText} (h : ∀ e ∈ es, e.Sound) :
    maskedLine (textOf es) = maskedOf es := maskedLine_of_piece (piece_textOf h)

theorem maskedLine_textOf_break {es : List MethodText} (h : ∀ e ∈ es, e.Sound) :
    maskedLine (textOf es ++ ['\n']) = maskedOf es ++ ['\n'] := by
  have hbreak : Piece ['\n'] ['\n'] LineBreakAhead := Piece.of_all rfl
  exact maskedLine_of_piece ((piece_textOf h).append hbreak fun r _ => ⟨r, rfl⟩)

/-- The text behind a place where a line ends. -/
theorem BreaksAt.exists_drop (h : BreaksAt source i) : ∃ v, source.drop i = '\n' :: v := by
  obtain ⟨hi, hc⟩ := List.getElem?_eq_some_iff.1 h.lineBreak
  exact ⟨source.drop (i + 1), by rw [List.drop_eq_getElem_cons hi, hc]⟩

/-- **The mask of an edited text.** Where a part of the text between a place at which the scan rests
and the end of a line is replaced by lines, so it is in the mask. -/
theorem mask_replace (ha : RestsAt source a) (hb : BreaksAt source b) (ht : IsLines t) :
    mask (source.take a ++ t ++ source.drop b) =
        (mask source).take a ++ maskedLine t ++ (mask source).drop b ∧
      (literalProblems source = [] →
        literalProblems (source.take a ++ t ++ source.drop b) = []) := by
  obtain ⟨v, hv⟩ := hb.exists_drop
  obtain ⟨w, hw⟩ := ht.head v
  have hstate : stateAfter ('\n' :: w) .start (source.take a) = stateAt source a := by
    have hsame := Rests.stateAfter_eq (u := []) (by rwa [List.append_nil]) w
    exact hsame
  obtain ⟨hmask, hproblems⟩ := Rests.scan_eq ha w
  have hrest : (stateAt source a).mode.Free := ha.free
  obtain ⟨s', hfree, hmask', hproblems'⟩ := ht.scan hrest v
  have hbelow := hfree.scan_eq hb.free v
  rw [take_mask, drop_mask, hv, List.append_assoc, List.append_assoc, hw]
  constructor
  · rw [mask, maskFrom_append, hmask, hstate, ← hw, hmask', hbelow.1]
  · intro hnone
    have hfront := (List.append_eq_nil_iff.1 ((literalProblems_split source a).symm.trans hnone)).1
    have hback := (List.append_eq_nil_iff.1 ((literalProblems_split source b).symm.trans hnone)).2
    rw [hv] at hback
    rw [literalProblems, literalProblemsFrom_append, hproblems, hfront, hstate, ← hw, hproblems',
      hbelow.2.2 hback]
    rfl

/-- Lines of code, with the line break behind the last of them. -/
def LinesAbove (t : List Char) : Prop := ∃ u m, t = u ++ ['\n'] ∧ Piece u m LineBreakAhead

/-- **The mask of a text with other lines above it** has their mask above. -/
theorem mask_top (ht : LinesAbove t) (source : List Char) :
    mask (t ++ source) = maskedLine t ++ mask source ∧
      (literalProblems source = [] → literalProblems (t ++ source) = []) := by
  obtain ⟨u, m, rfl, hu⟩ := ht
  have hbreak : Piece ['\n'] ['\n'] fun _ => True := Piece.of_all rfl
  have hpiece := hu.append hbreak fun r _ => ⟨r, rfl⟩
  obtain ⟨hmask, -, hproblems⟩ := hpiece .start source rfl trivial
  have hfree : (stateAfter (['\n'] ++ source) .start u).mode.Free := by
    rw [(hu .start (['\n'] ++ source) rfl ⟨source, rfl⟩).2.1]
    trivial
  obtain ⟨hrest, hrest'⟩ := ((hfree.lineStart source).below lineStart_start).scan_eq source
  have hmasked : maskedLine (u ++ ['\n']) = m ++ ['\n'] := (hpiece .start ['\n'] rfl trivial).1
  constructor
  · rw [mask, maskFrom_append, hmask, stateAfter_append, hmasked]
    exact congrArg _ hrest
  · intro hnone
    rw [literalProblems, literalProblemsFrom_append, hproblems, stateAfter_append]
    exact hrest'.2 hnone

/-- In front of the edit nothing changes. -/
theorem stateAt_replace (ha : RestsAt source a) (hle : a ≤ source.length) (hi : i ≤ a)
    (ht : ∃ w, t = '\n' :: w) : stateAt (source.take a ++ t) i = stateAt source i := by
  obtain ⟨w, rfl⟩ := ht
  have hlen : (source.take a).length = a := List.length_take_of_le hle
  have hsplit := List.take_append_drop i (source.take a)
  rw [List.take_take, Nat.min_eq_left hi] at hsplit
  have hstate := Rests.stateAfter_eq (t := source.take i) (u := (source.take a).drop i)
    (by rwa [hsplit]) w
  have hdrop : (source.take a).drop i ++ source.drop a = source.drop i := by
    rw [← List.drop_append_of_le_length (by omega), List.take_append_drop]
  rw [stateAt, List.take_append_of_le_length (by omega), List.drop_append_of_le_length (by omega),
    List.take_take, Nat.min_eq_left hi, hstate, hdrop]
  rfl

end Replace

/-- An edit that puts in lines of code: in the place of what stands between a place at which the
scan rests and the end of a line, or above the text. -/
inductive Clear (source : List Char) (e : Edit) : Prop
  | inside {a b : ℕ} (start : e.start = a) (stop : e.stop = b) (le : a ≤ b) (pos : 0 < b)
      (rests : RestsAt source a) (breaks : BreaksAt source b) (lines : IsLines e.text)
  | above (start : e.start = 0) (stop : e.stop = 0) (top : LinesAbove e.text)

section Clear

variable {source : List Char} {e f : Edit} {es : List Edit} {a b : ℕ}

theorem BreaksAt.lt_length (h : BreaksAt source b) : b < source.length :=
  (List.getElem?_eq_some_iff.1 h.lineBreak).1

theorem applyOne_eq (ha : e.start = a) (hb : e.stop = b) (hle : a ≤ b) (hlt : b ≤ source.length) :
    applyOne source e = source.take a ++ e.text ++ source.drop b := by
  rw [applyOne, ha, hb, offset_natCast hlt, offset_natCast (hle.trans hlt)]

theorem Clear.mask_applyOne (h : Clear source e) :
    mask (applyOne source e) = applyOne (mask source) (e.mapText maskedLine) ∧
      (literalProblems source = [] → literalProblems (applyOne source e) = []) := by
  cases h with
  | @inside a b hstart hstop hle _ hrests hbreaks hlines =>
    have hlt := hbreaks.lt_length
    have hmasked : applyOne (mask source) (e.mapText maskedLine) =
        (mask source).take a ++ maskedLine e.text ++ (mask source).drop b :=
      applyOne_eq hstart hstop hle (by rw [length_mask]; exact hlt.le)
    rw [applyOne_eq hstart hstop hle hlt.le, hmasked]
    exact mask_replace hrests hbreaks hlines
  | above hstart hstop htop =>
    have happly : ∀ (cs : List Char) (f : Edit), f.start = 0 → f.stop = 0 →
        applyOne cs f = f.text ++ cs := fun cs f h₁ h₂ => by
      rw [applyOne_eq (a := 0) (b := 0) h₁ h₂ le_rfl (Nat.zero_le _)]
      rfl
    rw [happly _ e hstart hstop, happly _ (e.mapText maskedLine) hstart hstop]
    exact mask_top htop source

/-- What stands up to the place of an edit stays as it is, and a line break behind it. -/
theorem getElem?_replace {w : List Char} {i : ℕ} (ha : a ≤ source.length) (hi : i ≤ a)
    (hbreak : source[i]? = some '\n') : (source.take a ++ '\n' :: w)[i]? = some '\n' := by
  have hlen : (source.take a).length = a := List.length_take_of_le ha
  rcases hi.lt_or_eq with hlt | rfl
  · rw [List.getElem?_append_left (by omega), List.getElem?_take_of_lt hlt, hbreak]
  · rw [List.getElem?_append_right (by omega), hlen, Nat.sub_self]
    rfl

/-- A place in front at which the scan rests stays one. -/
theorem RestsAt.replace {w : List Char} {i : ℕ} (h : RestsAt source i)
    (hrests : RestsAt source a) (ha : a ≤ source.length) (hi : i ≤ a) :
    RestsAt (source.take a ++ '\n' :: w) i := by
  have hsame := stateAt_replace hrests ha hi ⟨w, rfl⟩
  have hlen : (source.take a).length = a := List.length_take_of_le ha
  refine ⟨?_, fun hline => ?_, ?_, ?_⟩
  · change (stateAt _ i).mode.Free
    rw [hsame]
    exact h.free
  · change (stateAt _ i).mode = .lineComment at hline
    rw [hsame] at hline
    have hbreak := h.line hline
    rw [List.head?_drop] at hbreak ⊢
    exact getElem?_replace ha hi hbreak
  · exact List.ne_nil_of_length_pos (by rw [List.length_drop, List.length_append]; simp; omega)
  · rw [List.take_append_of_le_length (by omega), List.take_take, Nat.min_eq_left hi]
    exact h.backslash

/-- The end of a line in front stays one. -/
theorem BreaksAt.replace {w : List Char} {i : ℕ} (h : BreaksAt source i)
    (hrests : RestsAt source a) (ha : a ≤ source.length) (hi : i ≤ a) :
    BreaksAt (source.take a ++ '\n' :: w) i where
  lineBreak := getElem?_replace ha hi h.lineBreak
  free := by
    rw [stateAt_replace hrests ha hi ⟨w, rfl⟩]
    exact h.free

/-- An edit further in front stays clear. -/
theorem Clear.applyOne (h : Clear source e) (hf : Clear source f) (hbefore : f.stop ≤ e.start) :
    Clear (applyOne source e) f := by
  cases hf with
  | above hstart hstop htop => exact .above hstart hstop htop
  | @inside a' b' hstart' hstop' hle' hpos hrests' hbreaks' hlines' =>
    cases h with
    | above hstart _ _ => omega
    | @inside a b hstart hstop hle _ hrests hbreaks hlines =>
      obtain ⟨v, hv⟩ := hbreaks.exists_drop
      obtain ⟨w, hw⟩ := hlines.head v
      have hlt := hbreaks.lt_length
      have hb : b' ≤ a := by omega
      rw [applyOne_eq hstart hstop hle hlt.le, List.append_assoc, hv, hw]
      exact .inside hstart' hstop' hle' hpos (hrests'.replace hrests (by omega) (by omega))
        (hbreaks'.replace hrests (by omega) hb) hlines'

theorem mask_foldl (hes : ∀ e ∈ es, Clear source e)
    (hsorted : es.Pairwise fun a b => b.stop ≤ a.start) :
    mask (es.foldl Splice.applyOne source) =
        (es.map (Edit.mapText maskedLine)).foldl Splice.applyOne (mask source) ∧
      (literalProblems source = [] → literalProblems (es.foldl Splice.applyOne source) = []) := by
  induction es generalizing source with
  | nil => exact ⟨rfl, id⟩
  | cons e es ih =>
    have he := hes e List.mem_cons_self
    obtain ⟨hbefore, hsorted⟩ := List.pairwise_cons.1 hsorted
    obtain ⟨hmask, hproblems⟩ := he.mask_applyOne
    have hclear : ∀ f ∈ es, Clear (Splice.applyOne source e) f := fun f hf =>
      he.applyOne (hes f (List.mem_cons_of_mem e hf)) (hbefore f hf)
    obtain ⟨hrest, hproblems'⟩ := ih hclear hsorted
    rw [List.foldl_cons, List.map_cons, List.foldl_cons, hrest, hmask]
    exact ⟨rfl, fun h => hproblems' (hproblems h)⟩

/-- **Clear edits do to the mask what they do to the text,** and leave its literals and comments
closed. -/
theorem mask_apply (hes : ∀ e ∈ es, Clear source e) (hapart : es.Pairwise Edit.Apart) :
    mask (apply source es) = apply (mask source) (es.map (Edit.mapText maskedLine)) ∧
      (literalProblems source = [] → literalProblems (apply source es) = []) := by
  have hmem : ∀ e ∈ backToFront es, e ∈ es := fun e he => (backToFront_perm es).mem_iff.1 he
  have hsorted := pairwise_backToFront hapart fun e he => by
    cases hes e he <;> omega
  have hmap : (backToFront es).map (Edit.mapText maskedLine) =
      backToFront (es.map (Edit.mapText maskedLine)) := List.map_mergeSort fun _ _ _ _ => rfl
  rw [apply, apply, ← hmap]
  exact mask_foldl (fun e he => hes e (hmem e he)) hsorted

end Clear

end ApiScaffold.TypeScript
