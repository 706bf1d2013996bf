import ApiScaffold.Proofs.TypeScript.MemberAhead

/-!
# Passes over the members of a class

* `labelsIn` are the names and kinds of the members that are found in a text inside a class;
* `SpanOf` is the span of a member, which reads alike in front of any text that may follow;
* `Reads` is a text that reads as members wherever a line ends;
* `Pass` leaves out some members of a class and puts such texts behind others, all at the end of a
  line; `Pass.edited_eq`: the text that it makes reads as the members that stay, each with what is
  put behind it;
* `Pass.weave_eq`: what stands around the braces of the class is not touched.
-/

namespace ApiScaffold.TypeScript

/-! ### Names and kinds -/

section Labels

variable {steps pos : ℕ} {c : Char} {gap dec body rest rest' m n tail : List Char}

/-- What a member is called, and what it is. -/
def Member.label (d : Member) : String × MemberKind := (d.name, d.kind)

/-- The labels of the members that are found in a text inside a class. -/
def labelsIn (tail m : List Char) : List (String × MemberKind) :=
  (membersFrom (m.length + 1) 0 m.length (m ++ tail)).map Member.label

/-- It makes no difference for the labels where the text stands. -/
theorem map_label_membersFrom (steps pos pos' room : ℕ) (cs : List Char) :
    (membersFrom steps pos room cs).map Member.label =
      (membersFrom steps pos' room cs).map Member.label := by
  induction steps generalizing pos pos' room cs with
  | zero => rfl
  | succ steps ih =>
    rw [membersFrom, membersFrom]
    dsimp only
    split_ifs
    · rfl
    · exact ih ..
    · rw [List.map_cons, List.map_cons]
      exact congrArg _ (ih ..)

theorem labelsIn_eq (hsteps : m.length < steps) (pos : ℕ) (tail : List Char) :
    labelsIn tail m = (membersFrom steps pos m.length (m ++ tail)).map Member.label := by
  rw [labelsIn, membersFrom_congr (Nat.lt_succ_self _) hsteps, map_label_membersFrom]

theorem labelsIn_blank (hgap : ∀ c ∈ gap, Text.isBlank c = true) : labelsIn tail gap = [] := by
  rw [labelsIn, membersFrom_blank hgap]
  rfl

theorem labelsIn_semicolon (hgap : ∀ c ∈ gap, Text.isBlank c = true) (rest tail : List Char) :
    labelsIn tail (gap ++ ';' :: rest) = labelsIn tail rest := by
  rw [labelsIn, membersFrom_semicolon hgap, ← labelsIn_eq (by simp; omega)]

theorem Parts.of_steps (h : Parts steps tail dec body rest) {t : ℕ}
    (hs : (dec ++ (body ++ rest)).length ≤ steps) (ht : (dec ++ (body ++ rest)).length ≤ t) :
    Parts t tail dec body rest :=
  { h with
    decoratorsLength_eq := by
      rw [decoratorsLength_congr ht hs]
      exact h.decoratorsLength_eq }

theorem Parts.labelsIn_eq (h : Parts steps tail dec body rest)
    (hgap : ∀ c ∈ gap, Text.isBlank c = true) (hc : (dec ++ (body ++ rest)).head? = some c)
    (hblank : Text.isBlank c = false) (hsemi : c ≠ ';')
    (hsteps : (gap ++ (dec ++ (body ++ rest))).length ≤ steps) :
    let o := outlineFrom [] 0 (body ++ rest).length (body ++ rest ++ tail)
    labelsIn tail (gap ++ (dec ++ (body ++ rest))) = (o.name, o.kind) :: labelsIn tail rest := by
  intro o
  obtain ⟨hmember, hmembers⟩ := h.membersFrom_eq hgap hc hblank hsemi 0
  have hrest : rest.length < steps := by
    have hpos := List.length_pos_of_mem (List.mem_of_mem_head? hc)
    simp only [List.length_append] at hpos hsteps
    by_cases hne : rest = []
    · subst hne
      rw [List.length_nil] at hpos hsteps ⊢
      omega
    · have := List.length_pos_iff.2 (h.body_ne hne)
      omega
  rw [TypeScript.labelsIn_eq (Nat.lt_succ_of_le hsteps) 0, hmembers, hmember, List.map_cons,
    ← TypeScript.labelsIn_eq hrest]
  rfl

theorem Parts.labelsIn_ahead (h : Parts steps tail dec body rest)
    (hsteps : (dec ++ (body ++ rest)).length ≤ steps) (hgap : ∀ c ∈ gap, Text.isBlank c = true)
    (hc : (dec ++ (body ++ rest)).head? = some c) (hblank : Text.isBlank c = false)
    (hsemi : c ≠ ';') (hrest' : Balanced rest') (hfollows : Follows rest rest') :
    let o := outlineFrom [] 0 (body ++ rest).length (body ++ rest ++ tail)
    labelsIn tail (gap ++ (dec ++ body) ++ rest') = (o.name, o.kind) :: labelsIn tail rest' := by
  intro o
  have hlarge := h.of_steps (t := steps + (gap ++ (dec ++ (body ++ rest'))).length) hsteps
    (by omega)
  obtain ⟨hparts, houtline⟩ := hlarge.ahead hrest' hfollows
  have hc' : (dec ++ (body ++ rest')).head? = some c := by
    have hne := h.span_ne hc
    rw [← List.append_assoc, List.head?_append_of_ne_nil _ hne] at hc ⊢
    exact hc
  have hlabelsIn := hparts.labelsIn_eq hgap hc' hblank hsemi (by omega)
  rw [houtline] at hlabelsIn
  rw [List.append_assoc, List.append_assoc]
  exact hlabelsIn

/-- The span of a member at the front of a text: which member it is does not depend on what comes
behind it. -/
structure SpanOf (steps pos : ℕ) (tail : List Char) (d : Member) (span rest : List Char) :
    Prop where
  ne_nil : span ≠ []
  balanced : Balanced span
  start_eq : d.start = pos
  stop_eq : d.stop = pos + span.length
  membersFrom_eq : membersFrom (steps + 1) pos (span ++ rest).length (span ++ rest ++ tail) =
    d :: membersFrom steps (pos + span.length) rest.length (rest ++ tail)
  labelsIn_append : ∀ rest', Balanced rest' → Follows rest rest' →
    labelsIn tail (span ++ rest') = d.label :: labelsIn tail rest'

theorem Parts.exists_spanOf (h : Parts steps tail dec body rest)
    (hsteps : (dec ++ (body ++ rest)).length ≤ steps) (hgap : ∀ c ∈ gap, Text.isBlank c = true)
    (hc : (dec ++ (body ++ rest)).head? = some c) (hblank : Text.isBlank c = false)
    (hsemi : c ≠ ';') (pos : ℕ) : ∃ d, SpanOf steps pos tail d (gap ++ (dec ++ body)) rest := by
  obtain ⟨hmember, hmembers⟩ := h.membersFrom_eq hgap hc hblank hsemi pos
  have hplain : Balanced gap := .of_plain fun c hc => isBracket_of_isBlank (hgap c hc)
  have hwhole : gap ++ (dec ++ (body ++ rest)) = gap ++ (dec ++ body) ++ rest := by simp
  rw [hmember, hwhole] at hmembers
  exact ⟨_, fun hnil => h.span_ne hc (List.append_eq_nil_iff.1 hnil).2,
    hplain.append (h.balanced_dec.append h.balanced_body), rfl, rfl, hmembers,
    fun rest' hrest' hfollows => h.labelsIn_ahead hsteps hgap hc hblank hsemi hrest' hfollows⟩

/-- Blanks in front of a text make no difference. -/
theorem labelsIn_append_of_blank (hgap : ∀ c ∈ gap, Text.isBlank c = true) (hn : Balanced n) :
    labelsIn tail (gap ++ n) = labelsIn tail n := by
  have hboth : ∀ {xs : List Char}, (∀ c ∈ xs, Text.isBlank c = true) →
      ∀ c ∈ gap ++ xs, Text.isBlank c = true :=
    fun hxs c hc => (List.mem_append.1 hc).elim (hgap c) (hxs c)
  rcases hn.parts_cases (gap ++ n).length tail with hblank | ⟨gap', rest, rfl, hgap', -⟩ |
    ⟨gap', dec, body, rest, c, rfl, hgap', hc, hblank, hsemi, hparts⟩
  · rw [labelsIn_blank hblank, labelsIn_blank (hboth hblank)]
  · rw [labelsIn_semicolon hgap', ← List.append_assoc, labelsIn_semicolon (hboth hgap')]
  · rw [hparts.labelsIn_eq hgap' hc hblank hsemi (by simp), ← List.append_assoc,
      hparts.labelsIn_eq (hboth hgap') hc hblank hsemi (by simp)]

end Labels

/-! ### A pass over the members of a class -/

/-- A text that reads as members with the given labels, if a line break follows. -/
structure Reads (tail t : List Char) (labels : List (String × MemberKind)) : Prop where
  balanced : Balanced t
  lineBreak : t.head? = some '\n'
  labelsIn_append : ∀ n, Balanced n → n.head? = some '\n' →
    labelsIn tail (t ++ n) = labels ++ labelsIn tail n

/-- A pass over a masked text leaves out some of the members of a class, which all end with their
line, and puts texts behind others. -/
structure Pass (masked tail : List Char) (low : ℕ) (ms : List Member) (gone : Member → Bool)
    (dropped : ℕ → Bool) (inserted : ℕ → List Char)
    (labels : ℕ → List (String × MemberKind)) : Prop where
  closing : tail.head? = some '\x7d'
  dropped_iff : ∀ i, dropped i = true ↔ ∃ d ∈ ms, gone d = true ∧ d.start ≤ i ∧ i < d.stop
  cut : ∀ d ∈ ms, gone d = true → masked[d.stop]? = some '\n'
  inserted_cases : ∀ d ∈ ms, gone d = false → inserted d.stop = [] ∧ labels d.stop = [] ∨
    Reads tail (inserted d.stop) (labels d.stop) ∧ masked[d.stop]? = some '\n'
  inserted_nil : ∀ i, low < i → (∀ d ∈ ms, gone d = false → d.stop ≠ i) → inserted i = []

/-- What a pass makes of a text, what it puts in front of it apart. -/
def edited (dropped : ℕ → Bool) (inserted : ℕ → List Char) (pos : ℕ) (m : List Char) : List Char :=
  Splice.weave dropped (fun i => if i = pos then [] else inserted i) pos m

/-- What a pass makes of a text with the given members: it goes on like the text that it was, and
reads as the members that stay, each with what is put behind it. -/
structure ReadsAs (tail : List Char) (gone : Member → Bool)
    (labels : ℕ → List (String × MemberKind)) (found : List Member) (m x : List Char) : Prop where
  balanced : Balanced x
  follows : Follows m x
  labelsIn_eq : labelsIn tail x =
    (found.filter fun d => !gone d).flatMap fun d => d.label :: labels d.stop

section Pass

variable {masked tail : List Char} {low : ℕ} {all found : List Member} {gone : Member → Bool}
  {dropped : ℕ → Bool} {inserted : ℕ → List Char} {labels : ℕ → List (String × MemberKind)}
  {steps pos : ℕ} {gap m rest span x y : List Char} {d : Member}

/-- A pass takes a part of a text as a whole, and goes on behind it. -/
theorem edited_append {b : Bool} (hx : x ≠ [])
    (hd : ∀ i, pos ≤ i → i < pos + x.length → dropped i = b)
    (hi : ∀ i, pos < i → i < pos + x.length → inserted i = []) (y : List Char) :
    edited dropped inserted pos (x ++ y) = (if b then [] else x) ++
      (inserted (pos + x.length) ++ edited dropped inserted (pos + x.length) y) := by
  have hpos := List.length_pos_iff.2 hx
  have hbehind : Splice.weave dropped (fun i => if i = pos then [] else inserted i)
      (pos + x.length) y = Splice.weave dropped inserted (pos + x.length) y :=
    Splice.weave_congr (fun _ _ _ => rfl) fun i h _ => if_neg (by omega)
  rw [edited, Splice.weave_segment y hx hd fun i h₁ h₂ => by rw [if_neg (by omega), hi i h₁ h₂],
    if_pos rfl, List.nil_append, hbehind, Splice.weave_eq_append y]
  rfl

theorem Pass.dropped_eq_false (h : Pass masked tail low all gone dropped inserted labels) {i : ℕ}
    (hno : ∀ d ∈ all, d.stop ≤ i ∨ i < d.start) : dropped i = false := by
  refine Bool.eq_false_iff.2 fun hi => ?_
  obtain ⟨d, hd, -, hstart, hstop⟩ := (h.dropped_iff i).1 hi
  have := hno d hd
  omega

/-- Between members a pass changes nothing. -/
theorem Pass.edited_between (h : Pass masked tail low all gone dropped inserted labels)
    (hlow : low ≤ pos) (hx : x ≠ [])
    (hmem : ∀ d ∈ all, d.stop ≤ pos ∨ pos + x.length ≤ d.start ∧ d.start < d.stop) (y : List Char) :
    edited dropped inserted pos (x ++ y) =
      x ++ edited dropped inserted (pos + x.length) y := by
  have hpos := List.length_pos_iff.2 hx
  have hnone : ∀ i, pos < i → i ≤ pos + x.length → inserted i = [] := fun i h₁ h₂ =>
    h.inserted_nil i (by omega) fun d hd _ => by
      have := hmem d hd
      omega
  rw [edited_append hx (b := false), hnone _ (by omega) le_rfl]
  · rfl
  · exact fun i h₁ h₂ => h.dropped_eq_false fun d hd => by
      have := hmem d hd
      omega
  · exact fun i h₁ h₂ => hnone i h₁ h₂.le

/-- A pass takes a member as a whole. -/
theorem Pass.edited_member (h : Pass masked tail low all gone dropped inserted labels)
    (hlow : low ≤ pos) (hx : x ≠ []) {d : Member} (hd : d ∈ all) (hstart : d.start = pos)
    (hstop : d.stop = pos + x.length)
    (hmem : ∀ e ∈ all, e = d ∨ e.stop ≤ pos ∨ pos + x.length ≤ e.start ∧ e.start < e.stop)
    (y : List Char) :
    edited dropped inserted pos (x ++ y) = (if gone d then [] else x ++ inserted d.stop) ++
      edited dropped inserted (pos + x.length) y := by
  have hpos := List.length_pos_iff.2 hx
  have hcut : ∀ i, pos ≤ i → i < pos + x.length → dropped i = gone d := by
    intro i h₁ h₂
    rw [Bool.eq_iff_iff, h.dropped_iff]
    constructor
    · rintro ⟨e, he, hgone, hle, hlt⟩
      rcases hmem e he with rfl | he
      · exact hgone
      · omega
    · exact fun hgone => ⟨d, hd, hgone, by omega, by omega⟩
  have hinside : ∀ i, pos < i → i < pos + x.length → inserted i = [] := fun i h₁ h₂ =>
    h.inserted_nil i (by omega) fun e he _ => by
      rcases hmem e he with rfl | he <;> omega
  rw [edited_append hx hcut hinside, hstop]
  split_ifs with hgone
  · have hbehind : inserted (pos + x.length) = [] :=
      h.inserted_nil _ (by omega) fun e he hkept => by
        rcases hmem e he with rfl | he
        · rw [hgone] at hkept
          cases hkept
        · omega
    rw [hbehind]
    rfl
  · rw [List.append_assoc]

/-- Behind the last member nothing changes. -/
theorem Pass.edited_behind (h : Pass masked tail low all gone dropped inserted labels)
    (hlow : low ≤ pos) (hall : ∀ d ∈ all, d.stop ≤ pos) (m : List Char) :
    edited dropped inserted pos m = m := by
  refine Splice.weave_eq_self (fun i hi _ => h.dropped_eq_false fun d hd =>
    Or.inl ((hall d hd).trans hi)) fun i hi _ => ?_
  split_ifs
  · rfl
  · refine h.inserted_nil i (by omega) fun d hd _ => ?_
    have := hall d hd
    omega

/-- Where a line ends in a class, one ends in the text that is left of it. -/
theorem Pass.head_of_break (h : Pass masked tail low all gone dropped inserted labels) {i : ℕ}
    (hmasked : masked.drop i = m ++ tail) (hi : masked[i]? = some '\n') : m.head? = some '\n' := by
  rw [← List.head?_drop, hmasked] at hi
  cases m with
  | nil =>
    rw [List.nil_append, h.closing] at hi
    cases hi
  | cons c m => exact hi

/-- Of blanks behind the last member a pass makes nothing. -/
theorem Pass.edited_blank (h : Pass masked tail low all gone dropped inserted labels)
    (hlow : low ≤ pos) (hall : ∀ d ∈ all, d.stop ≤ pos) (hm : Balanced m)
    (hblank : ∀ c ∈ m, Text.isBlank c = true) :
    ReadsAs tail gone labels [] m (edited dropped inserted pos m) := by
  rw [h.edited_behind hlow hall]
  exact ⟨hm, .refl m, labelsIn_blank hblank⟩

/-- What a pass makes of a semicolon and the text behind it. -/
theorem Pass.edited_semicolon (h : Pass masked tail low all gone dropped inserted labels)
    (hlow : low ≤ pos) (hgap : ∀ c ∈ gap, Text.isBlank c = true)
    (hmem : ∀ d ∈ all, d.stop ≤ pos ∨ pos + (gap.length + 1) ≤ d.start ∧ d.start < d.stop)
    (hrest : ReadsAs tail gone labels found rest
      (edited dropped inserted (pos + (gap.length + 1)) rest)) :
    ReadsAs tail gone labels found (gap ++ ';' :: rest)
      (edited dropped inserted pos (gap ++ ';' :: rest)) := by
  have hlen : (gap ++ [';']).length = gap.length + 1 := by simp
  have hstays := h.edited_between hlow (x := gap ++ [';']) (by simp) (by rwa [hlen]) rest
  have hplain : Balanced gap := .of_plain fun c hc => isBracket_of_isBlank (hgap c hc)
  rw [List.append_cons, hstays, ← List.append_cons, ← List.append_cons, hlen]
  exact ⟨hplain.append (.plain rfl hrest.balanced), (Follows.cons ';' rest _).append_left gap,
    (labelsIn_semicolon hgap _ tail).trans hrest.labelsIn_eq⟩

/-- What a pass makes of a member that goes: what it makes of the text behind it. -/
theorem Pass.readsAs_of_gone (h : Pass masked tail low all gone dropped inserted labels)
    (hspan : SpanOf steps pos tail d span rest) (hd : d ∈ all) (hgone : gone d = true)
    (hmasked : masked.drop d.stop = rest ++ tail) (hx : ReadsAs tail gone labels found rest x) :
    ReadsAs tail gone labels (d :: found) (span ++ rest) x := by
  obtain ⟨r, rfl⟩ := List.head?_eq_some_iff.1 (h.head_of_break hmasked (h.cut d hd hgone))
  refine ⟨hx.balanced, Or.inr ⟨by simp [hspan.ne_nil], hx.follows.lineBreak⟩, ?_⟩
  rw [hx.labelsIn_eq, List.filter_cons_of_neg (by simp [hgone])]

/-- What a pass makes of a member that stays: the member, what is put behind it, and what the pass
makes of the text behind it. -/
theorem Pass.readsAs_of_kept (h : Pass masked tail low all gone dropped inserted labels)
    (hspan : SpanOf steps pos tail d span rest) (hd : d ∈ all) (hkept : gone d = false)
    (hmasked : masked.drop d.stop = rest ++ tail) (hx : ReadsAs tail gone labels found rest x) :
    ReadsAs tail gone labels (d :: found) (span ++ rest) (span ++ (inserted d.stop ++ x)) := by
  have hhead : ∀ y : List Char, (span ++ y).head? = span.head? := fun y =>
    List.head?_append_of_ne_nil _ hspan.ne_nil
  have hfollows : Follows (span ++ rest) (span ++ (inserted d.stop ++ x)) :=
    Or.inl (by rw [hhead, hhead])
  have hfirst : ((d :: found).filter fun d => !gone d).flatMap (fun d => d.label :: labels d.stop) =
      d.label :: (labels d.stop ++ labelsIn tail x) := by
    rw [List.filter_cons_of_pos (by simp [hkept]), List.flatMap_cons, hx.labelsIn_eq,
      List.cons_append]
  rcases h.inserted_cases d hd hkept with ⟨hnone, hlabels⟩ | ⟨hreads, hbreak⟩
  · rw [hnone] at hfollows ⊢
    rw [hlabels] at hfirst
    exact ⟨hspan.balanced.append hx.balanced, hfollows,
      (hspan.labelsIn_append x hx.balanced hx.follows).trans hfirst.symm⟩
  · obtain ⟨r, rfl⟩ := List.head?_eq_some_iff.1 (h.head_of_break hmasked hbreak)
    obtain ⟨t, ht⟩ := List.head?_eq_some_iff.1 hreads.lineBreak
    have hbehind : Follows ('\n' :: r) (inserted d.stop ++ x) := by
      rw [ht]
      exact .cons '\n' r _
    have hbalanced := hreads.balanced.append hx.balanced
    refine ⟨hspan.balanced.append hbalanced, hfollows, ?_⟩
    rw [hspan.labelsIn_append _ hbalanced hbehind,
      hreads.labelsIn_append _ hx.balanced hx.follows.lineBreak, hfirst]

/-- What a pass makes of a member and the text behind it. -/
theorem Pass.edited_span (h : Pass masked tail low all gone dropped inserted labels)
    (hlow : low ≤ pos) (hspan : SpanOf steps pos tail d span rest) (hd : d ∈ all)
    (hmem : ∀ e ∈ all, e = d ∨ e.stop ≤ pos ∨ pos + span.length ≤ e.start ∧ e.start < e.stop)
    (hmasked : masked.drop pos = span ++ rest ++ tail)
    (hrest : ReadsAs tail gone labels found rest
      (edited dropped inserted (pos + span.length) rest)) :
    ReadsAs tail gone labels (d :: found) (span ++ rest)
      (edited dropped inserted pos (span ++ rest)) := by
  have hbehind : masked.drop d.stop = rest ++ tail := by
    rw [hspan.stop_eq, ← List.drop_drop, hmasked, List.append_assoc, List.drop_left]
  rw [h.edited_member hlow hspan.ne_nil hd hspan.start_eq hspan.stop_eq hmem]
  split_ifs with hgone
  · exact h.readsAs_of_gone hspan hd hgone hbehind hrest
  · rw [List.append_assoc]
    exact h.readsAs_of_kept hspan hd (Bool.eq_false_iff.2 hgone) hbehind hrest

/-- **What a pass makes of the text of a class:** it reads as the members that stay, each with what
is put behind it. -/
theorem Pass.edited_eq (h : Pass masked tail low all gone dropped inserted labels)
    (hm : Balanced m) (hsteps : m.length < steps) (hlow : low ≤ pos) {before : List Member}
    (hall : all = before ++ membersFrom steps pos m.length (m ++ tail))
    (hbefore : ∀ d ∈ before, d.stop ≤ pos) (hmasked : masked.drop pos = m ++ tail) :
    ReadsAs tail gone labels (membersFrom steps pos m.length (m ++ tail)) m
      (edited dropped inserted pos m) := by
  induction steps generalizing m pos before with
  | zero => exact absurd hsteps (Nat.not_lt_zero _)
  | succ steps ih =>
    -- The members that are still to come lie behind the part that is passed over.
    have later : ∀ {rest : List Char} {next : ℕ}, Balanced rest → rest.length < steps →
        ∀ e ∈ membersFrom steps next rest.length (rest ++ tail),
          next ≤ e.start ∧ e.start < e.stop := fun hrest hsize e he =>
      have hwithin := (hrest.tiles_membersFrom hsize _ tail).within e he
      ⟨hwithin.1, hwithin.2.1⟩
    rcases hm.parts_cases steps tail with hblank | ⟨gap, rest, rfl, hgap, hrest⟩ |
      ⟨gap, dec, body, rest, c, rfl, hgap, hc, hblank, hsemi, hparts⟩
    · -- Nothing but blanks is left.
      rw [membersFrom_blank hblank, List.append_nil] at hall
      rw [membersFrom_blank hblank]
      exact h.edited_blank hlow (hall ▸ hbefore) hm hblank
    · -- A semicolon comes first.
      rw [membersFrom_semicolon hgap] at hall ⊢
      rw [List.length_append, List.length_cons] at hsteps
      have hmasked' : masked.drop (pos + (gap.length + 1)) = rest ++ tail := by
        rw [← List.drop_drop, hmasked]
        simp
      refine h.edited_semicolon hlow hgap (fun d hd => ?_) (ih hrest (by omega) (by omega) hall
        (fun d hd => (hbefore d hd).trans (by omega)) hmasked')
      rw [hall] at hd
      exact (List.mem_append.1 hd).imp (hbefore d) (later hrest (by omega) d)
    · -- A member comes first.
      obtain ⟨d, hspan⟩ := hparts.exists_spanOf (by rw [List.length_append] at hsteps; omega)
        hgap hc hblank hsemi pos
      have hwhole : gap ++ (dec ++ (body ++ rest)) = gap ++ (dec ++ body) ++ rest := by simp
      rw [hwhole] at hall hsteps hmasked ⊢
      rw [hspan.membersFrom_eq] at hall ⊢
      generalize gap ++ (dec ++ body) = span at *
      have hpos := List.length_pos_iff.2 hspan.ne_nil
      have hrest := hparts.balanced_rest
      rw [List.length_append] at hsteps
      have hmasked' : masked.drop (pos + span.length) = rest ++ tail := by
        rw [← List.drop_drop, hmasked, List.append_assoc, List.drop_left]
      refine h.edited_span hlow hspan (by rw [hall]; simp) (fun e he => ?_) hmasked
        (ih hrest (by omega) (by omega) (hall.trans (List.append_cons ..)) (fun e he => ?_)
          hmasked')
      · rw [hall] at he
        rcases List.mem_append.1 he with he | he
        · exact Or.inr (Or.inl (hbefore e he))
        · exact (List.mem_cons.1 he).imp_right fun he => Or.inr (later hrest (by omega) e he)
      · rcases List.mem_append.1 he with he | he
        · exact (hbefore e he).trans (by omega)
        · rw [List.mem_singleton.1 he, hspan.stop_eq]

end Pass

/-! ### Methods as texts that are put in -/

section Methods

variable {tail t : List Char} {labels : List (String × MemberKind)} {es : List MethodText}

/-- The label of a method. -/
def MethodText.label (e : MethodText) : String × MemberKind := (String.ofList e.name, .method)

theorem labelsIn_maskedOf (h : ∀ e ∈ es, e.Sound) (n : List Char) :
    labelsIn tail (maskedOf es ++ n) = es.map MethodText.label ++ labelsIn tail n := by
  induction es with
  | nil => rfl
  | cons e es ih =>
    have hlen : (maskedOf (e :: es) ++ n).length = e.text.length + (maskedOf es ++ n).length := by
      rw [maskedOf_cons, List.append_assoc, List.length_append, MethodText.length_masked]
    have hpos : 0 < e.text.length := by
      rw [MethodText.text, List.length_append, MethodText.length_around]
      omega
    rw [labelsIn, hlen, maskedOf_cons, List.append_assoc, List.append_assoc,
      (h e List.mem_cons_self).membersFrom_eq, ← List.append_assoc, List.map_cons,
      ← labelsIn_eq (by omega), ih fun e he => h e (List.mem_cons_of_mem _ he)]
    rfl

theorem reads_maskedOf (h : ∀ e ∈ es, e.Sound) (hne : es ≠ []) :
    Reads tail (maskedOf es) (es.map MethodText.label) where
  balanced := balanced_of_brackets ((neutral_maskedOf h).stack [])
  lineBreak := by
    obtain ⟨e, es, rfl⟩ := List.exists_cons_of_ne_nil hne
    obtain ⟨cs, hcs⟩ := List.head?_eq_some_iff.1 (h e List.mem_cons_self).lineBreak
    rw [maskedOf_cons, MethodText.masked, hcs]
    rfl
  labelsIn_append := fun n _ _ => labelsIn_maskedOf h n

/-- A line break may stand at the end. -/
theorem Reads.append_break (h : Reads tail t labels) : Reads tail (t ++ ['\n']) labels where
  balanced := h.balanced.append (.plain rfl .nil)
  lineBreak := by
    obtain ⟨cs, rfl⟩ := List.head?_eq_some_iff.1 h.lineBreak
    rfl
  labelsIn_append := by
    intro n hn _
    have hbreak : Balanced ('\n' :: n) := .plain rfl hn
    rw [List.append_assoc, List.singleton_append, h.labelsIn_append _ hbreak rfl]
    have hblank : ∀ c ∈ ['\n'], Text.isBlank c = true := List.all_iff_forall_prop.1 (by decide)
    exact congrArg _ (labelsIn_append_of_blank hblank hn)

end Methods

/-! ### Passes over whole texts -/

/-- A pass over a text changes what it holds of a class, and nothing else but what stands in
front. -/
theorem Pass.weave_eq {masked front m after : List Char} {all : List Member}
    {gone : Member → Bool} {dropped : ℕ → Bool} {inserted inserted' : ℕ → List Char}
    {labels : ℕ → List (String × MemberKind)}
    (h : Pass masked ('\x7d' :: after) front.length all gone dropped inserted labels)
    (hmasked : masked = front ++ (m ++ '\x7d' :: after))
    (hall : ∀ d ∈ all, front.length ≤ d.start ∧ d.stop ≤ front.length + m.length)
    (hsame : ∀ i, front.length ≤ i → inserted' i = inserted i)
    (hlow : inserted front.length ≠ [] → masked[front.length]? = some '\n') :
    Splice.weave dropped inserted' 0 masked =
      Splice.weave (fun _ => false) (fun i => if i = front.length then [] else inserted' i) 0
          front ++
        (inserted front.length ++ edited dropped inserted front.length m ++ '\x7d' :: after) := by
  have hbrace : masked[front.length + m.length]? = some '\x7d' := by
    rw [hmasked, List.getElem?_append_right (by omega), Nat.add_sub_cancel_left,
      List.getElem?_append_right le_rfl, Nat.sub_self]
    rfl
  have hnone : ∀ i, front.length + m.length ≤ i → inserted i = [] := by
    intro i hi
    by_contra hne
    rcases (Nat.le_of_add_right_le hi).eq_or_lt with rfl | hlt
    · have hbreak := hlow hne
      rw [show front.length + m.length = front.length by omega, hbreak] at hbrace
      cases hbrace
    · refine hne (h.inserted_nil i hlt fun d hd hkept hstop => ?_)
      obtain rfl : i = front.length + m.length := by
        have := (hall d hd).2
        omega
      rw [← hstop] at hne hbrace
      rcases h.inserted_cases d hd hkept with ⟨hnil, -⟩ | ⟨-, hbreak⟩
      · exact hne hnil
      · rw [hbrace] at hbreak
        cases hbreak
  have hstays : ∀ i, i < front.length ∨ front.length + m.length ≤ i → dropped i = false :=
    fun i hi => h.dropped_eq_false fun d hd => by
      have := hall d hd
      omega
  have hfront : Splice.weave dropped (fun i => if i = front.length then [] else inserted' i) 0
      front = Splice.weave (fun _ => false)
        (fun i => if i = front.length then [] else inserted' i) 0 front :=
    Splice.weave_congr (fun i _ hi => hstays i (Or.inl (by omega))) fun _ _ _ => rfl
  have hback : Splice.weave dropped inserted (front.length + m.length) ('\x7d' :: after) =
      '\x7d' :: after :=
    Splice.weave_eq_self (fun i hi _ => hstays i (Or.inr hi)) fun i hi _ => hnone i hi
  have hinside : Splice.weave dropped
      (fun i => if i = front.length + m.length then [] else inserted i) front.length m =
        Splice.weave dropped inserted front.length m :=
    Splice.weave_congr (fun _ _ _ => rfl) fun i _ _ => by
      split_ifs with hi
      · rw [hnone i hi.ge]
      · rfl
  have hrest : Splice.weave dropped inserted' front.length (m ++ '\x7d' :: after) =
      Splice.weave dropped inserted front.length (m ++ '\x7d' :: after) :=
    Splice.weave_congr (fun _ _ _ => rfl) fun i hi _ => hsame i hi
  rw [hmasked, Splice.weave_append, Nat.zero_add, hfront, hrest, Splice.weave_append, hinside,
    hback, Splice.weave_eq_append m]
  rfl

end ApiScaffold.TypeScript
