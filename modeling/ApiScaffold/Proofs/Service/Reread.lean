import ApiScaffold.Proofs.Service.Upkeep
import ApiScaffold.Proofs.TypeScript.ChangedClass
import ApiScaffold.Proofs.TypeScript.LineEdits

/-!
# Reading a class again after a reconciliation

A reconciliation writes text. This module says what is read in it afterwards, if each of its edits
takes whole lines.

* `EditsLines` says that each edit but one above the text begins where the scan rests, and ends with
  a line;
* `mask_reconciled`: the mask of the new text is the old mask in the same pass;
* `labelsIn_reconciled`: the members between the braces are those that stay, then the stubs;
* `exists_front`: above the opening brace there are only more imports;
* `exists_reread`: the class is found again, with just these members, and brackets and literals are
  closed as before.
-/

namespace ApiScaffold.Reconcile

open TypeScript Splice ServiceFile

variable {settings : Settings} {s : Service} {source : List Char} {name : String}
  {body : ClassBody}

/-- Each edit begins where the scan rests, and ends with a line; but lines can be put above the
text. -/
def EditsLines (settings : Settings) (s : Service) (source : List Char) (body : ClassBody) : Prop :=
  ∀ e ∈ (changes settings s source body).edits, 0 < e.stop →
    ∃ a b : ℕ, e.start = a ∧ e.stop = b ∧ RestsAt source a ∧ BreaksAt source b

/-! ### Stubs and imports as lines -/

/-- The labels of the stubs. -/
def stubLabels (s : Service) (body : ClassBody) : List (String × MemberKind) :=
  (added s body).map fun m => (m.name, .method)

theorem label_raised (es : List MethodText) :
    (raised es).map MethodText.label = es.map MethodText.label := by
  cases es <;> rfl

/-- The stubs are methods below each other; a line break stands behind them if no member stays. -/
theorem exists_stubText (hs : Spelled settings s) (hne : added s body ≠ []) :
    ∃ es, (∀ e ∈ es, e.Sound) ∧ es ≠ [] ∧ es.map MethodText.label = stubLabels s body ∧
      (stubText s body = textOf es ∨ stubText s body = textOf es ++ ['\n']) := by
  have hmem : ∀ m ∈ added s body, m ∈ s.methods := fun m hm => (List.mem_filter.1 hm).1
  have hsound : ∀ e ∈ (added s body).map stubOf, e.Sound := by
    intro e he
    obtain ⟨m, hm, rfl⟩ := List.mem_map.1 he
    exact sound_stubOf hs (hmem m hm)
  have hlead : ∀ e ∈ (added s body).map stubOf, e.lead = below := by
    intro e he
    obtain ⟨m, -, rfl⟩ := List.mem_map.1 he
    rfl
  have hlabels : ((added s body).map stubOf).map MethodText.label = stubLabels s body := by
    rw [List.map_map, stubLabels]
    refine List.map_congr_left fun m _ => ?_
    simp [MethodText.label, stubOf]
  have hsome : (added s body).isEmpty = false := List.isEmpty_eq_false_iff.2 hne
  have hne' : (added s body).map stubOf ≠ [] := by simpa using hne
  rw [stubText, if_neg (by simp [hsome]), stubs_eq hs hmem]
  split_ifs
  · refine ⟨raised ((added s body).map stubOf), sound_raised hsound hlead, ?_, ?_, Or.inr ?_⟩
    · intro hnil
      have := congrArg (List.map MethodText.label) hnil
      rw [label_raised] at this
      exact hne' (List.map_eq_nil_iff.1 this)
    · rw [label_raised, hlabels]
    · rw [text_raised _ fun e he => by rw [hlead e he]; exact List.cons_ne_nil _ _, List.drop_one]
  · exact ⟨_, hsound, hne', hlabels, Or.inl rfl⟩

theorem stubText_of_nil (h : added s body = []) : stubText s body = [] := by
  simp [stubText, h]

/-- So they are lines, and read as methods. -/
theorem stubText_lines (hs : Spelled settings s) (tail : List Char) :
    IsLines (stubText s body) ∧
      (added s body = [] ∧ stubText s body = [] ∨
        Reads tail (maskedLine (stubText s body)) (stubLabels s body)) := by
  by_cases hne : added s body = []
  · rw [stubText_of_nil hne]
    exact ⟨Or.inl rfl, Or.inl ⟨hne, rfl⟩⟩
  · obtain ⟨es, hsound, hes, hlabels, htext⟩ := exists_stubText hs hne
    have hreads : Reads tail (maskedOf es) (es.map MethodText.label) := reads_maskedOf hsound hes
    rw [hlabels] at hreads
    have htextne : textOf es ≠ [] :=
      List.ne_nil_of_length_pos ((List.length_pos_iff.2 hes).trans_le (length_le_textOf es))
    rcases htext with htext | htext
    · rw [htext, maskedLine_textOf hsound]
      exact ⟨isLines_textOf hsound, Or.inr hreads⟩
    · rw [htext, maskedLine_textOf_break hsound]
      exact ⟨(isLines_textOf hsound).append_break htextne, Or.inr hreads.append_break⟩

/-- The import lines that are put in. -/
def newImports (settings : Settings) (s : Service) (source : List Char) : List ImportText :=
  (missingImports s source).map (importOf settings)

theorem sound_newImports (hs : Spelled settings s) (source : List Char) :
    ∀ i ∈ newImports settings s source, i.Sound := by
  intro i hi
  obtain ⟨j, hj, rfl⟩ := List.mem_map.1 hi
  exact sound_importOf hs (List.mem_filter.1 hj).1

/-- Above a text the imports are put in with the line break behind them, elsewhere with that in
front. -/
theorem importText_lines (hs : Spelled settings s) (hmissing : missingImports s source ≠ []) :
    importInsertionPoint source = 0 ∧ LinesAbove (importText settings s source) ∧
        maskedLine (importText settings s source) = maskedLines (newImports settings s source) ∨
      importInsertionPoint source ≠ 0 ∧ IsLines (importText settings s source) ∧
        maskedLine (importText settings s source) ++ ['\n'] =
          '\n' :: maskedLines (newImports settings s source) := by
  have hne : newImports settings s source ≠ [] := by simpa [newImports] using hmissing
  obtain ⟨u, m, -, hlines, hmasked, hpiece⟩ := exists_linesOf_eq (sound_newImports hs source) hne
  have hu : Piece u m LineBreakAhead := fun s r hs _ => hpiece s r hs trivial
  by_cases hpoint : importInsertionPoint source = 0
  · have htext : importText settings s source = linesOf (newImports settings s source) := by
      have hjoin : Render.joinLines ((missingImports s source).map (Render.classImport settings)) ++
          ['\n'] = _ := Text.joinWith_append ['\n'] (by simpa using hmissing)
      rw [importText, if_neg (by simpa using hmissing), if_pos hpoint, hjoin, newImports,
        linesOf_map_importOf]
    have hall := piece_linesOf (sound_newImports hs source)
    refine Or.inl ⟨hpoint, ⟨u, m, htext.trans hlines, hu⟩, ?_⟩
    rw [htext]
    exact (hall .start ['\n'] rfl trivial).1
  · have htext : importText settings s source = '\n' :: u := by
      have happend := @importText_append settings s source (Or.inr hpoint)
      rw [← newImports, hlines, ← List.cons_append] at happend
      exact List.append_cancel_right happend
    refine Or.inr ⟨hpoint, Or.inr ⟨u, m, htext, hu⟩, ?_⟩
    rw [htext, maskedLine_cons hu, hmasked]
    rfl

/-! ### The mask of the new text -/

theorem EditsLines.clear (h : EditsLines settings s source body) (hs : Spelled settings s) {k : ℕ}
    (hb : body.Placed source.length k) : ∀ e ∈ (changes settings s source body).edits,
      Clear source e := by
  intro e he
  have hinside : 0 < e.stop → e.start ≤ e.stop → IsLines e.text → Clear source e := by
    intro hpos hle hlines
    obtain ⟨a, b, ha, hb, hrests, hbreaks⟩ := h e he hpos
    exact .inside ha hb (by omega) (by omega) hrests hbreaks hlines
  rcases mem_edits he with ⟨m, hm, rfl⟩ | rfl | ⟨hmissing, rfl⟩
  · have hbetween := hb.between m (mem_removed.1 hm).1
    have hlow := hbetween.low_le
    have hle := hbetween.start_le
    exact hinside (by dsimp only; omega) (by dsimp only; omega) (Or.inl rfl)
  · have hplace := (opening_lt_stubPlace (s := s) hb).1
    exact hinside (by simp only [insertion]; omega) le_rfl (stubText_lines hs []).1
  · rcases importText_lines hs hmissing with ⟨hpoint, htop, -⟩ | ⟨hpoint, hlines, -⟩
    · exact .above (by simp [insertion, hpoint]) (by simp [insertion, hpoint]) htop
    · exact hinside (by simp only [insertion]; omega) le_rfl hlines

/-- The stubs that a pass over the mask puts in. -/
def stubsAt (s : Service) (body : ClassBody) (i : ℕ) : List Char :=
  if i = stubPlace s body then maskedLine (stubText s body) else []

/-- The imports that it puts in. -/
def importsAt (settings : Settings) (s : Service) (source : List Char) (i : ℕ) : List Char :=
  if i = importInsertionPoint source then maskedLine (importText settings s source) else []

/-- What a pass over the mask puts in front of the character at an offset. -/
def insertedMask (settings : Settings) (s : Service) (source : List Char) (body : ClassBody)
    (i : ℕ) : List Char :=
  stubsAt s body i ++ importsAt settings s source i

/-- **The mask of the new text** is the old one in the same pass. -/
theorem mask_reconciled (h : EditsLines settings s source body) (hs : Spelled settings s)
    (hi : ImportsAbove s source name) (hf : findClass? source name = some body) :
    mask (reconciled settings s source body) =
        weave (isCut s body) (insertedMask settings s source body) 0 (mask source) ∧
      (literalProblems source = [] → literalProblems (reconciled settings s source body) = []) := by
  obtain ⟨k, hk, hb⟩ := findClass?_placed hf
  have hapart : (changes settings s source body).edits.Pairwise Edit.Apart := edits_apart hb hk hi
  have hwithin : ∀ e ∈ (changes settings s source body).edits.map (Edit.mapText maskedLine),
      e.Within (mask source).length := by
    intro e he
    obtain ⟨f, hf, rfl⟩ := List.mem_map.1 he
    obtain ⟨h₁, h₂, h₃⟩ := edits_within hb hk hi f hf
    exact ⟨h₁, h₂, by rw [length_mask]; exact h₃⟩
  obtain ⟨hmask, hproblems⟩ := mask_apply (h.clear hs hb) hapart
  rw [← apply_edits hf hi]
  refine ⟨?_, hproblems⟩
  rw [hmask, apply_eq_weave hwithin (List.pairwise_map.2 hapart)]
  refine weave_congr (fun i _ _ => ?_) fun i _ _ => textAt_mapText hb rfl i
  rw [covers_mapText, covers_edits]

theorem getElem?_mask_of_breaksAt {i : ℕ} (h : BreaksAt source i) :
    (mask source)[i]? = some '\n' := by
  rw [getElem?_mask_eq_shown h.lineBreak, shown_break h.free]

theorem isCut_iff {i : ℕ} :
    isCut s body i = true ↔
      ∃ d ∈ body.members, isRemoved s d = true ∧ d.start ≤ i ∧ i < d.stop := by
  simp only [isCut, List.any_eq_true, mem_removed, Bool.and_eq_true, decide_eq_true_eq, and_assoc]

/-- The labels of what a pass puts in. -/
def labelsAt (s : Service) (body : ClassBody) (i : ℕ) : List (String × MemberKind) :=
  if i = stubPlace s body then stubLabels s body else []

theorem mem_edits_of_removed {d : Member} (hd : d ∈ removed s body) :
    ⟨d.start, d.stop, []⟩ ∈ (changes settings s source body).edits :=
  List.mem_append_left _ (List.mem_append_left _ (List.mem_map_of_mem hd))

theorem mem_edits_of_added (hne : added s body ≠ []) :
    insertion (stubPlace s body) (stubText s body) ∈ (changes settings s source body).edits := by
  refine List.mem_append_left _ (List.mem_append_right _ ?_)
  rw [insertStubs_eq, if_neg (by simpa using hne)]
  exact List.mem_singleton_self _

theorem mem_edits_of_missing (hmissing : missingImports s source ≠ []) :
    insertion (importInsertionPoint source) (importText settings s source) ∈
      (changes settings s source body).edits := by
  refine List.mem_append_right _ ?_
  rw [insertImports_eq, if_neg (by simpa using hmissing)]
  exact List.mem_singleton_self _

/-- An edit that is not above the text ends with a line. -/
theorem EditsLines.lineBreak (h : EditsLines settings s source body) {e : Edit} {n : ℕ}
    (he : e ∈ (changes settings s source body).edits) (hstop : e.stop = n) (hn : n ≠ 0) :
    (mask source)[n]? = some '\n' := by
  obtain ⟨a, b, -, hb, -, hbreaks⟩ := h e he (by omega)
  obtain rfl : n = b := by omega
  exact getElem?_mask_of_breaksAt hbreaks

theorem EditsLines.stub (h : EditsLines settings s source body) (hne : added s body ≠ []) {k : ℕ}
    (hb : body.Placed source.length k) : (mask source)[stubPlace s body]? = some '\n' :=
  h.lineBreak (mem_edits_of_added hne) rfl (by have := (opening_lt_stubPlace (s := s) hb).1; omega)

/-- A reconciliation is a pass over the members of the class. -/
theorem pass_reconciled (h : EditsLines settings s source body) (hs : Spelled settings s) {k : ℕ}
    (hb : body.Placed source.length k) {tail : List Char} (htail : tail.head? = some '\x7d') :
    Pass (mask source) tail (body.opening + 1) body.members (isRemoved s) (isCut s body)
      (stubsAt s body) (labelsAt s body) where
  closing := htail
  dropped_iff := fun _ => isCut_iff
  cut := fun d hd hgone => h.lineBreak (mem_edits_of_removed (mem_removed.2 ⟨hd, hgone⟩)) rfl (by
    have hbetween := hb.between d hd
    have hlow := hbetween.low_le
    have hle := hbetween.start_le
    omega)
  inserted_cases := by
    intro d _ _
    rw [stubsAt, labelsAt]
    split_ifs with hplace
    · rcases (stubText_lines hs tail).2 with ⟨hadded, htext⟩ | hreads
      · exact Or.inl ⟨by rw [htext]; rfl, by rw [stubLabels, hadded]; rfl⟩
      · by_cases hne : added s body = []
        · exact Or.inl ⟨by rw [stubText_of_nil hne]; rfl, by rw [stubLabels, hne]; rfl⟩
        · rw [hplace]
          exact Or.inr ⟨hreads, h.stub hne hb⟩
    · exact Or.inl ⟨rfl, rfl⟩
  inserted_nil := by
    intro i hlow hno
    refine if_neg fun hplace => ?_
    rw [stubPlace] at hplace
    cases hlast : (kept s body).getLast? with
    | none =>
      rw [hlast] at hplace
      exact absurd hplace hlow.ne'
    | some d =>
      rw [hlast] at hplace
      obtain ⟨hd, hkept⟩ := mem_kept.1 (List.mem_of_getLast? hlast)
      exact hno d hd hkept hplace.symm

/-- The labels of a class after a pass, if a member stays. -/
theorem flatMap_labelsAt (hord : InOrder body.members)
    (hlt : ∀ d ∈ body.members, d.start < d.stop) (hne : kept s body ≠ []) :
    ((kept s body).flatMap fun d => d.label :: labelsAt s body d.stop) =
      (kept s body).map Member.label ++ stubLabels s body := by
  have hplace : stubPlace s body = ((kept s body).getLast hne).stop := by
    rw [stubPlace, List.getLast?_eq_some_getLast hne]
  have hsplit := List.dropLast_append_getLast hne
  have hlast : (kept s body).getLast hne ∈ body.members :=
    (mem_kept.1 (List.getLast_mem hne)).1
  have hkept : (kept s body).Pairwise fun a b => a.stop ≤ b.start := hord.filter _
  generalize (kept s body).dropLast = front at hsplit
  generalize (kept s body).getLast hne = l at hplace hsplit hlast
  rw [← hsplit] at hkept ⊢
  have hfront : (front.flatMap fun d => d.label :: labelsAt s body d.stop) =
      front.map Member.label := by
    rw [List.map_eq_flatMap]
    refine List.flatMap_congr fun d hd => ?_
    have hle := (List.pairwise_append.1 hkept).2.2 d hd l (List.mem_singleton_self l)
    have := hlt l hlast
    rw [labelsAt, if_neg (by omega)]
  rw [List.flatMap_append, hfront, List.flatMap_singleton, labelsAt, if_pos hplace.symm,
    List.map_append, List.append_assoc]
  rfl

/-- What the pass makes of the text between the braces. -/
theorem labelsIn_reconciled (h : EditsLines settings s source body) (hs : Spelled settings s)
    {k : ℕ} (hb : body.Placed source.length k) {m after : List Char} (hm : Balanced m)
    (hmasked : (mask source).drop (body.opening + 1) = m ++ '\x7d' :: after)
    (hmembers : body.members =
      membersFrom (m.length + 1) (body.opening + 1) m.length (m ++ '\x7d' :: after)) :
    let new := stubsAt s body (body.opening + 1) ++
      edited (isCut s body) (stubsAt s body) (body.opening + 1) m
    Balanced new ∧ labelsIn ('\x7d' :: after) new =
      (kept s body).map Member.label ++ stubLabels s body := by
  intro new
  have hpass := @pass_reconciled settings s source body h hs k hb ('\x7d' :: after) rfl
  obtain ⟨hedited, hfollows, hlabels⟩ := hpass.edited_eq hm (Nat.lt_succ_self _) le_rfl
    (hmembers.trans (List.nil_append _).symm) (by simp) hmasked
  have hwithin := (hm.tiles_membersFrom (Nat.lt_succ_self _) (body.opening + 1)
    ('\x7d' :: after)).within
  rw [← hmembers] at hlabels hwithin
  change _ = (kept s body).flatMap _ at hlabels
  by_cases hkept : kept s body = []
  · have hplace : stubPlace s body = body.opening + 1 := by rw [stubPlace, hkept]; rfl
    have hnew : new = maskedLine (stubText s body) ++
        edited (isCut s body) (stubsAt s body) (body.opening + 1) m := by
      dsimp only [new]
      rw [stubsAt, if_pos hplace.symm]
    rw [hkept] at hlabels ⊢
    rw [hnew]
    rcases (stubText_lines hs ('\x7d' :: after)).2 with ⟨hadded, htext⟩ | hreads
    · rw [htext, stubLabels, hadded]
      exact ⟨hedited, hlabels⟩
    · by_cases hne : added s body = []
      · rw [stubText, hne, stubLabels, hne]
        exact ⟨hedited, hlabels⟩
      · have hbreak := h.stub hne hb
        rw [hplace] at hbreak
        obtain ⟨r, rfl⟩ := List.head?_eq_some_iff.1 (hpass.head_of_break hmasked hbreak)
        refine ⟨hreads.balanced.append hedited, ?_⟩
        rw [hreads.labelsIn_append _ hedited hfollows.lineBreak, hlabels, List.flatMap_nil,
          List.append_nil]
        rfl
  · have hplace : body.opening + 1 ≠ stubPlace s body := by
      have hlast := (mem_kept.1 (List.getLast_mem hkept)).1
      have := hwithin _ hlast
      rw [stubPlace, List.getLast?_eq_some_getLast hkept]
      dsimp only
      omega
    have hnew : new = edited (isCut s body) (stubsAt s body) (body.opening + 1) m := by
      dsimp only [new]
      rw [stubsAt, if_neg hplace]
      rfl
    rw [hnew]
    refine ⟨hedited, hlabels.trans ?_⟩
    exact flatMap_labelsAt hb.inOrder (fun d hd => (hwithin d hd).2.1) hkept

/-! ### The class in the new text -/

/-- A masked text falls into `f` and `r` where the missing imports go: at its beginning, or where a
line begins behind the place for them. -/
structure SplitsAbove (source front f r : List Char) : Prop where
  split : front = f ++ r
  place : f = [] ∨ ∃ xs, f = xs ++ ['\n'] ∧ xs.length = importInsertionPoint source

/-- What a pass makes of the text above a class: the text, or the text with the missing imports
where a line begins. -/
theorem front_reconciled (h : EditsLines settings s source body) (hs : Spelled settings s)
    (hmissing : missingImports s source ≠ []) {front rest : List Char}
    (hwhole : mask source = front ++ rest) (hplace : importInsertionPoint source < front.length) :
    ∃ f r, SplitsAbove source front f r ∧
      weave (fun _ => false)
          (fun i => if i = front.length then [] else importsAt settings s source i) 0 front =
        f ++ (maskedLines (newImports settings s source) ++ r) := by
  have helsewhere : ∀ i < front.length, i ≠ importInsertionPoint source →
      importsAt settings s source i = [] := fun i _ hne => if_neg hne
  rw [weave_insertion hplace helsewhere, importsAt, if_pos rfl]
  rcases importText_lines hs hmissing with ⟨hpoint, -, hlines⟩ | ⟨hpoint, -, hlines⟩
  · exact ⟨[], front, ⟨rfl, Or.inl rfl⟩, by rw [hpoint, hlines]; rfl⟩
  · have hbreak := h.lineBreak (mem_edits_of_missing hmissing) rfl hpoint
    rw [hwhole, List.getElem?_append_left hplace] at hbreak
    generalize hp : importInsertionPoint source = p at *
    obtain ⟨hlt, hchar⟩ := List.getElem?_eq_some_iff.1 hbreak
    have hdrop : front.drop p = '\n' :: front.drop (p + 1) := by
      rw [List.drop_eq_getElem_cons hlt, hchar]
    have hlen : (front.take p).length = p := List.length_take_of_le hlt.le
    refine ⟨front.take p ++ ['\n'], front.drop (p + 1),
      ⟨?_, Or.inr ⟨_, rfl, hlen.trans hp.symm⟩⟩, ?_⟩
    · rw [List.append_assoc, List.singleton_append, ← hdrop, List.take_append_drop]
    · rw [hdrop, List.append_cons _ '\n', hlines]
      simp

/-- In a class and below it no imports are put in. -/
theorem importsAt_eq_nil (hi : ImportsAbove s source name)
    (hf : findClass? source name = some body) {i : ℕ} (hle : body.opening ≤ i) :
    importsAt settings s source i = [] := by
  obtain ⟨k, hk, hb⟩ := findClass?_placed hf
  rw [importsAt]
  split_ifs with hplace
  · rcases hi with hnone | ⟨k', hk', hle'⟩
    · rw [importText, hnone]
      rfl
    · rw [hk] at hk'
      have := hb.keyword_lt
      have := Option.some.inj hk'
      omega
  · rfl

/-- Above the opening brace of the class there are more imports, at most. -/
theorem exists_front (h : EditsLines settings s source body) (hs : Spelled settings s)
    (hi : ImportsAbove s source name) (hname : ClassWord name)
    (hf : findClass? source name = some body) {before z : List Char}
    (hwhole : mask source = before ++ '\x7b' :: z) (hbefore : before.length = body.opening) :
    ∃ f r, SplitsAbove source before f r ∧
      let before' := f ++ (maskedLines (newImports settings s source) ++ r)
      weave (fun _ => false)
          (fun i => if i = before.length + 1 then [] else importsAt settings s source i) 0
          (before ++ ['\x7b']) = before' ++ ['\x7b'] ∧
      (Balanced (before ++ '\x7b' :: z) → Balanced (before' ++ '\x7b' :: z)) ∧
      ∃ body', findBody? name (before' ++ '\x7b' :: z) = some body' ∧
        body'.opening = before'.length := by
  obtain ⟨k, hk, hb⟩ := findClass?_placed hf
  rw [findClass?, hwhole] at hf
  by_cases hmissing : missingImports s source = []
  · have hnone : maskedLines (newImports settings s source) = [] := by
      rw [newImports, hmissing]
      rfl
    refine ⟨[], before, ⟨rfl, Or.inl rfl⟩, ?_⟩
    rw [hnone]
    refine ⟨weave_eq_self (fun _ _ _ => rfl) fun i _ _ => ?_, id, body, hf, hbefore.symm⟩
    rw [importsAt, importText, hmissing]
    split_ifs <;> first | rfl | contradiction
  · have hplace : importInsertionPoint source ≤ k := by
      obtain ⟨k', hk', hle⟩ := hi.resolve_left hmissing
      rw [hk] at hk'
      exact (Option.some.inj hk') ▸ hle
    have hlt : importInsertionPoint source < before.length := by
      have := hb.keyword_lt
      omega
    obtain ⟨f, r, habove, hwoven⟩ := front_reconciled h hs hmissing hwhole hlt
    obtain ⟨hsplit, hstart⟩ := habove
    have hsound := sound_newImports hs source
    generalize hlines : newImports settings s source = is at hwoven hsound
    have hne : is ≠ [] := by
      rw [← hlines]
      simpa [newImports] using hmissing
    have hall : ∀ y, before ++ y = f ++ (r ++ y) := fun y => by rw [hsplit, List.append_assoc]
    rw [hwhole, hall] at hk
    rw [hall] at hf
    refine ⟨f, r, ⟨hsplit, hstart⟩, ?_, fun hbalanced => ?_, ?_⟩
    · have hbrace : importsAt settings s source before.length = [] := if_neg (by omega)
      rw [← hwoven, weave_append, Nat.zero_add, weave, weave, hbrace]
      refine congrArg₂ _ (weave_congr (fun _ _ _ => rfl) fun i _ hle => ?_) ?_
      · split_ifs <;> first | rfl | omega
      · simp
    · rw [hall, ← List.nil_append (r ++ _)] at hbalanced
      have hadded := balanced_of_brackets ((neutral_maskedLines hsound).stack [])
      simpa using hbalanced.replace .nil hadded
    · have hline : f = [] ∨ ∃ xs, f = xs ++ ['\n'] ∧ xs.length ≤ k := by
        rcases hstart with hnil | ⟨xs, hxs, hlen⟩
        · exact Or.inl hnil
        · exact Or.inr ⟨xs, hxs, by omega⟩
      obtain ⟨body', hfound, hopening⟩ := findBody?_below hsound hne hname hline hk hf
      refine ⟨body', by simpa using hfound, ?_⟩
      rw [hopening, ← hbefore, hsplit]
      simp only [List.length_append]
      omega

/-- **The mask of the new text, part by part:** what stands above the opening brace, what the pass
makes of the text between the braces, and what stands below. -/
theorem mask_reconciled_parts (h : EditsLines settings s source body) (hs : Spelled settings s)
    (hi : ImportsAbove s source name) (hf : findClass? source name = some body)
    {before m after : List Char}
    (hwhole : mask source = (before ++ ['\x7b']) ++ (m ++ '\x7d' :: after))
    (hbefore : (before ++ ['\x7b']).length = body.opening + 1)
    (hplaced : ∀ d ∈ body.members,
      body.opening + 1 ≤ d.start ∧ d.stop ≤ body.opening + 1 + m.length) :
    mask (reconciled settings s source body) =
      weave (fun _ => false)
          (fun i => if i = before.length + 1 then [] else importsAt settings s source i) 0
          (before ++ ['\x7b']) ++
        (stubsAt s body (body.opening + 1) ++
          edited (isCut s body) (stubsAt s body) (body.opening + 1) m ++ '\x7d' :: after) := by
  obtain ⟨k, -, hb⟩ := findClass?_placed hf
  have hpass : Pass (mask source) ('\x7d' :: after) (before ++ ['\x7b']).length body.members
      (isRemoved s) (isCut s body) (stubsAt s body) (labelsAt s body) := by
    rw [hbefore]
    exact pass_reconciled h hs hb rfl
  have hinside : ∀ i, (before ++ ['\x7b']).length ≤ i →
      insertedMask settings s source body i = stubsAt s body i := fun i hle => by
    rw [insertedMask, importsAt_eq_nil hi hf (by omega), List.append_nil]
  rw [(mask_reconciled h hs hi hf).1, hpass.weave_eq hwhole (by rwa [hbefore]) hinside, hbefore]
  swap
  · intro hne
    rw [hbefore, stubsAt] at hne
    rw [hbefore]
    split_ifs at hne with hplace
    · rw [hplace]
      exact h.stub (fun hadded => hne (by rw [stubText_of_nil hadded]; rfl)) hb
    · exact absurd rfl hne
  refine congrArg (· ++ _) (weave_congr (fun _ _ _ => rfl) fun i _ hle => ?_)
  have hstubs : i ≠ body.opening + 1 → stubsAt s body i = [] := fun hne => if_neg (by
    have := (opening_lt_stubPlace (s := s) hb).1
    omega)
  simp only [List.length_append, List.length_singleton] at hbefore
  rw [hbefore]
  split_ifs with hend
  · rfl
  · rw [insertedMask, hstubs hend, List.nil_append]

/-- What is read in a text after a reconciliation. Above the opening brace of the class stood `f`
and `r`, and between them stand the missing imports now. The class is found again, and its members
are those that stayed, then the stubs; brackets and literals are closed. -/
structure Reread (settings : Settings) (s : Service) (source : List Char) (name : String)
    (body : ClassBody) (f r : List Char) (body' : ClassBody) : Prop where
  before : ∃ z, mask source = (f ++ r) ++ '\x7b' :: z
  opening : (f ++ r).length = body.opening
  place : f = [] ∨ ∃ xs, f = xs ++ ['\n'] ∧ xs.length = importInsertionPoint source
  after : ∃ z, mask (reconciled settings s source body) =
    f ++ (maskedLines (newImports settings s source) ++ r) ++ '\x7b' :: z
  opening_after : body'.opening = (f ++ (maskedLines (newImports settings s source) ++ r)).length
  balanced : balanceProblems (reconciled settings s source body) = []
  found : findClass? (reconciled settings s source body) name = some body'
  labels : body'.members.map Member.label = (kept s body).map Member.label ++ stubLabels s body

/-- **A class that has been reconciled is found again,** below its imports. -/
theorem exists_reread (h : EditsLines settings s source body) (hs : Spelled settings s)
    (hi : ImportsAbove s source name) (hf : findClass? source name = some body)
    (balanced : balanceProblems source = []) (hname : ClassWord name) :
    ∃ f r body', Reread settings s source name body f r body' := by
  have hbalanced := balanced_mask balanced
  obtain ⟨before, m, after, hwhole, hbefore, hm, -, hmembers⟩ := exists_inside hbalanced hf
  obtain ⟨k, -, hb⟩ := findClass?_placed hf
  have hdrop : (mask source).drop (body.opening + 1) = m ++ '\x7d' :: after := by
    rw [hwhole, ← hbefore, List.drop_left]
  have hwithin := (hm.tiles_membersFrom (Nat.lt_succ_self _) (body.opening + 1)
    ('\x7d' :: after)).within
  rw [← hmembers] at hwithin
  have hmask := mask_reconciled_parts h hs hi hf hwhole hbefore fun d hd =>
    ⟨(hwithin d hd).1, (hwithin d hd).2.2⟩
  obtain ⟨hnew, hlabels⟩ := labelsIn_reconciled h hs hb hm hdrop hmembers
  have hsplit : ∀ xs z : List Char, xs ++ ['\x7b'] ++ z = xs ++ '\x7b' :: z := fun xs z => by simp
  rw [hsplit] at hwhole
  have hlength : before.length = body.opening := by simpa using hbefore
  obtain ⟨f, r, habove, hfront, hclosed, body₁, hfound, hopening⟩ :=
    exists_front h hs hi hname hf hwhole hlength
  rw [hfront, hsplit] at hmask
  have hbrace : '\x7b' ∉ name.toList := hname.word.notMem (by decide)
  obtain ⟨body', hfound', hopening', hbody'⟩ := findBody?_replace hbrace hnew hfound hopening
  have hbrackets : bracketProblems [] 1 (mask (reconciled settings s source body)) = [] := by
    rw [hwhole] at hbalanced
    have hopen := hclosed hbalanced
    rw [List.append_cons] at hopen
    have hall := hopen.replace hm hnew
    rw [← List.append_cons, ← hmask] at hall
    exact balanced_iff.1 hall
  refine ⟨f, r, body', ?_⟩
  obtain ⟨rfl, hplace⟩ := habove
  exact
    { before := ⟨_, hwhole⟩
      opening := hlength
      place := hplace
      after := ⟨_, hmask⟩
      opening_after := hopening'.trans hopening
      balanced := by
        rw [balanceProblems, (mask_reconciled h hs hi hf).2 (List.append_eq_nil_iff.1 balanced).1,
          hbrackets]
        rfl
      found := by rw [findClass?, hmask]; exact hfound'
      labels := hbody'.trans hlabels }

end ApiScaffold.Reconcile
