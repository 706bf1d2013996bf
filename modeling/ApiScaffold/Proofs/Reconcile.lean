import ApiScaffold.Generate
import ApiScaffold.Proofs.Splice
import ApiScaffold.Proofs.TypeScript.Spans
import Mathlib.Tactic

/-!
# What a reconciliation changes in a source text

The new text of a service is its old one in one pass: the methods that go are left out, the stubs of
new operations are put behind the last member that stays, and missing imports at their place. All
else stays where it is.

* `isCut` says of an offset that it lies in a method that goes, `insertedAt` what is put in front of
  the character at an offset;
* `apply_edits`: the edits of a reconciliation come to this pass, whatever the source text;
* `reconcileSource_eq`: this is the text that is written; what stays of the old text is in it, once
  and in order, and each member that stays is in it as it was.
-/

namespace ApiScaffold.Reconcile

open TypeScript Splice

/-- Whether an offset lies in a method that is cut out. -/
def isCut (s : Service) (body : ClassBody) (i : ℕ) : Bool :=
  (removed s body).any fun m => m.start ≤ i && i < m.stop

/-- The place of the stubs: the end of the last member that stays, or else just behind the opening
brace. -/
def stubPlace (s : Service) (body : ClassBody) : ℕ :=
  match (kept s body).getLast? with
  | some m => m.stop
  | none => body.opening + 1

/-- The stubs of the operations that the class has no method for. -/
def stubText (s : Service) (body : ClassBody) : List Char :=
  if (added s body).isEmpty then []
  else if (kept s body).isEmpty then (stubs (added s body)).drop 1 ++ ['\n']
  else stubs (added s body)

/-- The lines of the imports that the source text lacks. -/
def importText (settings : Settings) (s : Service) (source : List Char) : List Char :=
  let lines := Render.joinLines ((missingImports s source).map (Render.classImport settings))
  if (missingImports s source).isEmpty then []
  else if importInsertionPoint source = 0 then lines ++ ['\n']
  else '\n' :: lines

/-- What a reconciliation puts in front of the character at an offset. -/
def insertedAt (settings : Settings) (s : Service) (source : List Char) (body : ClassBody)
    (i : ℕ) : List Char :=
  (if i = stubPlace s body then stubText s body else []) ++
    (if i = importInsertionPoint source then importText settings s source else [])

/-- The text of a service after its reconciliation. -/
def reconciled (settings : Settings) (s : Service) (source : List Char) (body : ClassBody) :
    List Char :=
  weave (isCut s body) (insertedAt settings s source body) 0 source

/-- Missing imports, if there are any, come before the keyword of the class. -/
def ImportsAbove (s : Service) (source : List Char) (name : String) : Prop :=
  missingImports s source = [] ∨
    ∃ k, keywordOffset? name.toList none (mask source) = some k ∧ importInsertionPoint source ≤ k

variable {settings : Settings} {s : Service} {source : List Char} {name : String} {body : ClassBody}

/-! ### The edits one by one -/

theorem insertStubs_eq (s : Service) (body : ClassBody) :
    insertStubs s body =
      if (added s body).isEmpty then [] else [insertion (stubPlace s body) (stubText s body)] := by
  unfold insertStubs stubPlace stubText
  by_cases ha : (added s body).isEmpty = true
  · simp [ha]
  · cases hk : (kept s body).getLast? with
    | none => simp [ha, List.getLast?_eq_none_iff.1 hk]
    | some m =>
      have hne : (kept s body).isEmpty = false := by
        cases h : kept s body with
        | nil => rw [h] at hk; cases hk
        | cons _ _ => rfl
      simp [ha, hne]

theorem insertImports_eq (settings : Settings) (s : Service) (source : List Char) :
    insertImports settings s source =
      if (missingImports s source).isEmpty then []
      else [insertion (importInsertionPoint source) (importText settings s source)] := by
  unfold insertImports importText
  by_cases hm : (missingImports s source).isEmpty = true
  · simp [hm]
  · simp [hm]

/-- There is nothing to edit exactly if no method goes, none comes and no import is missing. -/
theorem edits_eq_nil_iff :
    (changes settings s source body).edits = [] ↔
      removed s body = [] ∧ added s body = [] ∧ missingImports s source = [] := by
  simp only [changes, insertStubs_eq, insertImports_eq, List.append_eq_nil_iff, List.map_eq_nil_iff,
    ite_eq_left_iff, List.cons_ne_nil, imp_false, not_not, List.isEmpty_iff, and_assoc]

/-- The edits of a reconciliation: cuts, then at most two insertions. -/
theorem mem_edits {e : Edit} (he : e ∈ (changes settings s source body).edits) :
    (∃ m ∈ removed s body, e = ⟨m.start, m.stop, []⟩) ∨
      (e = insertion (stubPlace s body) (stubText s body)) ∨
      (missingImports s source ≠ [] ∧
        e = insertion (importInsertionPoint source) (importText settings s source)) := by
  simp only [changes, List.mem_append, List.mem_map, insertStubs_eq, insertImports_eq] at he
  rcases he with (⟨m, hm, rfl⟩ | he) | he
  · exact Or.inl ⟨m, hm, rfl⟩
  · split_ifs at he
    · cases he
    · exact Or.inr (Or.inl (List.mem_singleton.1 he))
  · split_ifs at he with hi
    · cases he
    · exact Or.inr (Or.inr ⟨fun h => hi (by rw [h]; rfl), List.mem_singleton.1 he⟩)

/-! ### Places -/

theorem mem_removed {m : Member} :
    m ∈ removed s body ↔ m ∈ body.members ∧ isRemoved s m = true := List.mem_filter

theorem mem_kept {m : Member} :
    m ∈ kept s body ↔ m ∈ body.members ∧ isRemoved s m = false := by
  unfold kept
  rw [List.mem_filter, Bool.not_eq_true']

theorem kind_of_isRemoved {m : Member} (h : isRemoved s m = true) : m.kind = .method := by
  simp only [isRemoved, Bool.and_eq_true, beq_iff_eq] at h
  exact h.1.1

/-- Two members do not overlap. -/
theorem apart_of_ne {size k : ℕ} (hb : body.Placed size k) {a b : Member} (ha : a ∈ body.members)
    (hb' : b ∈ body.members) (hne : a ≠ b) : a.stop ≤ b.start ∨ b.stop ≤ a.start := by
  have hapart : body.members.Pairwise fun a b : Member => a.stop ≤ b.start ∨ b.stop ≤ a.start :=
    hb.inOrder.imp fun h => Or.inl h
  have : Std.Symm fun a b : Member => a.stop ≤ b.start ∨ b.stop ≤ a.start :=
    ⟨fun _ _ h => h.symm⟩
  exact hapart.forall ha hb' hne

theorem ne_of_removed_kept {a b : Member} (ha : a ∈ removed s body) (hb : b ∈ kept s body) :
    a ≠ b := by
  rintro rfl
  have h₁ := (mem_removed.1 ha).2
  rw [(mem_kept.1 hb).2] at h₁
  cases h₁

/-- The stubs come behind every member that stays. -/
theorem stop_le_stubPlace {size k : ℕ} (hb : body.Placed size k) {m : Member}
    (hm : m ∈ kept s body) : m.stop ≤ stubPlace s body := by
  unfold stubPlace
  cases hl : (kept s body).getLast? with
  | none =>
    rw [List.getLast?_eq_none_iff.1 hl] at hm
    exact absurd hm List.not_mem_nil
  | some l =>
    obtain ⟨front, hf⟩ := List.getLast?_eq_some_iff.1 hl
    have hord : (kept s body).Pairwise fun a b => a.stop ≤ b.start := hb.inOrder.filter _
    rw [hf, List.mem_append, List.mem_singleton] at hm
    rw [hf] at hord
    rcases hm with hm | rfl
    · have hml := (List.pairwise_append.1 hord).2.2 m hm l (List.mem_singleton.2 rfl)
      have hl' : l ∈ kept s body := by rw [hf]; simp
      have := (hb.between l (mem_kept.1 hl').1).start_le
      dsimp only
      omega
    · exact le_rfl

/-- The stubs are not put into a member that goes. -/
theorem stubPlace_apart {size k : ℕ} (hb : body.Placed size k) {m : Member}
    (hm : m ∈ removed s body) : m.stop ≤ stubPlace s body ∨ stubPlace s body ≤ m.start := by
  have hmem := (mem_removed.1 hm).1
  unfold stubPlace
  cases hl : (kept s body).getLast? with
  | none => exact Or.inr (hb.between m hmem).low_le
  | some l =>
    have hk : l ∈ kept s body := List.mem_of_getLast? hl
    have hlm := (mem_kept.1 hk).1
    rcases apart_of_ne hb hmem hlm (ne_of_removed_kept hm hk) with h | h
    · have := (hb.between l hlm).start_le
      exact Or.inl (by dsimp only; omega)
    · exact Or.inr h

theorem opening_lt_stubPlace {size k : ℕ} (hb : body.Placed size k) :
    body.opening < stubPlace s body ∧ stubPlace s body ≤ body.closing := by
  unfold stubPlace
  cases hl : (kept s body).getLast? with
  | none => exact ⟨Nat.lt_succ_self _, hb.opening_lt⟩
  | some l =>
    have hlm := (mem_kept.1 (List.mem_of_getLast? hl)).1
    have h := hb.between l hlm
    have h₁ := h.low_le
    have h₂ := h.start_le
    exact ⟨by dsimp only; omega, h.le_high⟩

/-- Missing imports are put above the body of the class. -/
theorem insertionPoint_lt {size k : ℕ} (hb : body.Placed size k)
    (hk : keywordOffset? name.toList none (mask source) = some k)
    (hi : ImportsAbove s source name) (hm : missingImports s source ≠ []) :
    importInsertionPoint source < body.opening := by
  rcases hi with h | ⟨k', hk', hle⟩
  · exact absurd h hm
  · rw [hk] at hk'
    cases hk'
    have := hb.keyword_lt
    omega

/-! ### The edits together -/

theorem edits_within {k : ℕ} (hb : body.Placed source.length k)
    (hk : keywordOffset? name.toList none (mask source) = some k)
    (hi : ImportsAbove s source name) :
    ∀ e ∈ (changes settings s source body).edits, e.Within source.length := by
  intro e he
  have hc := hb.closing_lt
  rcases mem_edits he with ⟨m, hm, rfl⟩ | rfl | ⟨hne, rfl⟩
  · have h := hb.between m (mem_removed.1 hm).1
    have h₁ := h.start_le
    have h₂ := h.le_high
    exact ⟨by dsimp only; omega, by dsimp only; omega, by dsimp only; omega⟩
  · have h := (opening_lt_stubPlace (s := s) hb).2
    exact ⟨by simp only [insertion]; omega, le_rfl, by simp only [insertion]; omega⟩
  · have h := insertionPoint_lt hb hk hi hne
    have h' := hb.opening_lt
    exact ⟨by simp only [insertion]; omega, le_rfl, by simp only [insertion]; omega⟩

/-- A member that goes is not empty. -/
theorem start_lt_of_mem_removed {size k : ℕ} (hb : body.Placed size k) {m : Member}
    (hm : m ∈ removed s body) : m.start < m.stop :=
  (hb.between m (mem_removed.1 hm).1).nonempty (kind_of_isRemoved (mem_removed.1 hm).2)

/-- The members that go are cut out apart from each other. -/
theorem cuts_apart {size k : ℕ} (hb : body.Placed size k) :
    ((removed s body).map fun m => (⟨m.start, m.stop, []⟩ : Edit)).Pairwise Edit.Apart := by
  rw [List.pairwise_map]
  have hord : (removed s body).Pairwise fun a b => a.stop ≤ b.start := hb.inOrder.filter _
  refine hord.imp_of_mem fun {a b} ha _ hab => ?_
  have hpos := start_lt_of_mem_removed hb ha
  exact ⟨Or.inl (by dsimp only; omega), by dsimp only; omega⟩

theorem edits_apart {k : ℕ} (hb : body.Placed source.length k)
    (hk : keywordOffset? name.toList none (mask source) = some k)
    (hi : ImportsAbove s source name) :
    (changes settings s source body).edits.Pairwise Edit.Apart := by
  have cut_stub : ∀ m ∈ removed s body,
      Edit.Apart ⟨m.start, m.stop, []⟩ (insertion (stubPlace s body) (stubText s body)) := by
    intro m hm
    have hpos := start_lt_of_mem_removed hb hm
    have h := stubPlace_apart hb hm
    simp only [Edit.Apart, insertion]
    omega
  have cut_import : missingImports s source ≠ [] → ∀ m ∈ removed s body,
      Edit.Apart ⟨m.start, m.stop, []⟩
        (insertion (importInsertionPoint source) (importText settings s source)) := by
    intro hne m hm
    have hpos := start_lt_of_mem_removed hb hm
    have hlow := (hb.between m (mem_removed.1 hm).1).low_le
    have h := insertionPoint_lt hb hk hi hne
    simp only [Edit.Apart, insertion]
    omega
  have stub_import : missingImports s source ≠ [] →
      Edit.Apart (insertion (stubPlace s body) (stubText s body))
        (insertion (importInsertionPoint source) (importText settings s source)) := by
    intro hne
    have hstub := (opening_lt_stubPlace (s := s) hb).1
    have h := insertionPoint_lt hb hk hi hne
    simp only [Edit.Apart, insertion]
    omega
  simp only [changes, insertStubs_eq, insertImports_eq, List.pairwise_append]
  refine ⟨⟨cuts_apart hb, ?_, ?_⟩, ?_, ?_⟩
  · split_ifs <;> simp
  · intro a ha b hb'
    obtain ⟨m, hm, rfl⟩ := List.mem_map.1 ha
    split_ifs at hb'
    · cases hb'
    · rw [List.mem_singleton.1 hb']
      exact cut_stub m hm
  · split_ifs <;> simp
  · intro a ha b hb'
    split_ifs at hb' with hmiss
    · cases hb'
    · have hne : missingImports s source ≠ [] := fun h => hmiss (by rw [h]; rfl)
      rw [List.mem_singleton.1 hb']
      rcases List.mem_append.1 ha with ha | ha
      · obtain ⟨m, hm, rfl⟩ := List.mem_map.1 ha
        exact cut_import hne m hm
      · split_ifs at ha
        · cases ha
        · rw [List.mem_singleton.1 ha]
          exact stub_import hne

theorem covers_edits (i : ℕ) :
    covers (changes settings s source body).edits i = isCut s body i := by
  have no_insertion : ∀ p text, covers [insertion p text] i = false := by
    intro p text
    simp only [covers, insertion, List.any_cons, List.any_nil, Bool.or_false,
      Bool.and_eq_false_iff, decide_eq_false_iff_not]
    omega
  have stubs_none : covers (insertStubs s body) i = false := by
    rw [insertStubs_eq]
    split_ifs
    · rfl
    · exact no_insertion _ _
  have imports_none : covers (insertImports settings s source) i = false := by
    rw [insertImports_eq]
    split_ifs
    · rfl
    · exact no_insertion _ _
  unfold covers at *
  simp only [changes, List.any_append, stubs_none, imports_none, Bool.or_false, List.any_map,
    isCut, Function.comp_def, Nat.cast_le, Nat.cast_lt]

/-- What edits with other texts put in at an offset. -/
theorem textAt_mapText {size k : ℕ} (hb : body.Placed size k) {g : List Char → List Char}
    (hg : g [] = []) (i : ℕ) :
    textAt ((changes settings s source body).edits.map (Edit.mapText g)) i =
      (if i = stubPlace s body then g (stubText s body) else []) ++
        (if i = importInsertionPoint source then g (importText settings s source) else []) := by
  -- a cut puts nothing anywhere
  have cuts : ((removed s body).map fun m => (⟨m.start, m.stop, []⟩ : Edit)).filter
      (fun e => e.start == (i : ℤ) && e.stop == (i : ℤ)) = [] := by
    rw [List.filter_eq_nil_iff]
    intro e he
    obtain ⟨m, hm, rfl⟩ := List.mem_map.1 he
    have := start_lt_of_mem_removed hb hm
    simp only [Bool.and_eq_true, beq_iff_eq]
    omega
  have replaced : ((changes settings s source body).edits.filter
      fun e => e.start == (i : ℤ) && (i : ℤ) < e.stop).flatMap (fun e => g e.text) = [] := by
    rw [List.flatMap_eq_nil_iff]
    intro e he
    obtain ⟨he, hr⟩ := List.mem_filter.1 he
    rcases mem_edits he with ⟨m, -, rfl⟩ | rfl | ⟨-, rfl⟩
    · exact hg
    · simp only [insertion, Bool.and_eq_true, beq_iff_eq] at hr
      have := of_decide_eq_true hr.2
      omega
    · simp only [insertion, Bool.and_eq_true, beq_iff_eq] at hr
      have := of_decide_eq_true hr.2
      omega
  have here : ∀ p text, ([insertion p text].filter
      fun e => e.start == (i : ℤ) && e.stop == (i : ℤ)).flatMap (fun e => g e.text) =
        if i = p then g text else [] := by
    intro p text
    by_cases h : i = p
    · simp [insertion, h]
    · simp [insertion, h, Ne.symm h]
  simp only [textAt, List.filter_map, List.flatMap_map]
  change (((changes settings s source body).edits.filter
      fun e => e.start == (i : ℤ) && e.stop == (i : ℤ)).flatMap fun e => g e.text) ++
    (((changes settings s source body).edits.filter
      fun e => e.start == (i : ℤ) && (i : ℤ) < e.stop).flatMap fun e => g e.text) = _
  rw [replaced, List.append_nil]
  simp only [changes, List.filter_append, List.flatMap_append, cuts, insertStubs_eq,
    insertImports_eq]
  congr 1
  · by_cases ha : (added s body).isEmpty = true
    · simp [ha, stubText, hg]
    · simpa [ha] using here (stubPlace s body) (stubText s body)
  · by_cases hm : (missingImports s source).isEmpty = true
    · simp [hm, importText, hg]
    · simpa [hm] using here (importInsertionPoint source) (importText settings s source)

theorem textAt_edits {size k : ℕ} (hb : body.Placed size k) (i : ℕ) :
    textAt (changes settings s source body).edits i = insertedAt settings s source body i := by
  have hid : Edit.mapText id = id := rfl
  have hsame := @textAt_mapText settings s source body size k hb id rfl i
  rwa [hid, List.map_id] at hsame

/-- The edits of a reconciliation come to one pass over the source text. -/
theorem apply_edits (hf : findClass? source name = some body) (hi : ImportsAbove s source name) :
    Splice.apply source (changes settings s source body).edits =
      reconciled settings s source body := by
  obtain ⟨k, hk, hb⟩ := findClass?_placed hf
  rw [apply_eq_weave (edits_within hb hk hi) (edits_apart hb hk hi)]
  exact weave_congr (fun i _ _ => covers_edits i) fun i _ _ => textAt_edits hb i

/-! ### What stays -/

/-- A member that stays is left as it is. -/
theorem kept_infix (hf : findClass? source name = some body) (hi : ImportsAbove s source name)
    {m : Member} (hm : m ∈ kept s body) :
    (source.drop m.start).take (m.stop - m.start) <:+: reconciled settings s source body := by
  obtain ⟨k, hk, hb⟩ := findClass?_placed hf
  have hbm := hb.between m (mem_kept.1 hm).1
  rcases hbm.start_le.lt_or_eq with hlt | heq
  · refine infix_weave hlt (by have := hbm.le_high; have := hb.closing_lt; omega) ?_ ?_
    · intro i h₁ h₂
      simp only [isCut, List.any_eq_false, Bool.and_eq_true, decide_eq_true_eq]
      intro r hr
      rcases apart_of_ne hb (mem_removed.1 hr).1 (mem_kept.1 hm).1 (ne_of_removed_kept hr hm) with
        h | h <;> omega
    · intro i h₁ h₂
      have hstub := stop_le_stubPlace hb hm
      unfold insertedAt
      rw [if_neg (by omega), List.nil_append]
      by_cases hmiss : missingImports s source = []
      · simp [importText, hmiss]
      · have := insertionPoint_lt hb hk hi hmiss
        have := hbm.low_le
        rw [if_neg (by omega)]
  · rw [heq, Nat.sub_self]
    exact List.nil_infix

/-- Of a sum over places only the one that counts is left. -/
theorem sum_length_at {n p : ℕ} (hp : p < n) (text : List Char) :
    ((List.range n).map fun k => (if k = p then text else []).length).sum = text.length := by
  induction n with
  | zero => omega
  | succ n ih =>
    rw [List.range_succ, List.map_append, List.sum_append, List.map_singleton, List.sum_singleton]
    by_cases h : n = p
    · subst h
      have others : ((List.range n).map fun k => (if k = n then text else []).length).sum = 0 := by
        rw [List.sum_eq_zero]
        intro x hx
        obtain ⟨k, hk, rfl⟩ := List.mem_map.1 hx
        rw [if_neg (by have := List.mem_range.1 hk; omega)]
        rfl
      rw [others, if_pos rfl, Nat.zero_add]
    · rw [ih (by omega), if_neg h, List.length_nil, Nat.add_zero]

/-- A reconciliation adds its stubs and its imports once. -/
theorem length_reconciled (hf : findClass? source name = some body)
    (hi : ImportsAbove s source name) :
    (reconciled settings s source body).length =
      (survivors (isCut s body) 0 source).length + (stubText s body).length +
        (importText settings s source).length := by
  obtain ⟨k, hk, hb⟩ := findClass?_placed hf
  have hstub := (opening_lt_stubPlace (s := s) hb).2
  have hclose := hb.closing_lt
  have imports : ((List.range (source.length + 1)).map fun k =>
      (if k = importInsertionPoint source then importText settings s source else []).length).sum =
        (importText settings s source).length := by
    by_cases hmiss : missingImports s source = []
    · simp [importText, hmiss]
    · have := insertionPoint_lt hb hk hi hmiss
      have := hb.opening_lt
      exact sum_length_at (by omega) _
  unfold reconciled
  rw [length_weave]
  simp only [insertedAt, List.length_append, Nat.zero_add, List.sum_map_add]
  rw [sum_length_at (by omega), imports, Nat.add_assoc]

/-- **What a reconciliation writes.** If no method goes, none comes and no import is missing,
nothing is written. Otherwise the text that is written is the old one in one pass: the methods that
are neither operations nor protected are cut out, the stubs of the operations that are no methods
come behind the last member that stays, and the missing imports at their place. Whatever is not cut
out is in it, once and in order, nothing else is but the stubs and imports, and each member that
stays is in it as it was. -/
theorem reconcileSource_eq (hf : findClass? source (Naming.className s.name .service) = some body)
    (hi : ImportsAbove s source (Naming.className s.name .service))
    (settings : Settings) (tree : FileTree) (path : DiskPath) :
    reconcileSource settings tree path s source =
        (if removed s body = [] ∧ added s body = [] ∧ missingImports s source = [] then
          ⟨tree, [.upToDate path.toString], .ok ⟨path, .reconciled, []⟩⟩
        else
          let done := writeSource tree path (reconciled settings s source body)
            (some (Naming.className s.name .service)) .reconciled
          { done with
            log := .reconciling path.toString ((added s body).map (·.name))
              ((removed s body).map (·.name)) :: done.log }) ∧
      (survivors (isCut s body) 0 source).Sublist (reconciled settings s source body) ∧
      (reconciled settings s source body).length =
        (survivors (isCut s body) 0 source).length + (stubText s body).length +
          (importText settings s source).length ∧
      ∀ m ∈ kept s body,
        (source.drop m.start).take (m.stop - m.start) <:+: reconciled settings s source body := by
  refine ⟨?_, survivors_sublist source, length_reconciled hf hi, fun m hm => kept_infix hf hi hm⟩
  simp only [reconcileSource, hf, List.isEmpty_iff, edits_eq_nil_iff, apply_edits hf hi]
  rfl

/-- A service whose file has an import, a method that goes, a hand-written one that stays, and lacks
an import and a method. -/
def toyService : Service :=
  { name := "Toy"
    description := ""
    methods := [⟨.get, "list", "/toys", none, none⟩,
      ⟨.post, "add", "/toys", none, some ⟨none, some [⟨"toy", "Toy"⟩]⟩⟩]
    imports := [⟨"Toy", "@/models/Toy"⟩] }

/-- The file of that service. -/
def toySource : List Char :=
  ("import \x7b Box \x7d from \"./Box\";\nclass ToyService \x7b\n" ++
    "  list() \x7b return \x27\x7d\x27; \x7d\n  drop() \x7b\x7d\n  size = 1;\n\x7d\n").toList

/-- The class in that file. -/
def toyBody : ClassBody :=
  { name := "ToyService"
    opening := 46
    closing := 97
    members := [⟨"list", .method, 47, 72⟩, ⟨"drop", .method, 72, 84⟩, ⟨"size", .property, 84, 96⟩] }

/-- The text that is written in its place. -/
def toyResult : List Char :=
  ("import \x7b Box \x7d from \"./Box\";\nimport \x7b Toy \x7d from \"@/models/Toy.ts\";\n" ++
    "class ToyService \x7b\n  list() \x7b return \x27\x7d\x27; \x7d\n  size = 1;\n\n" ++
    "  add(context: unknown, params: unknown, body: Toy) \x7b\n" ++
    "    throw new Error(\"add is not implemented\");\n  \x7d\n\x7d\n").toList

theorem reconcileSource_toy :
    findClass? toySource "ToyService" = some toyBody ∧
      ImportsAbove toyService toySource "ToyService" ∧
      (reconcileSource {} .empty (.ofString "Toy.ts") toyService toySource =
        let done := writeSource .empty (.ofString "Toy.ts") toyResult (some "ToyService")
          .reconciled
        { done with log := .reconciling "Toy.ts" ["add"] ["drop"] :: done.log }) ∧
      (survivors (isCut toyService toyBody) 0 toySource).Sublist toyResult := by
  have found : findClass? toySource (Naming.className toyService.name .service) = some toyBody := by
    decide +kernel
  have above : ImportsAbove toyService toySource (Naming.className toyService.name .service) :=
    Or.inr ⟨29, by decide +kernel, by decide +kernel⟩
  have changed : ¬(removed toyService toyBody = [] ∧ added toyService toyBody = [] ∧
      missingImports toyService toySource = []) := by decide +kernel
  have names : (added toyService toyBody).map (·.name) = ["add"] ∧
      (removed toyService toyBody).map (·.name) = ["drop"] := by decide +kernel
  have written : reconciled {} toyService toySource toyBody = toyResult := by decide +kernel
  obtain ⟨hwrite, hkept, -⟩ := reconcileSource_eq found above {} .empty (.ofString "Toy.ts")
  rw [if_neg changed, names.1, names.2, written] at hwrite
  rw [written] at hkept
  exact ⟨found, above, hwrite, hkept⟩

end ApiScaffold.Reconcile
