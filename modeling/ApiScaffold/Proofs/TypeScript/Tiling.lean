import ApiScaffold.Proofs.Splice
import ApiScaffold.Proofs.TypeScript.Spans
import ApiScaffold.Proofs.TypeScript.Splits

/-!
# The members of a class cover its text

* `Tiles` says that members cover a text, blanks and semicolons between them apart, each of them
  balanced and not empty; `Balanced.tiles_membersFrom` that those of a balanced text do;
* `Tiles.balanced_cut`: members that cover a part of a text can be cut out of it;
* `membersFrom_congr`: the search does not depend on how many places it may look at, so it comes to
  its end;
* `ClassBody.Tiled` collects what this says about the body of a class in a balanced text,
  `ClassBody.Scanned` what holds in any text, and `findClass?_tiled` states both.
-/

namespace ApiScaffold.TypeScript

/-! ### Members that cover a text -/

/-- A character between members. -/
def isFiller (c : Char) : Bool := Text.isBlank c || c == ';'

theorem balanced_of_filler {t : List Char} (ht : ∀ c ∈ t, isFiller c = true) : Balanced t :=
  .of_plain fun _ hc => isBracket_of_class (List.all_iff_forall_prop.1 (by decide)) (ht _ hc)

/-- The members cover a text that begins at the offset `pos`, blanks and semicolons between them
apart; each is a balanced part of it and not empty. -/
inductive Tiles : (pos : ℕ) → List Char → List Member → Prop
  | filler {pos : ℕ} {t : List Char} (ht : ∀ c ∈ t, isFiller c = true) : Tiles pos t []
  | member {pos : ℕ} {t span rest : List Char} {m : Member} {ms : List Member}
      (ht : ∀ c ∈ t, isFiller c = true) (hspan : Balanced span) (hne : span ≠ [])
      (hstart : m.start = pos + t.length) (hstop : m.stop = m.start + span.length)
      (hrest : Tiles m.stop rest ms) : Tiles pos (t ++ (span ++ rest)) (m :: ms)

/-- Blanks and semicolons in front of a text make no difference. -/
theorem Tiles.prepend {t m : List Char} {pos : ℕ} {ms : List Member}
    (ht : ∀ c ∈ t, isFiller c = true) (h : Tiles (pos + t.length) m ms) :
    Tiles pos (t ++ m) ms := by
  cases h with
  | filler hm =>
    exact .filler fun c hc => (List.mem_append.1 hc).elim (ht c) (hm c)
  | @member _ gap _ _ _ _ hgap hspan hne hstart hstop hrest =>
    have hboth := fun c hc => (List.mem_append.1 hc).elim (ht c) (hgap c)
    rw [← List.append_assoc]
    refine .member hboth hspan hne ?_ hstop hrest
    rw [hstart, List.length_append, Nat.add_assoc]

/-- The search goes on behind a member. Where one without an outline is passed over further than it
reaches, nothing is left anyway. -/
theorem membersFrom_behind (steps pos : ℕ) (span rest tail : List Char) {n : ℕ}
    (hn : rest ≠ [] → n ≤ span.length) :
    membersFrom steps (pos + max span.length n) ((span ++ rest).length - max span.length n)
        ((span ++ (rest ++ tail)).drop (max span.length n)) =
      membersFrom steps (pos + span.length) rest.length (rest ++ tail) := by
  by_cases hrest : rest = []
  · subst hrest
    have hroom : (span ++ ([] : List Char)).length - max span.length n = 0 := by
      rw [List.append_nil]
      omega
    rw [hroom, List.length_nil, membersFrom_zero, membersFrom_zero]
  · rw [Nat.max_eq_left (hn hrest), List.length_append, Nat.add_sub_cancel_left, List.drop_left]

/-- The member that is found at the front of a text at the offset `pos`. -/
def memberAt (steps pos room : ℕ) (cs : List Char) : Member :=
  let gap := leading Text.isBlank room cs
  let decorators := decoratorsLength steps (room - gap) (cs.drop gap)
  let o := outlineFrom [] 0 (room - gap - decorators) ((cs.drop gap).drop decorators)
  ⟨o.name, o.kind, pos, pos + (gap + decorators + o.length)⟩

/-- A balanced text falls into decorators, what has the outline of a member, and a rest. -/
structure Parts (steps : ℕ) (tail dec body rest : List Char) : Prop where
  balanced_dec : Balanced dec
  balanced_body : Balanced body
  balanced_rest : Balanced rest
  body_ne : rest ≠ [] → body ≠ []
  decoratorsLength_eq : decoratorsLength steps (dec ++ (body ++ rest)).length
    (dec ++ (body ++ rest) ++ tail) = dec.length
  length_outline : (outlineFrom [] 0 (body ++ rest).length (body ++ rest ++ tail)).length =
    body.length

theorem Balanced.exists_parts {here : List Char} (h : Balanced here) (steps : ℕ)
    (tail : List Char) : ∃ dec body rest, here = dec ++ (body ++ rest) ∧
      Parts steps tail dec body rest := by
  obtain ⟨dec, behind, rfl, hdec, hdecorators, hbehind⟩ :=
    h.splitsAt_decoratorsLength steps (Stops.zero tail)
  rw [Nat.add_zero] at hdec
  obtain ⟨n, ⟨body, rest, rfl, rfl, hbody, hrest⟩, hpos, houtline⟩ :=
    hbehind.splitsAt_outlineFrom [] tail
  refine ⟨dec, body, rest, rfl, hdecorators, hbody, hrest, fun hne => ?_, hdec.symm, ?_⟩
  · exact List.ne_nil_of_length_pos (hpos (by simp [hne]) rfl)
  · rw [houtline, List.length_nil, Nat.zero_add]

section Parts

variable {steps pos : ℕ} {c : Char} {gap dec body rest tail : List Char}

/-- One step of the search: the parts behind blanks make a member, if they do not begin with a
semicolon. -/
theorem Parts.membersFrom_eq (h : Parts steps tail dec body rest)
    (hgap : ∀ c ∈ gap, Text.isBlank c = true) (hc : (dec ++ (body ++ rest)).head? = some c)
    (hblank : Text.isBlank c = false) (hsemi : c ≠ ';') (pos : ℕ) :
    let m := gap ++ (dec ++ (body ++ rest))
    let o := outlineFrom [] 0 (body ++ rest).length (body ++ rest ++ tail)
    memberAt steps pos m.length (m ++ tail) =
        ⟨o.name, o.kind, pos, pos + (gap ++ (dec ++ body)).length⟩ ∧
      membersFrom (steps + 1) pos m.length (m ++ tail) =
        memberAt steps pos m.length (m ++ tail) ::
          membersFrom steps (pos + (gap ++ (dec ++ body)).length) rest.length (rest ++ tail) := by
  intro m o
  obtain ⟨cs, hhere⟩ := List.head?_eq_some_iff.1 hc
  have hlead : leading Text.isBlank m.length (m ++ tail) = gap.length := by
    dsimp only [m]
    rw [hhere, List.append_assoc, List.length_append]
    exact leading_append hgap hblank (Nat.le_add_right _ _)
  have hdrop : (m ++ tail).drop gap.length = dec ++ (body ++ rest) ++ tail := by
    dsimp only [m]
    rw [List.append_assoc, List.drop_left]
  have hroom : m.length - gap.length = (dec ++ (body ++ rest)).length := by
    dsimp only [m]
    rw [List.length_append, Nat.add_sub_cancel_left]
  have houtline : outlineFrom [] 0 ((dec ++ (body ++ rest)).length - dec.length)
      ((dec ++ (body ++ rest) ++ tail).drop dec.length) = o := by
    rw [List.append_assoc, List.drop_left, List.length_append, Nat.add_sub_cancel_left]
  have hsize : gap.length + dec.length + o.length = (gap ++ (dec ++ body)).length := by
    rw [h.length_outline, List.length_append, List.length_append, Nat.add_assoc]
  have hmember : memberAt steps pos m.length (m ++ tail) =
      ⟨o.name, o.kind, pos, pos + (gap ++ (dec ++ body)).length⟩ := by
    rw [memberAt]
    rw [hlead, hdrop, hroom, h.decoratorsLength_eq, houtline, hsize]
  refine ⟨hmember, ?_⟩
  have hbehind := membersFrom_behind steps pos (gap ++ (dec ++ body)) rest tail
    (n := gap.length + dec.length + 1) fun hr => by
      have := List.length_pos_iff.2 (h.body_ne hr)
      rw [List.length_append, List.length_append]
      omega
  have hwhole : gap ++ (dec ++ body) ++ rest = m := by simp [m]
  have hwhole' : gap ++ (dec ++ body) ++ (rest ++ tail) = m ++ tail := by simp [m]
  rw [hwhole, hwhole'] at hbehind
  have hsome : ¬m.length ≤ gap.length := by
    rw [← Nat.sub_eq_zero_iff_le, hroom, hhere]
    exact Nat.succ_ne_zero _
  have hhead : (dec ++ (body ++ rest) ++ tail).head? ≠ some ';' := by
    rw [hhere]
    exact fun heq => hsemi (Option.some.inj heq)
  rw [hmember, membersFrom]
  dsimp only
  rw [hlead, hdrop, if_neg hsome, if_neg hhead, hroom, h.decoratorsLength_eq, houtline, hsize,
    hbehind]

theorem Parts.span_ne (h : Parts steps tail dec body rest)
    (hc : (dec ++ (body ++ rest)).head? = some c) : dec ++ body ≠ [] := by
  intro hnil
  obtain ⟨rfl, rfl⟩ := List.append_eq_nil_iff.1 hnil
  cases rest with
  | nil => cases hc
  | cons d rest => exact h.body_ne (List.cons_ne_nil d rest) rfl

/-- A semicolon behind blanks is passed over. -/
theorem membersFrom_semicolon (hgap : ∀ c ∈ gap, Text.isBlank c = true) (steps pos : ℕ)
    (rest tail : List Char) :
    membersFrom (steps + 1) pos (gap ++ ';' :: rest).length (gap ++ ';' :: rest ++ tail) =
      membersFrom steps (pos + (gap.length + 1)) rest.length (rest ++ tail) := by
  have hlead : leading Text.isBlank (gap ++ ';' :: rest).length (gap ++ ';' :: rest ++ tail) =
      gap.length := by
    rw [List.append_assoc, List.length_append]
    exact leading_append hgap rfl (Nat.le_add_right _ _)
  rw [membersFrom]
  dsimp only
  rw [hlead, List.append_assoc, List.drop_left, List.length_append, if_neg (by simp),
    List.cons_append, List.head?_cons, if_pos rfl, List.drop_one, List.tail_cons,
    Nat.add_sub_add_left, List.length_cons, Nat.add_sub_cancel, Nat.add_assoc]

/-- No member is found in blanks. -/
theorem membersFrom_blank (hgap : ∀ c ∈ gap, Text.isBlank c = true) (steps pos : ℕ)
    (tail : List Char) : membersFrom steps pos gap.length (gap ++ tail) = [] := by
  cases steps with
  | zero => rfl
  | succ steps =>
    have hlead : leading Text.isBlank gap.length (gap ++ tail) = gap.length := by
      have hstop := @leading_eq_of_stop Text.isBlank 0 tail (Or.inl rfl) gap
      rw [List.takeWhile_eq_self_iff.2 hgap] at hstop
      exact hstop
    rw [membersFrom]
    dsimp only
    rw [hlead, if_pos le_rfl]

end Parts

/-- A balanced text at the front of which no member stands, or one does: nothing but blanks is left,
or a semicolon comes first, or the parts of a member do. -/
theorem Balanced.parts_cases {m : List Char} (h : Balanced m) (steps : ℕ) (tail : List Char) :
    (∀ c ∈ m, Text.isBlank c = true) ∨
    (∃ gap rest, m = gap ++ ';' :: rest ∧ (∀ c ∈ gap, Text.isBlank c = true) ∧ Balanced rest) ∨
    ∃ gap dec body rest c, m = gap ++ (dec ++ (body ++ rest)) ∧
      (∀ c ∈ gap, Text.isBlank c = true) ∧ (dec ++ (body ++ rest)).head? = some c ∧
      Text.isBlank c = false ∧ c ≠ ';' ∧ Parts steps tail dec body rest := by
  have hsplit : m.takeWhile Text.isBlank ++ m.dropWhile Text.isBlank = m :=
    List.takeWhile_append_dropWhile
  have hgap : ∀ c ∈ m.takeWhile Text.isBlank, Text.isBlank c = true :=
    fun c hc => List.mem_takeWhile_imp hc
  have hhere : Balanced (m.dropWhile Text.isBlank) :=
    (hsplit ▸ h).of_append (.of_plain fun c hc => isBracket_of_isBlank (hgap c hc))
  cases hdrop : m.dropWhile Text.isBlank with
  | nil => exact Or.inl (List.dropWhile_eq_nil_iff.1 hdrop)
  | cons c rest =>
    have hblank : Text.isBlank c = false := by
      have hhead := List.head?_dropWhile_not Text.isBlank m
      rw [hdrop] at hhead
      simpa using hhead
    rw [hdrop] at hsplit hhere
    by_cases hsemi : c = ';'
    · subst hsemi
      exact Or.inr (Or.inl ⟨_, rest, hsplit.symm, hgap,
        hhere.of_append (m := [';']) (.plain (by decide) .nil)⟩)
    · obtain ⟨dec, body, rest', hparts, h⟩ := hhere.exists_parts steps tail
      rw [hparts] at hsplit
      exact Or.inr (Or.inr ⟨_, dec, body, rest', c, hsplit.symm, hgap, by rw [← hparts]; rfl,
        hblank, hsemi, h⟩)

/-- One step of the search in a balanced text: nothing but blanks is left, or a semicolon is passed
over, or a member is found. -/
theorem Balanced.membersFrom_cases {m : List Char} (h : Balanced m) (steps pos : ℕ)
    (tail : List Char) :
    ((∀ c ∈ m, Text.isBlank c = true) ∧ membersFrom (steps + 1) pos m.length (m ++ tail) = []) ∨
    (∃ gap rest, m = gap ++ ';' :: rest ∧ (∀ c ∈ gap, Text.isBlank c = true) ∧ Balanced rest ∧
      membersFrom (steps + 1) pos m.length (m ++ tail) =
        membersFrom steps (pos + (gap.length + 1)) rest.length (rest ++ tail)) ∨
    ∃ span rest, m = span ++ rest ∧ span ≠ [] ∧ Balanced span ∧ Balanced rest ∧
      (memberAt steps pos m.length (m ++ tail)).stop = pos + span.length ∧
      membersFrom (steps + 1) pos m.length (m ++ tail) =
        memberAt steps pos m.length (m ++ tail) ::
          membersFrom steps (pos + span.length) rest.length (rest ++ tail) := by
  rcases h.parts_cases steps tail with hblank | ⟨gap, rest, rfl, hgap, hrest⟩ |
    ⟨gap, dec, body, rest, c, rfl, hgap, hc, hblank, hsemi, hparts⟩
  · exact Or.inl ⟨hblank, membersFrom_blank hblank _ _ _⟩
  · exact Or.inr (Or.inl ⟨gap, rest, rfl, hgap, hrest, membersFrom_semicolon hgap ..⟩)
  · obtain ⟨hmember, hmembers⟩ := hparts.membersFrom_eq hgap hc hblank hsemi pos
    have hplain : Balanced gap := .of_plain fun c hc => isBracket_of_isBlank (hgap c hc)
    refine Or.inr (Or.inr ⟨gap ++ (dec ++ body), rest, by simp,
      fun hnil => hparts.span_ne hc (List.append_eq_nil_iff.1 hnil).2,
      hplain.append (hparts.balanced_dec.append hparts.balanced_body), hparts.balanced_rest,
      by rw [hmember], hmembers⟩)

theorem isFiller_of_isBlank {c : Char} (h : Text.isBlank c = true) : isFiller c = true := by
  rw [isFiller, h, Bool.true_or]

/-- **The members that are found in a balanced text cover it.** -/
theorem Balanced.tiles_membersFrom {m : List Char} (h : Balanced m) {steps : ℕ}
    (hsteps : m.length < steps) (pos : ℕ) (tail : List Char) :
    Tiles pos m (membersFrom steps pos m.length (m ++ tail)) := by
  induction steps generalizing m pos with
  | zero => exact absurd hsteps (Nat.not_lt_zero _)
  | succ steps ih =>
    rcases h.membersFrom_cases steps pos tail with ⟨hblank, hnone⟩ |
      ⟨gap, rest, rfl, hblank, hrest, hlater⟩ |
      ⟨span, rest, rfl, hne, hspan, hrest, hstop, hlater⟩
    · rw [hnone]
      exact .filler fun c hc => isFiller_of_isBlank (hblank c hc)
    · have hfiller : ∀ c ∈ gap ++ [';'], isFiller c = true := fun c hc => by
        rcases List.mem_append.1 hc with hc | hc
        · exact isFiller_of_isBlank (hblank c hc)
        · rw [List.mem_singleton.1 hc]
          rfl
      rw [List.length_append, List.length_cons] at hsteps
      rw [hlater, List.append_cons]
      exact Tiles.prepend hfiller (by simpa using ih hrest (by omega) _)
    · have := List.length_pos_iff.2 hne
      rw [List.length_append] at hsteps
      have hstart : (memberAt steps pos (span ++ rest).length (span ++ rest ++ tail)).start = pos :=
        rfl
      rw [hlater]
      generalize memberAt steps pos (span ++ rest).length (span ++ rest ++ tail) = d at *
      rw [← List.nil_append (span ++ rest)]
      refine .member (by simp) hspan hne (by simpa using hstart) (by rw [hstart, hstop]) ?_
      rw [hstop]
      exact ih hrest (by omega) _

/-! ### What the members leave free, and what cutting them out leaves -/

/-- The ranges up to the offset `high` that members leave free, from the offset `low` on: in front
of the first, between each two, and behind the last. -/
def gaps (high : ℕ) : (low : ℕ) → List Member → List (ℕ × ℕ)
  | low, [] => [(low, high)]
  | low, m :: ms => (low, m.start) :: gaps high m.stop ms

/-- The edits that cut members out. -/
def cuts (ms : List Member) : List Splice.Edit := ms.map fun m => ⟨m.start, m.stop, []⟩

section Covered

variable {pos : ℕ} {t before after : List Char} {ms : List Member} {m : Member}

theorem extract_append (before x after : List Char) :
    (before ++ (x ++ after)).extract before.length (before.length + x.length) = x := by
  rw [List.extract_eq_take_drop, List.drop_left, Nat.add_sub_cancel_left, List.take_left]

theorem Tiles.filled (h : Tiles pos t ms) (hbefore : before.length = pos) :
    ∀ g ∈ gaps (pos + t.length) pos ms,
      ∀ c ∈ (before ++ (t ++ after)).extract g.1 g.2, isFiller c = true := by
  induction h generalizing before with
  | filler ht =>
    subst hbefore
    intro g hg
    rw [gaps, List.mem_singleton] at hg
    subst hg
    dsimp only
    rwa [extract_append]
  | @member pos t span rest m ms ht _ _ hstart hstop _ ih =>
    subst hbefore
    intro g hg
    rw [gaps, List.mem_cons] at hg
    rcases hg with rfl | hg
    · dsimp only
      rwa [hstart, List.append_assoc, extract_append]
    · have hlen : (before ++ (t ++ span)).length = m.stop := by
        rw [hstop, hstart, List.length_append, List.length_append, Nat.add_assoc]
      have hend : m.stop + rest.length = before.length + (t ++ (span ++ rest)).length := by
        rw [← hlen]
        simp only [List.length_append]
        omega
      have hlater := ih hlen g (by rwa [hend])
      rwa [show before ++ (t ++ span) ++ (rest ++ after) =
        before ++ (t ++ (span ++ rest) ++ after) by simp] at hlater

theorem Tiles.balanced (h : Tiles pos t ms) (hbefore : before.length = pos) :
    ∀ m ∈ ms, m.start < m.stop ∧ Balanced ((before ++ (t ++ after)).extract m.start m.stop) := by
  induction h generalizing before with
  | filler _ => exact fun m hm => absurd hm List.not_mem_nil
  | @member pos t span rest m ms _ hspan hne hstart hstop _ ih =>
    subst hbefore
    have hlen : (before ++ t).length = m.start := by rw [hstart, List.length_append]
    have hlater : (before ++ t ++ span).length = m.stop := by rw [hstop, List.length_append, hlen]
    have hassoc : before ++ (t ++ (span ++ rest) ++ after) =
        (before ++ t) ++ (span ++ (rest ++ after)) := by simp
    intro d hd
    rcases List.mem_cons.1 hd with rfl | hd
    · have := List.length_pos_iff.2 hne
      refine ⟨by omega, ?_⟩
      rwa [hassoc, hstop, ← hlen, extract_append]
    · have hd := ih hlater d hd
      rwa [List.append_assoc (before ++ t), ← hassoc] at hd

/-- A pass that only leaves characters out does so part by part. -/
theorem survivors_append (dropped : ℕ → Bool) (pos : ℕ) (xs ys : List Char) :
    Splice.survivors dropped pos (xs ++ ys) =
      Splice.survivors dropped pos xs ++ Splice.survivors dropped (pos + xs.length) ys := by
  unfold Splice.survivors
  rw [Splice.weave_append]
  simp only [ite_self]

theorem survivors_eq_self {dropped : ℕ → Bool} {pos : ℕ} {xs : List Char}
    (h : ∀ i, pos ≤ i → i < pos + xs.length → dropped i = false) :
    Splice.survivors dropped pos xs = xs :=
  Splice.weave_eq_self h fun _ _ _ => rfl

theorem survivors_eq_nil {dropped : ℕ → Bool} {pos : ℕ} {xs : List Char}
    (h : ∀ i, pos ≤ i → i < pos + xs.length → dropped i = true) :
    Splice.survivors dropped pos xs = [] := by
  induction xs generalizing pos with
  | nil => rfl
  | cons x xs ih =>
    have hlen : (x :: xs).length = xs.length + 1 := rfl
    have hrest := @ih (pos + 1) fun i h₁ h₂ => h i (by omega) (by omega)
    unfold Splice.survivors at hrest ⊢
    rw [Splice.weave, hrest, h pos le_rfl (by omega)]
    rfl

theorem Tiles.within (h : Tiles pos t ms) :
    ∀ m ∈ ms, pos ≤ m.start ∧ m.start < m.stop ∧ m.stop ≤ pos + t.length := by
  induction h with
  | filler _ => exact fun m hm => absurd hm List.not_mem_nil
  | @member pos t span rest m ms _ _ hne hstart hstop _ ih =>
    have := List.length_pos_iff.2 hne
    have hlen : (t ++ (span ++ rest)).length = t.length + (span.length + rest.length) := by simp
    intro d hd
    rcases List.mem_cons.1 hd with rfl | hd
    · omega
    · have := ih d hd
      omega

/-- What is left of a text when some of the members that cover it are left out. -/
theorem Tiles.balanced_survivors (h : Tiles pos t ms) {out : List Member} (hout : out.Sublist ms)
    {dropped : ℕ → Bool} (hd : ∀ i, pos ≤ i → i < pos + t.length →
      (dropped i = true ↔ ∃ m ∈ out, m.start ≤ i ∧ i < m.stop)) :
    Balanced (Splice.survivors dropped pos t) := by
  induction h generalizing out with
  | @filler pos t ht =>
    rw [survivors_eq_self fun i h₁ h₂ => ?_]
    · exact balanced_of_filler ht
    · rw [List.sublist_nil.1 hout] at hd
      exact Bool.eq_false_iff.2 fun hi => by simpa using (hd i h₁ h₂).1 hi
  | @member pos t span rest m ms ht hspan hne hstart hstop hrest ih =>
    have hlen : (t ++ (span ++ rest)).length = t.length + (span.length + rest.length) := by simp
    have hlater := hrest.within
    have hfront : Splice.survivors dropped pos t = t := by
      refine survivors_eq_self fun i h₁ h₂ => Bool.eq_false_iff.2 fun hi => ?_
      obtain ⟨d, hmem, hstartd, -⟩ := (hd i h₁ (by omega)).1 hi
      rcases List.mem_cons.1 (hout.subset hmem) with rfl | hmem
      · omega
      · have := hlater d hmem
        omega
    rw [survivors_append, survivors_append, hfront, ← hstart, ← hstop]
    cases hout with
    | @cons _ _ _ hout =>
      -- this member stays
      have hkeep : Splice.survivors dropped m.start span = span := by
        refine survivors_eq_self fun i h₁ h₂ => Bool.eq_false_iff.2 fun hi => ?_
        obtain ⟨d, hmem, hstartd, -⟩ := (hd i (by omega) (by omega)).1 hi
        have := hlater d (hout.subset hmem)
        omega
      rw [hkeep]
      have hlast := ih hout fun i h₁ h₂ => hd i (by omega) (by omega)
      exact (balanced_of_filler ht).append (hspan.append hlast)
    | @cons_cons out _ _ hout =>
      have hcut : Splice.survivors dropped m.start span = [] :=
        survivors_eq_nil fun i h₁ h₂ =>
          (hd i (by omega) (by omega)).2 ⟨m, List.mem_cons_self, h₁, by omega⟩
      rw [hcut]
      refine (balanced_of_filler ht).append (ih hout fun i h₁ h₂ => ?_)
      rw [hd i (by omega) (by omega)]
      simp only [List.mem_cons, exists_eq_or_imp]
      exact or_iff_right fun hi => by omega

/-- A balanced part of a balanced text may be replaced by another. -/
theorem Balanced.replace {x y m n : List Char} (h : Balanced (x ++ (m ++ y))) (hm : Balanced m)
    (hn : Balanced n) : Balanced (x ++ (n ++ y)) := by
  refine balanced_of_brackets ?_
  have hall := h.brackets_eq []
  rw [brackets_append] at hall ⊢
  obtain ⟨os, hx, hrest⟩ := Option.bind_eq_some_iff.1 hall
  rw [brackets_append, hm.brackets_eq, Option.bind_some] at hrest
  rw [hx, Option.bind_some, brackets_append, hn.brackets_eq, Option.bind_some, hrest]

theorem covers_cuts (ms : List Member) (i : ℕ) :
    Splice.covers (cuts ms) i = true ↔ ∃ m ∈ ms, m.start ≤ i ∧ i < m.stop := by
  simp [Splice.covers, cuts]

theorem textAt_cuts (ms : List Member) (i : ℕ) : Splice.textAt (cuts ms) i = [] := by
  simp [Splice.textAt, cuts]

/-- **Members that cover a balanced part of a balanced text can be cut out of it,** any of them. -/
theorem Tiles.balanced_cut (h : Tiles pos t ms) (hbefore : before.length = pos)
    (hall : Balanced (before ++ (t ++ after))) (ht : Balanced t) (hord : InOrder ms)
    {out : List Member} (hout : out.Sublist ms) :
    Balanced (Splice.apply (before ++ (t ++ after)) (cuts out)) := by
  have hwithin := fun m hm => h.within m (hout.subset hm)
  have hsize : (before ++ (t ++ after)).length = pos + t.length + after.length := by
    simp [hbefore, Nat.add_assoc]
  have hw : ∀ e ∈ cuts out, e.Within (before ++ (t ++ after)).length := by
    intro e he
    obtain ⟨m, hm, rfl⟩ := List.mem_map.1 he
    have := hwithin m hm
    exact ⟨by simp, by simp; omega, by simp only []; omega⟩
  have hapart : (cuts out).Pairwise Splice.Edit.Apart := by
    refine List.pairwise_map.2 ((hord.sublist hout).imp_of_mem fun {a b} ha hb hab => ?_)
    have := hwithin a ha
    exact ⟨Or.inl (by simpa using hab), by simp only []; omega⟩
  have hnone : ∀ i, (i < pos ∨ pos + t.length ≤ i) → Splice.covers (cuts out) i = false := by
    intro i hi
    refine Bool.eq_false_iff.2 fun hcovers => ?_
    obtain ⟨m, hm, h₁, h₂⟩ := (covers_cuts out i).1 hcovers
    have := hwithin m hm
    omega
  have hleft : Splice.survivors (Splice.covers (cuts out)) 0 (before ++ (t ++ after)) =
      before ++ (Splice.survivors (Splice.covers (cuts out)) pos t ++ after) := by
    rw [survivors_append, survivors_append, survivors_eq_self fun i _ h₂ => hnone i (by omega),
      Nat.zero_add, hbefore, survivors_eq_self fun i h₁ _ => hnone i (Or.inr h₁)]
  rw [Splice.apply_eq_weave hw hapart,
    Splice.weave_congr (fun _ _ _ => rfl) fun i _ _ => textAt_cuts out i]
  change Balanced (Splice.survivors _ 0 _)
  rw [hleft]
  exact hall.replace ht (h.balanced_survivors hout fun i _ _ => covers_cuts out i)

end Covered

/-! ### The search comes to its end -/

theorem decoratorsLength_congr {s t room : ℕ} (hs : room ≤ s) (ht : room ≤ t) (cs : List Char) :
    decoratorsLength s room cs = decoratorsLength t room cs := by
  induction s generalizing t room cs with
  | zero =>
    obtain rfl : room = 0 := by omega
    cases t <;> rfl
  | succ s ih =>
    cases t with
    | zero =>
      obtain rfl : room = 0 := by omega
      rfl
    | succ t =>
      unfold decoratorsLength
      split
      · dsimp only
        split_ifs
        · split
          · rfl
          · split_ifs
            · rfl
            · rw [ih (t := t) (by omega) (by omega)]
        · rw [ih (t := t) (by omega) (by omega)]
      · rfl

/-- **The search looks at all places:** once it may look at more of them than there are characters,
it does not depend on how many. -/
theorem membersFrom_congr {s t room : ℕ} (hs : room < s) (ht : room < t) (pos : ℕ)
    (cs : List Char) : membersFrom s pos room cs = membersFrom t pos room cs := by
  induction s generalizing t pos room cs with
  | zero => exact absurd hs (Nat.not_lt_zero _)
  | succ s ih =>
    cases t with
    | zero => exact absurd ht (Nat.not_lt_zero _)
    | succ t =>
      rw [membersFrom, membersFrom]
      dsimp only
      split_ifs
      · rfl
      · exact ih (by omega) (by omega) _ _
      · rw [decoratorsLength_congr (s := s) (t := t) (by omega) (by omega)]
        exact congrArg _ (ih (by omega) (by omega) _ _)

/-! ### Braces inside the class -/

section Inside

variable {o c : Char} {xs : List Char} {d e k n : ℕ}

/-- With fewer brackets open the search ends earlier. -/
theorem closingFrom_lt_of_add (h : closingFrom o c (e + d) xs = some n) (he : 1 ≤ e) (hd : 1 ≤ d) :
    ∃ j, closingFrom o c e xs = some j ∧ j < n := by
  induction xs generalizing e n with
  | nil => cases h
  | cons x xs ih =>
    rw [closingFrom] at h ⊢
    by_cases h₁ : x = o
    · rw [if_pos h₁] at h ⊢
      obtain ⟨i, hi, rfl⟩ := Option.map_eq_some_iff.1 h
      obtain ⟨j, hj, hlt⟩ := ih (e := e + 1) (by rwa [Nat.add_right_comm]) (by omega)
      exact ⟨j + 1, by rw [hj]; rfl, by omega⟩
    rw [if_neg h₁] at h ⊢
    by_cases h₂ : x = c
    · rw [if_pos h₂, if_neg (show ¬e + d ≤ 1 by omega)] at h
      obtain ⟨i, hi, rfl⟩ := Option.map_eq_some_iff.1 h
      rw [if_pos h₂]
      by_cases h₃ : e ≤ 1
      · exact ⟨0, if_pos h₃, by omega⟩
      · obtain ⟨j, hj, hlt⟩ := ih (e := e - 1) (by rwa [Nat.sub_add_comm he] at hi) (by omega)
        exact ⟨j + 1, by rw [if_neg h₃, hj]; rfl, by omega⟩
    · rw [if_neg h₂] at h ⊢
      obtain ⟨i, hi, rfl⟩ := Option.map_eq_some_iff.1 h
      obtain ⟨j, hj, hlt⟩ := ih hi he
      exact ⟨j + 1, by rw [hj]; rfl, by omega⟩

/-- A bracket in front of the closing one that is found is closed before it. -/
theorem closingFrom_inner (hoc : o ≠ c) (h : closingFrom o c d xs = some n) (hd : 1 ≤ d)
    (hk : k < n) (ho : xs[k]? = some o) :
    ∃ j, closingFrom o c 1 (xs.drop (k + 1)) = some j ∧ k + 1 + j < n := by
  induction xs generalizing d n k with
  | nil => cases h
  | cons x xs ih =>
    rw [closingFrom] at h
    cases k with
    | zero =>
      obtain rfl : x = o := Option.some.inj ho
      rw [if_pos rfl] at h
      obtain ⟨i, hi, rfl⟩ := Option.map_eq_some_iff.1 h
      rw [Nat.add_comm] at hi
      obtain ⟨j, hj, hlt⟩ := closingFrom_lt_of_add hi le_rfl hd
      exact ⟨j, hj, by omega⟩
    | succ k =>
      rw [List.getElem?_cons_succ] at ho
      have later : ∀ {d' i}, closingFrom o c d' xs = some i → 1 ≤ d' → n = i + 1 →
          ∃ j, closingFrom o c 1 ((x :: xs).drop (k + 1 + 1)) = some j ∧ k + 1 + 1 + j < n := by
        rintro d' i hi hd' rfl
        obtain ⟨j, hj, hlt⟩ := ih hi hd' (by omega) ho
        exact ⟨j, by rwa [List.drop_succ_cons], by omega⟩
      split_ifs at h with h₁ h₂ h₃
      · obtain ⟨i, hi, rfl⟩ := Option.map_eq_some_iff.1 h
        exact later hi (by omega) rfl
      · obtain rfl := Option.some.inj h
        exact absurd hk (Nat.not_lt_zero _)
      · obtain ⟨i, hi, rfl⟩ := Option.map_eq_some_iff.1 h
        exact later hi (by omega) rfl
      · obtain ⟨i, hi, rfl⟩ := Option.map_eq_some_iff.1 h
        exact later hi hd rfl

end Inside

/-! ### The body of a class -/

/-- The members of a class cover the text between its braces. -/
structure ClassBody.Tiled (masked : List Char) (body : ClassBody) : Prop where
  opens : masked[body.opening]? = some '\x7b'
  closes : masked[body.closing]? = some '\x7d'
  /-- The one brace is taken from the stack of open brackets by the other. -/
  closed : ClosedAt masked body.opening body.closing
  inOrder : InOrder body.members
  between : ∀ m ∈ body.members,
    body.opening < m.start ∧ m.start < m.stop ∧ m.stop ≤ body.closing
  /-- Only blanks and semicolons lie outside the members. -/
  filled : ∀ g ∈ gaps body.closing (body.opening + 1) body.members,
    ∀ c ∈ masked.extract g.1 g.2, isFiller c = true
  balanced : ∀ m ∈ body.members, bracketProblems [] 1 (masked.extract m.start m.stop) = []
  cut : ∀ out, out.Sublist body.members →
    bracketProblems [] 1 (Splice.apply masked (cuts out)) = []

/-- The search for the members of a class comes to its end, and they lie in order between its
braces. -/
structure ClassBody.Scanned (masked : List Char) (body : ClassBody) : Prop where
  inOrder : InOrder body.members
  between : ∀ m ∈ body.members,
    body.opening < m.start ∧ m.start ≤ m.stop ∧ m.stop ≤ body.closing
  /-- The members are found in however many steps beyond one for each character. -/
  ends : ∀ steps, body.closing - body.opening ≤ steps →
    membersFrom steps (body.opening + 1) (body.closing - body.opening - 1)
      (masked.drop (body.opening + 1)) = body.members
  /-- A brace that opens inside the class is closed inside it. -/
  inner : ∀ k, body.opening < k → k < body.closing → masked[k]? = some '\x7b' →
    ∃ n, closingOffset? (masked.drop k) = some n ∧ k + n < body.closing

section Bodies

variable {masked : List Char} {name : String} {body : ClassBody}

theorem drop_of_getElem? {c : Char} {k : ℕ} (h : masked[k]? = some c) :
    masked.drop k = c :: masked.drop (k + 1) := by
  obtain ⟨hk, rfl⟩ := List.getElem?_eq_some_iff.1 h
  exact List.drop_eq_getElem_cons hk

theorem scanned_of_findBody? (h : findBody? name masked = some body) : body.Scanned masked := by
  obtain ⟨size, hopen, hsize, hpos, hclosing, hmembers⟩ := findBody?_cases h
  obtain ⟨hord, hspans⟩ :=
    membersFrom_spans size (body.opening + 1) (size - 1) (masked.drop (body.opening + 1))
  have hroom : body.closing - body.opening - 1 = size - 1 := by omega
  refine ⟨hmembers ▸ hord, fun m hm => ?_, fun steps hsteps => ?_, fun k hk hlt hbrace => ?_⟩
  · rw [hmembers] at hm
    have hm := hspans m hm
    exact ⟨hm.low_le, hm.start_le, by have := hm.le_high; omega⟩
  · rw [hmembers, hroom]
    exact membersFrom_congr (by omega) (by omega) _ _
  · have hbraces : closerOf? '\x7b' = some '\x7d' := by decide
    rw [drop_of_getElem? hopen, closingOffset?, hbraces] at hsize
    obtain ⟨n, hn, rfl⟩ := Option.map_eq_some_iff.1 hsize
    obtain ⟨i, rfl⟩ := Nat.exists_eq_add_of_lt hk
    obtain ⟨j, hj, hjn⟩ := closingFrom_inner (k := i) (by decide) hn le_rfl (by omega)
      (by rw [List.getElem?_drop, ← hbrace]; congr 1; omega)
    rw [List.drop_drop, show body.opening + 1 + (i + 1) = body.opening + i + 1 + 1 by omega] at hj
    refine ⟨j + 1, ?_, by omega⟩
    rw [drop_of_getElem? hbrace, closingOffset?, hbraces]
    dsimp only
    rw [hj]
    rfl

/-- The body of a class is found behind the first opening brace. -/
theorem exists_findBody? {masked u i r : List Char} {name : String} {n : ℕ}
    (declared : declarationEnd? name.toList none masked = some n)
    (split : masked.drop n = u ++ '\x7b' :: (i ++ '\x7d' :: r)) (hu : '\x7b' ∉ u)
    (hi : Balanced i) :
    ∃ body, findBody? name masked = some body ∧ body.opening = n + u.length ∧
      body.closing = n + u.length + (i.length + 1) := by
  have hnone : u.findIdx? (· == '\x7b') = none :=
    List.findIdx?_eq_none_iff.2 fun c hc => beq_eq_false_iff_ne.2 fun heq => hu (heq ▸ hc)
  have hgap : openingOffset? (masked.drop n) = some u.length := by
    rw [split, openingOffset?, List.findIdx?_append, hnone, List.findIdx?_cons]
    simp
  have hclosing : closingOffset? (masked.drop (n + u.length)) = some (i.length + 1) := by
    rw [← List.drop_drop, split, List.drop_left]
    exact hi.closingOffset?_eq rfl r
  simp only [findBody?, declared, hgap, hclosing, Option.bind_eq_bind, Option.bind_some]
  exact ⟨_, rfl, rfl, rfl⟩

/-- In a balanced text the braces of a class enclose a balanced text, and its members are those
found in it. -/
theorem exists_inside (balanced : Balanced masked) (h : findBody? name masked = some body) :
    ∃ before m after, masked = (before ++ ['\x7b']) ++ (m ++ '\x7d' :: after) ∧
      (before ++ ['\x7b']).length = body.opening + 1 ∧ Balanced m ∧
      body.opening + 1 + m.length = body.closing ∧
      body.members =
        membersFrom (m.length + 1) (body.opening + 1) m.length (m ++ '\x7d' :: after) := by
  obtain ⟨size, hopen, hsize, -, hclosing, hmembers⟩ := findBody?_cases h
  have hbraces : closerOf? '\x7b' = some '\x7d' := by decide
  obtain ⟨hlt, -⟩ := List.getElem?_eq_some_iff.1 hopen
  have hsplit : masked = masked.take body.opening ++ '\x7b' :: masked.drop (body.opening + 1) := by
    rw [← drop_of_getElem? hopen, List.take_append_drop]
  have hlen : (masked.take body.opening).length = body.opening := by
    rw [List.length_take]
    omega
  rw [hsplit] at balanced
  obtain ⟨m, after, hrest, hm⟩ := balanced.exists_pair hbraces
  rw [drop_of_getElem? hopen, hrest, hm.closingOffset?_eq hbraces] at hsize
  obtain rfl := Option.some.inj hsize
  rw [hrest, Nat.add_sub_cancel] at hmembers
  rw [hrest] at hsplit
  exact ⟨masked.take body.opening, m, after, by rw [← List.append_cons]; exact hsplit,
    by rw [List.length_append, hlen, List.length_singleton], hm, by omega, hmembers⟩

theorem tiled_of_findBody? (balanced : Balanced masked) (h : findBody? name masked = some body) :
    body.Tiled masked := by
  obtain ⟨before, m, after, hwhole, hbefore, hm, hend, hmembers⟩ := exists_inside balanced h
  have htiles := hm.tiles_membersFrom (Nat.lt_succ_self _) (body.opening + 1) ('\x7d' :: after)
  have hord : InOrder body.members := (scanned_of_findBody? h).inOrder
  obtain ⟨size, hopen, -⟩ := findBody?_cases h
  have hlen : before.length = body.opening := by simpa using hbefore
  rw [← hmembers] at htiles
  refine ⟨hopen, ?_, ?_, hord, fun d hd => ?_, fun g hg => ?_, fun d hd => ?_, fun out hout => ?_⟩
  · rw [hwhole, ← hend, ← hbefore, List.getElem?_append_right (by omega), Nat.add_sub_cancel_left]
    simp
  · rw [hwhole, ← List.append_cons, ← hend, ← hlen, Nat.add_assoc, Nat.add_comm 1]
    exact hm.closedAt (by decide) before after
  · have := htiles.within d hd
    omega
  · rw [hwhole]
    exact htiles.filled hbefore g (by rwa [hend])
  · rw [hwhole]
    exact balanced_iff.1 (htiles.balanced hbefore d hd).2
  · rw [hwhole] at balanced ⊢
    exact balanced_iff.1 (htiles.balanced_cut hbefore balanced hm hord hout)

/-- **The members of a class that is found in a source text.** In a balanced text they cover what
stands between its braces, and any of them can be cut out; in every text the search comes to its end
and the members lie in order. -/
theorem findClass?_tiled {source : List Char} (found : findClass? source name = some body) :
    (balanceProblems source = [] → body.Tiled (mask source)) ∧ body.Scanned (mask source) :=
  ⟨fun balanced => tiled_of_findBody? (balanced_mask balanced) found, scanned_of_findBody? found⟩

end Bodies

/-- A class with a decorated property, one without a semicolon, and a method. -/
def storeSource : List Char :=
  ("class Store \x7b\n  @Input(\x7b a: 1 \x7d) size = 1;;\n  load = (n) => \x7b n \x7d\n" ++
    "  find(id: string[]) \x7b \x7d\n\x7d").toList

/-- Its body. -/
def storeBody : ClassBody :=
  ⟨"Store", 12, 91, [⟨"size", .property, 13, 42⟩, ⟨"load", .property, 43, 65⟩,
    ⟨"find", .method, 65, 90⟩]⟩

theorem findClass?_tiled_store :
    (findClass? storeSource "Store" = some storeBody ∧ balanceProblems storeSource = []) ∧
      storeBody.Tiled (mask storeSource) ∧ storeBody.Scanned (mask storeSource) := by
  have found : findClass? storeSource "Store" = some storeBody := by decide +kernel
  have balanced : balanceProblems storeSource = [] := by decide +kernel
  have h := findClass?_tiled found
  exact ⟨⟨found, balanced⟩, h.1 balanced, h.2⟩

end ApiScaffold.TypeScript
