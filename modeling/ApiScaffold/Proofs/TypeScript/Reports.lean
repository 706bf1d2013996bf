import ApiScaffold.Proofs.TypeScript.Breaks

/-!
# What is reported for a text in a class

* `BeginsAt` says that one of the members that are found begins at a place, and
  `beginsAt_of_not_straddles` that one does where no other reaches over;
* `Reported` says that a single member is found for a text, with a given name and kind, which begins
  and ends with the text;
* `BeginsAt.reported_iff` and `findBody?_reported`: so it is for a text in the body of a class if
  the member that is found at its place has its length, and no other reaches over.
-/

namespace ApiScaffold.TypeScript

section Begins

variable {pre : List Char}

/-- A semicolon behind blanks stands in front of a text that begins with neither. -/
theorem exists_behind_semicolon {c : Char} {cs gap rest : List Char}
    (hblank : Text.isBlank c = false) (hc : c ≠ ';') (hgap : ∀ c ∈ gap, Text.isBlank c = true)
    (hsplit : pre ++ c :: cs = gap ++ ';' :: rest) :
    ∃ pre', pre = gap ++ [';'] ++ pre' ∧ rest = pre' ++ c :: cs := by
  rcases List.append_eq_append_iff.1 hsplit with ⟨as, rfl, has⟩ | ⟨bs, rfl, hbs⟩
  · cases as with
    | nil => exact absurd (List.cons.inj has).1 hc
    | cons a as =>
      obtain rfl : c = a := (List.cons.inj has).1
      rw [hgap c (by simp)] at hblank
      cases hblank
  · cases bs with
    | nil => exact absurd (List.cons.inj hbs).1.symm hc
    | cons b bs =>
      obtain ⟨rfl, rfl⟩ := List.cons.inj hbs
      exact ⟨bs, by simp, rfl⟩

/-- Among the members that are found, one begins at a place, with blanks in front; the others end in
front of it or begin behind it. -/
def BeginsAt (ms : List Member) (pos : ℕ) (pre t tail : List Char) : Prop :=
  ∃ x gap steps ms₁ ms₂, pre = x ++ gap ∧ (∀ c ∈ gap, Text.isBlank c = true) ∧
    (gap ++ t).length ≤ steps ∧
    ms = ms₁ ++ memberAt steps (pos + x.length) (gap ++ t).length (gap ++ t ++ tail) :: ms₂ ∧
    (∀ m ∈ ms₁, m.stop ≤ pos + pre.length) ∧
    ∀ m ∈ ms₂, (memberAt steps (pos + x.length) (gap ++ t).length (gap ++ t ++ tail)).stop ≤ m.start

/-- The search goes on behind a text without a member, or with one. -/
theorem BeginsAt.append {x t tail : List Char} {ms : List Member} {pos : ℕ} (ms' : List Member)
    (h : BeginsAt ms (pos + x.length) pre t tail) (hms : ∀ m ∈ ms', m.stop ≤ pos + x.length) :
    BeginsAt (ms' ++ ms) pos (x ++ pre) t tail := by
  obtain ⟨y, gap, steps, ms₁, ms₂, rfl, hgap, hsteps, rfl, h₁, h₂⟩ := h
  rw [Nat.add_assoc, ← List.length_append] at h₂ ⊢
  refine ⟨x ++ y, gap, steps, ms' ++ ms₁, ms₂, (List.append_assoc ..).symm, hgap, hsteps,
    (List.append_assoc ..).symm, fun m hm => ?_, h₂⟩
  rw [List.length_append, ← Nat.add_assoc]
  rcases List.mem_append.1 hm with hm | hm
  · exact (hms m hm).trans (Nat.le_add_right _ _)
  · exact h₁ m hm

/-- A member that begins in front of a place, where more than blanks stand, and does not reach over
it, ends in front of it. -/
theorem stop_le_of_not_straddles {masked after : List Char} {pos : ℕ} {m : Member}
    (hmasked : masked.drop pos = pre ++ after) (hstart : m.start = pos)
    (hpre : ¬∀ c ∈ pre, Text.isBlank c = true) (hfree : ¬m.Straddles masked (pos + pre.length)) :
    m.stop ≤ pos + pre.length := by
  push Not at hpre
  obtain ⟨b, hb, hblank⟩ := hpre
  have hpos := List.length_pos_of_mem hb
  by_contra hlt
  refine hfree ⟨by omega, by omega, b, ?_, Bool.eq_false_iff.2 hblank⟩
  rwa [hstart, List.extract_eq_take_drop, hmasked, Nat.add_sub_cancel_left, List.take_left]

/-- **A member begins where none reaches over,** if neither a blank nor a semicolon stands there. -/
theorem beginsAt_of_not_straddles {t : List Char} (hall : Balanced (pre ++ t))
    (ht : ∃ c cs, t = c :: cs ∧ Text.isBlank c = false ∧ c ≠ ';') {masked : List Char} {pos : ℕ}
    {tail : List Char} (hmasked : masked.drop pos = pre ++ (t ++ tail)) {steps : ℕ}
    (hsteps : (pre ++ t).length < steps)
    (hfree : ∀ m ∈ membersFrom steps pos (pre ++ t).length (pre ++ t ++ tail),
      ¬m.Straddles masked (pos + pre.length)) :
    BeginsAt (membersFrom steps pos (pre ++ t).length (pre ++ t ++ tail)) pos pre t tail := by
  induction steps generalizing pre pos with
  | zero => exact absurd hsteps (Nat.not_lt_zero _)
  | succ steps ih =>
    -- The search goes on behind a part of what stands in front of the place.
    have later : ∀ {x pre'}, pre = x ++ pre' → x ≠ [] → Balanced (pre' ++ t) →
        (∀ m ∈ membersFrom steps (pos + x.length) (pre' ++ t).length (pre' ++ t ++ tail),
          ¬m.Straddles masked (pos + pre.length)) →
        BeginsAt (membersFrom steps (pos + x.length) (pre' ++ t).length (pre' ++ t ++ tail))
          (pos + x.length) pre' t tail := by
      rintro x pre' rfl hx hrest hfree
      have hpos := List.length_pos_iff.2 hx
      rw [List.append_assoc, List.length_append] at hsteps
      have hplace : pos + (x ++ pre').length = pos + x.length + pre'.length := by
        rw [List.length_append, Nat.add_assoc]
      rw [hplace] at hfree
      refine ih hrest ?_ (by omega) hfree
      rw [← List.drop_drop, hmasked, List.append_assoc, List.drop_left]
    obtain ⟨c, cs, rfl, hblank, hsemicolon⟩ := ht
    rcases hall.membersFrom_cases steps pos tail with ⟨hnone, -⟩ |
      ⟨gap, rest, hsplit, hgap, hrest, hlater⟩ | ⟨span, rest, hsplit, hne, -, hrest, hstop, hlater⟩
    · rw [hnone c (by simp)] at hblank
      cases hblank
    · obtain ⟨pre', rfl, rfl⟩ := exists_behind_semicolon hblank hsemicolon hgap hsplit
      rw [hlater, show gap.length + 1 = (gap ++ [';']).length by simp] at hfree ⊢
      exact .append [] (later rfl (by simp) hrest hfree) fun m hm => absurd hm List.not_mem_nil
    · rw [hlater] at hfree ⊢
      have hspans := membersFrom_spans steps (pos + span.length) rest.length (rest ++ tail)
      by_cases hpre : ∀ c ∈ pre, Text.isBlank c = true
      · -- The next member begins here.
        refine ⟨[], pre, steps, [], _, rfl, hpre, by omega, rfl,
          fun m hm => absurd hm List.not_mem_nil, fun m hm => ?_⟩
        rw [List.length_nil, Nat.add_zero, hstop]
        exact (hspans.2 m hm).low_le
      · -- The member in front does not reach here.
        obtain ⟨hnot, hfree⟩ := List.forall_mem_cons.1 hfree
        have hle : span.length ≤ pre.length := by
          have hstop_le := stop_le_of_not_straddles hmasked rfl hpre hnot
          omega
        obtain ⟨pre', rfl⟩ :=
          List.prefix_of_prefix_length_le ⟨rest, hsplit.symm⟩ (List.prefix_append pre _) hle
        obtain rfl : rest = pre' ++ c :: cs := by
          rw [List.append_assoc] at hsplit
          exact (List.append_cancel_left hsplit).symm
        refine .append [_] (later rfl hne hrest hfree) fun m hm => ?_
        rw [List.mem_singleton.1 hm, hstop]

end Begins

/-! ### Members that overlap a text -/

/-- The members that overlap the text between two offsets. -/
def overlapping (ms : List Member) (low high : ℕ) : List Member :=
  ms.filter fun m => decide (m.start < high ∧ low < m.stop)

/-- A single member overlaps the text of the given length at an offset. It has the name and the kind
given, and ends with the text. -/
def Listed (ms : List Member) (pos size : ℕ) (name : String) (kind : MemberKind) : Prop :=
  (overlapping ms pos (pos + size)).map (fun m => (m.name, m.kind, m.stop)) =
    [(name, kind, pos + size)]

instance instDecidableListed (ms : List Member) (pos size : ℕ) (name : String) (kind : MemberKind) :
    Decidable (Listed ms pos size name kind) :=
  inferInstanceAs (Decidable (_ = _))

/-- The text is listed, and the member begins with it or with blanks in front of it. -/
structure Reported (masked : List Char) (ms : List Member) (pos size : ℕ) (name : String)
    (kind : MemberKind) : Prop where
  listed : Listed ms pos size name kind
  begins : ∀ m ∈ overlapping ms pos (pos + size),
    m.start ≤ pos ∧ ∀ c ∈ masked.extract m.start pos, Text.isBlank c = true

section Reports

variable {masked pre t tail : List Char} {ms ms' : List Member} {name : String} {kind : MemberKind}
  {pos size low high : ℕ}

theorem overlapping_append :
    overlapping (ms ++ ms') low high = overlapping ms low high ++ overlapping ms' low high :=
  List.filter_append ..

theorem overlapping_of_before (h : ∀ m ∈ ms, m.stop ≤ low) : overlapping ms low high = [] := by
  refine List.filter_eq_nil_iff.2 fun m hm => ?_
  have := h m hm
  simp
  omega

theorem overlapping_of_behind (h : ∀ m ∈ ms, high ≤ m.start) : overlapping ms low high = [] := by
  refine List.filter_eq_nil_iff.2 fun m hm => ?_
  have := h m hm
  simp
  omega

/-- The member that is reported for a text does not reach over its beginning. -/
theorem Reported.not_straddles (h : Reported masked ms pos size name kind) (hsize : 0 < size) :
    ∀ m ∈ ms, ¬m.Straddles masked pos := by
  rintro m hm ⟨hstart, hstop, c, hc, hblank⟩
  have hmem : m ∈ overlapping ms pos (pos + size) :=
    List.mem_filter.2 ⟨hm, decide_eq_true ⟨by omega, hstop⟩⟩
  rw [(h.begins m hmem).2 c hc] at hblank
  cases hblank

/-- A text is found behind any blanks as a member of the given name, kind and length. -/
def FoundAs (t tail : List Char) (name : String) (kind : MemberKind) (size : ℕ) : Prop :=
  ∀ gap steps pos, (∀ c ∈ gap, Text.isBlank c = true) → (gap ++ t).length ≤ steps →
    memberAt steps pos (gap ++ t).length (gap ++ t ++ tail) =
      ⟨name, kind, pos, pos + gap.length + size⟩

/-- **Where a member begins, it is reported for the text that has its length,** and for no other. -/
theorem BeginsAt.reported_iff (h : BeginsAt ms pos pre t tail)
    (hmasked : masked.drop pos = pre ++ (t ++ tail)) {found : ℕ}
    (hfound : FoundAs t tail name kind found) (hpos : 0 < found) (hsize : 0 < size) :
    Reported masked ms (pos + pre.length) size name kind ↔ found = size := by
  obtain ⟨x, gap, steps, ms₁, ms₂, rfl, hgap, hsteps, rfl, h₁, h₂⟩ := h
  have hplace : pos + x.length + gap.length = pos + (x ++ gap).length := by
    rw [List.length_append, Nat.add_assoc]
  have hhere := hfound gap steps (pos + x.length) hgap hsteps
  rw [hplace] at hhere
  rw [hhere] at h₂ ⊢
  have hsame : overlapping (ms₁ ++ (⟨name, kind, pos + x.length,
      pos + (x ++ gap).length + found⟩ : Member) :: ms₂) (pos + (x ++ gap).length)
      (pos + (x ++ gap).length + size) =
        ⟨name, kind, pos + x.length, pos + (x ++ gap).length + found⟩ ::
          overlapping ms₂ (pos + (x ++ gap).length) (pos + (x ++ gap).length + size) := by
    rw [overlapping_append, overlapping_of_before h₁, List.nil_append, overlapping,
      List.filter_cons_of_pos (by simp; omega)]
    rfl
  constructor
  · intro hreported
    have hone := hreported.listed
    rw [Listed, hsame] at hone
    have hstop := congrArg (·.2.2) (List.cons.inj hone).1
    dsimp only at hstop
    omega
  · rintro rfl
    rw [overlapping_of_behind h₂] at hsame
    refine ⟨by rw [Listed, hsame]; rfl, ?_⟩
    rw [hsame]
    intro m hm
    rw [List.mem_singleton.1 hm]
    refine ⟨by dsimp only; omega, fun c hc => hgap c ?_⟩
    rwa [List.extract_eq_take_drop, ← List.drop_drop, hmasked, List.append_assoc, List.drop_left,
      ← hplace, Nat.add_sub_cancel_left, List.take_left] at hc

end Reports

/-! ### Texts in the body of a class -/

section Classes

variable {masked above t below : List Char} {name : String} {body : ClassBody}

/-- The text of a class around a part of it. -/
theorem exists_around (balanced : Balanced masked) (found : findBody? name masked = some body)
    (split : masked = above ++ (t ++ below)) (inside : body.opening < above.length)
    (ends : above.length + t.length ≤ body.closing) :
    ∃ pre r tail, pre = above.drop (body.opening + 1) ∧
      above.length = body.opening + 1 + pre.length ∧ Balanced (pre ++ (t ++ r)) ∧
      masked.drop (body.opening + 1) = pre ++ (t ++ r ++ tail) ∧
      body.members = membersFrom ((pre ++ (t ++ r)).length + 1) (body.opening + 1)
        (pre ++ (t ++ r)).length (pre ++ (t ++ r) ++ tail) := by
  obtain ⟨before, m, after, hmask, hbefore, hm, hclosing, hmembers⟩ := exists_inside balanced found
  have hlen : (above.drop (body.opening + 1)).length = above.length - (body.opening + 1) :=
    List.length_drop
  have hdrop : masked.drop (body.opening + 1) = m ++ '\x7d' :: after := by
    rw [hmask, ← hbefore, List.drop_left]
  have hsplit : m ++ '\x7d' :: after = above.drop (body.opening + 1) ++ (t ++ below) := by
    rw [← hdrop, split, List.drop_append_of_le_length (by omega)]
  obtain ⟨r, rfl⟩ : above.drop (body.opening + 1) ++ t <+: m :=
    List.prefix_of_prefix_length_le ⟨below, by rw [hsplit, List.append_assoc]⟩
      (List.prefix_append m _) (by rw [List.length_append]; omega)
  rw [List.append_assoc] at hm hmembers hdrop
  refine ⟨_, r, _, rfl, by omega, hm, ?_, hmembers⟩
  rw [hdrop, List.append_assoc, List.append_assoc]

/-- **What is reported for a text in the body of a class.** If the text and what follows it are
found as a member of some length, this is reported for the text exactly if it is its length and no
member in front reaches over its beginning. Behind the brace of the class, behind a semicolon, or
behind braces and a line break, outside all brackets, none does. -/
theorem findBody?_reported (balanced : Balanced masked) (found : findBody? name masked = some body)
    (split : masked = above ++ (t ++ below)) (inside : body.opening < above.length)
    (ends : above.length + t.length ≤ body.closing)
    (ht : ∀ r, ∃ c cs, t ++ r = c :: cs ∧ Text.isBlank c = false ∧ c ≠ ';') {member : String}
    {kind : MemberKind} {P : Prop}
    (hfound : ∀ r tail, ∃ size, FoundAs (t ++ r) tail member kind size ∧ 0 < size ∧
      (size = t.length ↔ P)) :
    (Reported masked body.members above.length t.length member kind ↔
        P ∧ ∀ m ∈ body.members, ¬m.Straddles masked above.length) ∧
      (Breaks (above.drop (body.opening + 1)) →
        ∀ m ∈ body.members, ¬m.Straddles masked above.length) := by
  obtain ⟨pre, r, tail, rfl, hplace, hm, hmasked, hmembers⟩ :=
    exists_around balanced found split inside ends
  have hsize : 0 < t.length := by
    obtain ⟨c, cs, hcs, -, -⟩ := ht []
    rw [List.append_nil] at hcs
    rw [hcs]
    exact Nat.succ_pos _
  obtain ⟨size, hfound, hpos, hiff⟩ := hfound r tail
  rw [hplace, hmembers]
  have hreported := fun hfree => (beginsAt_of_not_straddles hm (ht r) hmasked (Nat.lt_succ_self _)
    hfree).reported_iff hmasked hfound hpos hsize
  refine ⟨⟨fun h => ?_, fun ⟨hp, hfree⟩ => (hreported hfree).2 (hiff.2 hp)⟩, fun hbreaks =>
    hbreaks.not_straddles hm hmasked _⟩
  have hfree := h.not_straddles hsize
  exact ⟨hiff.1 ((hreported hfree).1 h), hfree⟩

end Classes

end ApiScaffold.TypeScript
