import ApiScaffold.Proofs.Splice

/-!
# One more insertion

Edits that are apart from each other are done in one pass. This module adds an insertion to them,
the last of the list, at any place of the text.

* `Around`: where the insertion comes among the edits, as they are applied;
* `apply_insertion_apart`: at a place that is in the range of no edit it is put in front of what the
  edits put there;
* `apply_insertion_crossed`: inside the range of an edit it does not survive as it is. The edit is
  applied afterwards, under offsets of the text as it was, so that it takes away as many characters
  of what was inserted and of its own range as the rest of the range has.
-/

namespace ApiScaffold.Splice

variable {es fs : List Edit} {cs text : List Char} {p : ℕ}

/-! ### Order -/

theorem notBefore_iff {a b : Edit} :
    notBefore a b = true ↔ b.start < a.start ∨ b.start = a.start ∧ b.stop ≤ a.stop := by
  simp [notBefore]

theorem notBefore_trans (a b c : Edit) (hab : notBefore a b = true) (hbc : notBefore b c = true) :
    notBefore a c = true := by
  rw [notBefore_iff] at *
  omega

theorem notBefore_total (a b : Edit) : (notBefore a b || notBefore b a) = true := by
  rw [Bool.or_eq_true, notBefore_iff, notBefore_iff]
  omega

/-- The edits as they are applied, around an insertion at `p`: from the back of the text to its
front, first the later ones, which begin at the place or behind it, then the insertion, then the
earlier ones, which begin in front of it. -/
structure Around (es : List Edit) (p : ℕ) (text : List Char) (later earlier : List Edit) :
    Prop where
  order : backToFront (es ++ [⟨p, p, text⟩]) = later ++ ⟨p, p, text⟩ :: earlier
  perm : (later ++ earlier).Perm es
  sorted : (later ++ earlier).Pairwise fun a b => b.stop ≤ a.start
  le_start : ∀ e ∈ later, (p : ℤ) ≤ e.start
  start_lt : ∀ e ∈ earlier, e.start < p

/-- Whatever comes in front of the last occurrence of an element is in the part in front of it. -/
theorem mem_of_pair_sublist {α : Type} {a b : α} {l r : List α} (h : [a, b].Sublist (l ++ b :: r))
    (hb : b ∉ r) : a ∈ l := by
  obtain ⟨l₁, l₂, hl, h₁, h₂⟩ := List.sublist_append_iff.1 h
  cases l₁ with
  | cons x l₁ =>
    obtain ⟨rfl, -⟩ := List.cons.inj hl
    exact h₁.subset List.mem_cons_self
  | nil =>
    -- Otherwise both would be in the rest, and the second behind its last occurrence.
    rw [List.nil_append] at hl
    rw [← hl] at h₂
    cases h₂ with
    | cons _ h => exact absurd (h.subset (by simp)) hb
    | cons_cons _ h => exact absurd (h.subset (by simp)) hb

/-- **Where an insertion comes** that is the last of the list. -/
theorem exists_around (p : ℕ) (text : List Char) (hw : ∀ e ∈ es, e.start ≤ e.stop)
    (ha : es.Pairwise Edit.Apart) :
    ∃ later earlier, Around es p text later earlier := by
  generalize hins : (⟨p, p, text⟩ : Edit) = ins
  have hstart : ins.start = p := by rw [← hins]
  have hstop : ins.stop = p := by rw [← hins]
  have hperm := backToFront_perm (es ++ [ins])
  have hsorted : (backToFront (es ++ [ins])).Pairwise fun a b => notBefore a b = true :=
    List.pairwise_mergeSort notBefore_trans notBefore_total _
  -- Of edits of one place the insertion comes last, so it is split off where it stands last.
  obtain ⟨earlierRev, laterRev, hrev, hlast⟩ := List.eq_append_cons_of_mem
    (List.mem_reverse.2 (hperm.mem_iff.2 (List.mem_append_right es (List.mem_singleton.2 rfl))))
  have hsplit : backToFront (es ++ [ins]) = laterRev.reverse ++ ins :: earlierRev.reverse := by
    rw [← List.reverse_reverse (backToFront _), hrev]
    simp
  generalize hlater : laterRev.reverse = later at hsplit
  generalize hearlier : earlierRev.reverse = earlier at hsplit
  have hnot : ins ∉ earlier := by rwa [← hearlier, List.mem_reverse]
  have hpermEs : (later ++ earlier).Perm es := by
    rw [hsplit] at hperm
    exact ((List.perm_middle.symm.trans hperm).trans List.perm_append_comm).cons_inv
  have hapart : (later ++ earlier).Pairwise Edit.Apart := hpermEs.symm.pairwise ha fun h => h.symm
  rw [hsplit] at hsorted
  have hsortedEs : (later ++ earlier).Pairwise fun a b => notBefore a b = true :=
    hsorted.sublist ((List.sublist_cons_self _ _).append_left _)
  obtain ⟨-, hbehind, hbetween⟩ := List.pairwise_append.1 hsorted
  refine ⟨later, earlier, hins ▸ hsplit, hpermEs, ?_, ?_, ?_⟩
  · refine (hsortedEs.and hapart).imp_of_mem ?_
    intro a b ha' hb' hab
    obtain ⟨hle, hor, hne⟩ := hab
    have hwa := hw a (hpermEs.mem_iff.1 ha')
    have hwb := hw b (hpermEs.mem_iff.1 hb')
    rw [notBefore_iff] at hle
    rcases hor with h₁ | h₁ <;> omega
  · intro e he
    have hle := hbetween e he ins List.mem_cons_self
    rw [notBefore_iff] at hle
    omega
  · intro e he
    have hmem : e ∈ es := hpermEs.mem_iff.1 (List.mem_append_right _ he)
    have hle := (List.pairwise_cons.1 hbehind).1 e he
    rw [notBefore_iff] at hle
    by_contra hnear
    have hwe := hw e hmem
    -- Another insertion at the place is listed before, so it stays before.
    have hpair : [e, ins].Sublist (es ++ [ins]) :=
      (List.singleton_sublist.2 hmem).append (List.Sublist.refl [ins])
    have hfirst : notBefore e ins = true := notBefore_iff.2 (by omega)
    have hsub := List.pair_sublist_mergeSort notBefore_trans notBefore_total hfirst hpair
    change [e, ins].Sublist (backToFront (es ++ [ins])) at hsub
    rw [hsplit] at hsub
    have hearly : e ∈ later := mem_of_pair_sublist hsub hnot
    exact ((List.pairwise_append.1 hapart).2.2 e hearly e he).2 ⟨rfl, rfl⟩

/-! ### Front and back -/

theorem covers_append (es fs : List Edit) (i : ℕ) :
    covers (es ++ fs) i = (covers es i || covers fs i) := List.any_append

theorem covers_eq_false_of_lt {i : ℕ} (h : ∀ e ∈ es, (i : ℤ) < e.start) : covers es i = false := by
  simp only [covers, List.any_eq_false, Bool.and_eq_true, decide_eq_true_eq]
  intro e he
  have := h e he
  omega

theorem covers_eq_false_of_le {i : ℕ} (h : ∀ e ∈ es, e.stop ≤ i) : covers es i = false := by
  simp only [covers, List.any_eq_false, Bool.and_eq_true, decide_eq_true_eq]
  intro e he
  have := h e he
  omega

/-- Where only the edits of one list begin, only they put texts. -/
theorem textAt_append_right {i : ℕ} (h : ∀ e ∈ es, e.start ≠ i) :
    textAt (es ++ fs) i = textAt fs i := by
  induction es with
  | nil => rfl
  | cons e es ih =>
    rw [List.cons_append, textAt_cons_of_ne (h e List.mem_cons_self),
      ih fun f hf => h f (List.mem_cons_of_mem e hf)]

theorem textAt_append_left {i : ℕ} (h : ∀ f ∈ fs, f.start ≠ i) :
    textAt (es ++ fs) i = textAt es i := by
  have hnone : ∀ q : Edit → Bool, fs.filter (fun e => e.start == (i : ℤ) && q e) = [] := by
    intro q
    rw [List.filter_eq_nil_iff]
    intro f hf
    simp [h f hf]
  simp only [textAt, List.filter_append, hnone, List.append_nil]

/-- Edits that begin at an offset or behind it leave the text in front of it alone. -/
theorem weave_take_append {pos q : ℕ} (hq : q ≤ cs.length) (h : ∀ e ∈ es, (pos + q : ℤ) ≤ e.start) :
    weave (covers es) (textAt es) pos cs =
      cs.take q ++ weave (covers es) (textAt es) (pos + q) (cs.drop q) := by
  have hlen : (cs.take q).length = q := List.length_take_of_le hq
  conv_lhs => rw [← List.take_append_drop q cs]
  rw [weave_append, hlen, weave_eq_self]
  · intro i _ hi
    exact covers_eq_false_of_lt fun e he => by have := h e he; omega
  · intro i _ hi
    split_ifs with hiq
    · rfl
    · exact textAt_eq_nil fun e he => by have := h e he; omega

/-- Edits in the front part of a text come to one pass over that part. -/
theorem foldl_applyOne_take {q : ℕ} (hq : q ≤ cs.length) (hw : ∀ e ∈ es, e.Within cs.length)
    (hstop : ∀ e ∈ es, e.stop ≤ q) (hsorted : es.Pairwise fun a b => b.stop ≤ a.start)
    (ha : es.Pairwise Edit.Apart) (ys : List Char) :
    es.foldl applyOne (cs.take q ++ ys) = weave (covers es) (textAt es) 0 (cs.take q) ++ ys := by
  have hwithin : ∀ e ∈ es, e.Within (cs.take q).length := fun e he => by
    obtain ⟨h₁, h₂, -⟩ := hw e he
    exact ⟨h₁, h₂, by rw [List.length_take_of_le hq]; exact hstop e he⟩
  rw [foldl_applyOne_append _ hwithin hsorted, foldl_applyOne_eq_weave hwithin hsorted ha]

/-- What is put in front of the text that a pass puts at its beginning comes out in front. -/
theorem weave_insert_front {dropped : ℕ → Bool} {inserted : ℕ → List Char} {pos : ℕ}
    (xs cs : List Char) :
    weave dropped (fun i => (if i = pos then xs else []) ++ inserted i) pos cs =
      xs ++ weave dropped inserted pos cs := by
  rw [weave_eq_append, @weave_eq_append _ inserted, if_pos rfl, List.append_assoc]
  congr 2
  refine weave_congr (fun _ _ _ => rfl) fun i _ _ => ?_
  by_cases h : i = pos
  · rw [if_pos h, if_pos h]
  · rw [if_neg h, if_neg h, if_neg h, List.nil_append]

/-- A pass over a text, what it puts at the end apart. -/
theorem weave_eq_append_end {dropped : ℕ → Bool} {inserted : ℕ → List Char} (cs : List Char) :
    weave dropped inserted 0 cs =
      weave dropped (fun i => if i = cs.length then [] else inserted i) 0 cs ++
        inserted cs.length := by
  have h := @weave_append dropped inserted 0 cs []
  rwa [List.append_nil, weave, Nat.zero_add] at h

/-- An insertion at the end of the front part of a text. -/
theorem applyOne_insertion {xs : List Char} (ys : List Char) (h : xs.length = p) :
    applyOne (xs ++ ys) ⟨p, p, text⟩ = xs ++ (text ++ ys) := by
  have hwithin : Edit.Within xs.length ⟨p, p, text⟩ :=
    ⟨Int.natCast_nonneg p, le_rfl, by rw [h]⟩
  rw [applyOne_append ys hwithin]
  simp [← h]

namespace Around

variable {later earlier : List Edit} {i : ℕ}

theorem within (h : Around es p text later earlier) (hw : ∀ e ∈ es, e.Within cs.length) :
    ∀ e ∈ later ++ earlier, e.Within cs.length := fun e he => hw e (h.perm.mem_iff.1 he)

theorem apart (h : Around es p text later earlier) (ha : es.Pairwise Edit.Apart) :
    (later ++ earlier).Pairwise Edit.Apart := h.perm.symm.pairwise ha fun hab => hab.symm

theorem covers_eq (h : Around es p text later earlier) (i : ℕ) :
    covers es i = (covers later i || covers earlier i) := by
  rw [← covers_perm h.perm, covers_append]

theorem covers_eq_earlier (h : Around es p text later earlier) (hi : i < p) :
    covers es i = covers earlier i := by
  rw [h.covers_eq, covers_eq_false_of_lt, Bool.false_or]
  intro e he
  have := h.le_start e he
  omega

theorem textAt_eq_earlier (h : Around es p text later earlier) (ha : es.Pairwise Edit.Apart)
    (hi : i < p) : textAt es i = textAt earlier i := by
  rw [← textAt_perm h.perm (h.apart ha), textAt_append_right]
  intro e he
  have := h.le_start e he
  omega

theorem textAt_eq_later (h : Around es p text later earlier) (ha : es.Pairwise Edit.Apart)
    (hi : p ≤ i) : textAt es i = textAt later i := by
  rw [← textAt_perm h.perm (h.apart ha), textAt_append_left]
  intro e he
  have := h.start_lt e he
  omega

/-- What is done behind the place and at it. -/
theorem apply_eq (h : Around es p text later earlier) (hw : ∀ e ∈ es, e.Within cs.length)
    (ha : es.Pairwise Edit.Apart) (hp : p ≤ cs.length) :
    apply cs (es ++ [⟨p, p, text⟩]) = earlier.foldl applyOne
      (cs.take p ++ (text ++ weave (covers later) (textAt later) p (cs.drop p))) := by
  have hstart : ∀ e ∈ later, ((0 : ℕ) + p : ℤ) ≤ e.start := fun e he => by
    have := h.le_start e he
    omega
  rw [apply, h.order, List.foldl_append, List.foldl_cons, foldl_applyOne_eq_weave
      (fun e he => h.within hw e (List.mem_append_left _ he)) (List.pairwise_append.1 h.sorted).1
      (List.pairwise_append.1 (h.apart ha)).1, weave_take_append hp hstart, Nat.zero_add,
    applyOne_insertion _ (List.length_take_of_le hp)]

end Around

/-! ### An insertion in no range -/

/-- **An insertion at a place that is in the range of no edit** is put in front of what the edits
put there. -/
theorem apply_insertion_apart (hw : ∀ e ∈ es, e.Within cs.length) (ha : es.Pairwise Edit.Apart)
    (hp : p ≤ cs.length) (hout : ∀ e ∈ es, e.stop ≤ p ∨ (p : ℤ) ≤ e.start) :
    apply cs (es ++ [⟨p, p, text⟩]) =
      weave (covers es) (fun i => (if i = p then text else []) ++ textAt es i) 0 cs := by
  obtain ⟨later, earlier, h⟩ := exists_around p text (fun e he => (hw e he).start_le_stop) ha
  have hlen : (cs.take p).length = p := List.length_take_of_le hp
  have hstop : ∀ e ∈ earlier, e.stop ≤ p := fun e he =>
    (hout e (h.perm.mem_iff.1 (List.mem_append_right _ he))).resolve_right
      (by have := h.start_lt e he; omega)
  rw [h.apply_eq hw ha hp, foldl_applyOne_take hp
    (fun e he => h.within hw e (List.mem_append_right _ he)) hstop
    (List.pairwise_append.1 h.sorted).2.1 (List.pairwise_append.1 (h.apart ha)).2.1]
  conv_rhs => rw [← List.take_append_drop p cs]
  rw [weave_append, hlen, Nat.zero_add, weave_insert_front]
  congr 1
  · refine weave_congr (fun i _ hi => (h.covers_eq_earlier (by omega)).symm) fun i _ hi => ?_
    by_cases hip : i = p
    · rw [if_pos hip]
      exact textAt_eq_nil fun e he => by have := h.start_lt e he; omega
    · rw [if_neg hip, if_neg hip, List.nil_append, h.textAt_eq_earlier ha (by omega)]
  · congr 1
    refine weave_congr (fun i hi _ => ?_) fun i hi _ => (h.textAt_eq_later ha hi).symm
    rw [h.covers_eq, @covers_eq_false_of_le earlier i fun e he => by have := hstop e he; omega,
      Bool.or_false]

/-! ### An insertion inside a range -/

/-- What stays at the place of an edit of an insertion inside its range: behind the edit's own text,
the last characters of the insertion and the rest of the range, as many as the insertion has. -/
def leftover (cs text : List Char) (p stop : ℕ) : List Char :=
  (text ++ (cs.drop p).take (stop - p)).drop (stop - p)

/-- The edit whose range begins in front of a place and goes on behind it is the first of those that
begin in front of the place. -/
theorem exists_cons_of_crossed {later earlier : List Edit} {m : Edit}
    (hsorted : (later ++ earlier).Pairwise fun a b => b.stop ≤ a.start) (hm : m ∈ later ++ earlier)
    (hlater : m ∉ later) (hearlier : ∀ e ∈ earlier, e.start < m.stop) :
    ∃ rest, earlier = m :: rest := by
  obtain ⟨front, rest, rfl⟩ := List.append_of_mem ((List.mem_append.1 hm).resolve_left hlater)
  cases front with
  | nil => exact ⟨rest, rfl⟩
  | cons e front =>
    have hbehind := (List.pairwise_cons.1 (List.pairwise_append.1 hsorted).2.1).1 m (by simp)
    have := hearlier e List.mem_cons_self
    omega

/-- The edit takes its range under the offsets of the text as it was, and with it some of what was
inserted. -/
theorem applyOne_crossed {m : Edit} {start stop : ℕ} (hstart : m.start = start)
    (hstop : m.stop = stop) (hlow : start < p) (hhigh : p < stop) (hle : stop ≤ cs.length)
    (back : List Char) :
    applyOne (cs.take p ++ (text ++ ((cs.drop p).take (stop - p) ++ back))) m =
      cs.take start ++ (m.text ++ (leftover cs text p stop ++ back)) := by
  have hlen : (cs.take p).length = p := List.length_take_of_le (by omega)
  have hin : Edit.Within (cs.take p ++ (text ++ (cs.drop p).take (stop - p))).length m := by
    refine ⟨by omega, by omega, ?_⟩
    simp only [List.length_append, List.length_take, List.length_drop]
    omega
  have hone := applyOne_append back hin
  have hgone : (cs.take p).drop stop = [] := List.drop_eq_nil_of_le (by omega)
  rw [hstart, hstop, Int.toNat_natCast, Int.toNat_natCast,
    List.take_append_of_le_length (by omega), List.take_take, min_eq_left hlow.le,
    List.drop_append, hlen, hgone, List.nil_append] at hone
  simpa [leftover] using hone

/-- A pass that leaves out a range and puts nothing into it. -/
theorem weave_around {dropped : ℕ → Bool} {inserted : ℕ → List Char} {start stop : ℕ}
    (hlt : start < stop) (hle : stop ≤ cs.length)
    (hd : ∀ i, start ≤ i → i < stop → dropped i = true)
    (hi : ∀ i, start < i → i < stop → inserted i = []) :
    weave dropped inserted 0 cs =
      weave dropped (fun i => if i = start then [] else inserted i) 0 (cs.take start) ++
        (inserted start ++ weave dropped inserted stop (cs.drop stop)) := by
  have hlen : (cs.take start).length = start := List.length_take_of_le (by omega)
  have hmid : ((cs.drop start).take (stop - start)).length = stop - start := by
    rw [List.length_take, List.length_drop]
    omega
  conv_lhs => rw [← take_append_range hlt.le cs]
  rw [weave_append, hlen, Nat.zero_add, weave_segment (b := true) (cs.drop stop)
    (List.ne_nil_of_length_pos (by omega)) (fun i h₁ h₂ => hd i h₁ (by omega))
    (fun i h₁ h₂ => hi i h₁ (by omega)), hmid, show start + (stop - start) = stop by omega,
    if_pos rfl, List.append_nil]

/-- The insertion falls inside the range of an edit, the first of those that begin in front of
it. -/
structure Crossed (es : List Edit) (p : ℕ) (text : List Char) (later rest : List Edit) (m : Edit)
    (start stop : ℕ) : Prop where
  around : Around es p text later (m :: rest)
  proper : ∀ e ∈ es, e.start ≤ e.stop
  apart : es.Pairwise Edit.Apart
  start_eq : m.start = start
  stop_eq : m.stop = stop
  start_lt : start < p
  lt_stop : p < stop

namespace Crossed

variable {later rest : List Edit} {m : Edit} {start stop i : ℕ}

theorem mem (h : Crossed es p text later rest m start stop) : m ∈ es :=
  h.around.perm.mem_iff.1 (by simp)

theorem le_start (h : Crossed es p text later rest m start stop) :
    ∀ e ∈ later, (stop : ℤ) ≤ e.start := fun e he => by
  have := (List.pairwise_append.1 h.around.sorted).2.2 e he m List.mem_cons_self
  have := h.stop_eq
  omega

theorem stop_le (h : Crossed es p text later rest m start stop) :
    ∀ e ∈ rest, e.stop ≤ start := fun e he => by
  have := (List.pairwise_cons.1 (List.pairwise_append.1 h.around.sorted).2.1).1 e he
  have := h.start_eq
  omega

theorem covers_range (h : Crossed es p text later rest m start stop) (h₁ : start ≤ i)
    (h₂ : i < stop) : covers es i = true := by
  refine List.any_eq_true.2 ⟨m, h.mem, ?_⟩
  simp only [h.start_eq, h.stop_eq, Bool.and_eq_true, decide_eq_true_eq]
  omega

theorem covers_front (h : Crossed es p text later rest m start stop) (hi : i < start) :
    covers es i = covers rest i := by
  have hearly : decide ((start : ℤ) ≤ i) = false := decide_eq_false (by omega)
  have := h.start_lt
  rw [h.around.covers_eq_earlier (by omega), covers, List.any_cons, h.start_eq, hearly]
  rfl

theorem covers_back (h : Crossed es p text later rest m start stop) (hi : stop ≤ i) :
    covers es i = covers later i := by
  have hle : ∀ e ∈ m :: rest, e.stop ≤ i := by
    have hstop := h.stop_eq
    have hstart := h.start_lt
    have hlt := h.lt_stop
    refine List.forall_mem_cons.2 ⟨by omega, fun e he => ?_⟩
    have := h.stop_le e he
    omega
  rw [h.around.covers_eq, covers_eq_false_of_le hle, Bool.or_false]

theorem textAt_front (h : Crossed es p text later rest m start stop) (hi : i < start) :
    textAt es i = textAt rest i := by
  have hstart := h.start_eq
  have := h.start_lt
  rw [h.around.textAt_eq_earlier h.apart (by omega), textAt_cons_of_ne (by omega)]

theorem textAt_start (h : Crossed es p text later rest m start stop) :
    textAt es start = textAt rest start ++ m.text := by
  rw [h.around.textAt_eq_earlier h.apart h.start_lt]
  exact textAt_cons_start h.start_eq (h.proper m h.mem)
    (fun e he => h.start_eq ▸ h.stop_le e he)
    (List.pairwise_cons.1 (List.pairwise_append.1 (h.around.apart h.apart)).2.1).1

theorem textAt_range (h : Crossed es p text later rest m start stop) (h₁ : start < i)
    (h₂ : i < stop) : textAt es i = [] := by
  rw [← textAt_perm h.around.perm (h.around.apart h.apart)]
  refine textAt_eq_nil fun e he => ?_
  have hproper := h.proper e (h.around.perm.mem_iff.1 he)
  rcases List.mem_append.1 he with he | he
  · have := h.le_start e he
    omega
  · rcases List.mem_cons.1 he with rfl | he
    · have := h.start_eq
      omega
    · have := h.stop_le e he
      omega

theorem textAt_back (h : Crossed es p text later rest m start stop) (hi : stop ≤ i) :
    textAt es i = textAt later i :=
  h.around.textAt_eq_later h.apart (h.lt_stop.le.trans hi)

/-- What is done in front of the edit, at its place, and behind it. -/
theorem apply_eq (h : Crossed es p text later rest m start stop)
    (hw : ∀ e ∈ es, e.Within cs.length) :
    apply cs (es ++ [⟨p, p, text⟩]) =
      weave (covers rest) (textAt rest) 0 (cs.take start) ++ (m.text ++
        (leftover cs text p stop ++ weave (covers later) (textAt later) stop (cs.drop stop))) := by
  have hlow := h.start_lt
  have hhigh := h.lt_stop
  have hle : stop ≤ cs.length := by
    have := (hw m h.mem).stop_le
    have := h.stop_eq
    omega
  have hback : weave (covers later) (textAt later) p (cs.drop p) =
      (cs.drop p).take (stop - p) ++ weave (covers later) (textAt later) stop (cs.drop stop) := by
    rw [@weave_take_append later _ p (stop - p) (by rw [List.length_drop]; omega)
        fun e he => by have := h.le_start e he; omega,
      List.drop_drop, Nat.add_sub_cancel' hhigh.le]
  have hrest : ∀ e ∈ rest, e.Within cs.length := fun e he =>
    h.around.within hw e (List.mem_append_right _ (List.mem_cons_of_mem m he))
  rw [h.around.apply_eq hw h.apart (by omega), hback, List.foldl_cons,
    applyOne_crossed h.start_eq h.stop_eq hlow hhigh hle,
    foldl_applyOne_take (by omega) hrest h.stop_le
      (List.pairwise_cons.1 (List.pairwise_append.1 h.around.sorted).2.1).2
      (List.pairwise_cons.1 (List.pairwise_append.1 (h.around.apart h.apart)).2.1).2]

end Crossed

theorem exists_crossed (hw : ∀ e ∈ es, e.start ≤ e.stop) (ha : es.Pairwise Edit.Apart) {m : Edit}
    (hm : m ∈ es) {start stop : ℕ} (hstart : m.start = start) (hstop : m.stop = stop)
    (hlow : start < p) (hhigh : p < stop) :
    ∃ later rest, Crossed es p text later rest m start stop := by
  obtain ⟨later, earlier, h⟩ := exists_around p text hw ha
  obtain ⟨rest, rfl⟩ := exists_cons_of_crossed h.sorted (h.perm.mem_iff.2 hm)
    (fun hlater => by have := h.le_start m hlater; omega)
    fun e he => by have := h.start_lt e he; omega
  exact ⟨later, rest, h, hw, ha, hstart, hstop, hlow, hhigh⟩

/-- **An insertion inside the range of an edit** does not survive as it is. -/
theorem apply_insertion_crossed (hw : ∀ e ∈ es, e.Within cs.length) (ha : es.Pairwise Edit.Apart)
    {m : Edit} (hm : m ∈ es) {start stop : ℕ} (hstart : m.start = start) (hstop : m.stop = stop)
    (hlow : start < p) (hhigh : p < stop) :
    apply cs (es ++ [⟨p, p, text⟩]) =
      weave (covers es)
        (fun i => textAt es i ++ if i = start then leftover cs text p stop else []) 0 cs := by
  obtain ⟨later, rest, h⟩ :=
    exists_crossed (fun e he => (hw e he).start_le_stop) ha hm hstart hstop hlow hhigh
  have hle : stop ≤ cs.length := by
    have := (hw m hm).stop_le
    omega
  have hlen : (cs.take start).length = start := List.length_take_of_le (by omega)
  rw [h.apply_eq hw, weave_around (by omega) hle (fun i h₁ h₂ => h.covers_range h₁ h₂)
    fun i h₁ h₂ => by rw [if_neg (by omega), h.textAt_range h₁ h₂, List.append_nil],
    weave_eq_append_end, hlen, if_pos rfl, h.textAt_start]
  generalize leftover cs text p stop = left
  have hfront : weave (covers rest) (fun i => if i = start then [] else textAt rest i) 0
        (cs.take start) =
      weave (covers es) (fun i => if i = start then [] else
        textAt es i ++ if i = start then left else []) 0 (cs.take start) := by
    refine weave_congr (fun i _ hi => (h.covers_front (by omega)).symm) fun i _ hi => ?_
    by_cases his : i = start
    · rw [if_pos his, if_pos his]
    · rw [if_neg his, if_neg his, if_neg his, List.append_nil, h.textAt_front (by omega)]
  have hback : weave (covers later) (textAt later) stop (cs.drop stop) =
      weave (covers es) (fun i => textAt es i ++ if i = start then left else []) stop
        (cs.drop stop) := by
    refine weave_congr (fun i hi _ => (h.covers_back hi).symm) fun i hi _ => ?_
    rw [if_neg (by omega), List.append_nil, h.textAt_back hi]
  rw [hfront, ← hback]
  simp only [List.append_assoc]

end ApiScaffold.Splice
