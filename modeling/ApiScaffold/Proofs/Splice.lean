import ApiScaffold.Splice
import Mathlib.Tactic

/-!
# Splicing as one pass over the text

`Splice.apply` changes the text edit by edit, each time under offsets of the text as it was. This
module says what comes of it in one pass from the front of the text to its back.

* `weave` puts texts in front of some characters of a text and leaves others out;
* `Edit.Apart` says of two edits that their ranges do not overlap and are not the same;
* `apply_eq_weave`: edits that are apart from each other do what a pass does that leaves out the
  characters in their ranges and puts their texts where the ranges begin.
-/

namespace ApiScaffold.Splice

/-! ### One pass -/

/-- A text with texts put in front of its characters, and some of the characters left out; both go
by offsets, which begin at `pos`. -/
def weave (dropped : Nat → Bool) (inserted : Nat → List Char) (pos : Nat) :
    List Char → List Char
  | [] => inserted pos
  | c :: cs =>
    inserted pos ++ (if dropped pos then [] else [c]) ++ weave dropped inserted (pos + 1) cs

/-- The characters of a text that a pass does not leave out. -/
def survivors (dropped : Nat → Bool) (pos : Nat) (cs : List Char) : List Char :=
  weave dropped (fun _ => []) pos cs

variable {dropped dropped' : Nat → Bool} {inserted inserted' : Nat → List Char} {pos : Nat}

theorem weave_congr {cs : List Char}
    (hd : ∀ i, pos ≤ i → i < pos + cs.length → dropped i = dropped' i)
    (hi : ∀ i, pos ≤ i → i ≤ pos + cs.length → inserted i = inserted' i) :
    weave dropped inserted pos cs = weave dropped' inserted' pos cs := by
  induction cs generalizing pos with
  | nil => exact hi pos le_rfl le_rfl
  | cons c cs ih =>
    have hc : (c :: cs).length = cs.length + 1 := rfl
    rw [weave, weave, hd pos le_rfl (by omega), hi pos le_rfl (by omega),
      ih (fun i h₁ h₂ => hd i (by omega) (by omega)) (fun i h₁ h₂ => hi i (by omega) (by omega))]

/-- What is put in front of the whole text can be taken out of the pass. -/
theorem weave_eq_append (cs : List Char) :
    weave dropped inserted pos cs =
      inserted pos ++ weave dropped (fun i => if i = pos then [] else inserted i) pos cs := by
  cases cs with
  | nil => simp [weave]
  | cons c cs =>
    have behind : weave dropped inserted (pos + 1) cs =
        weave dropped (fun i => if i = pos then [] else inserted i) (pos + 1) cs :=
      weave_congr (fun _ _ _ => rfl) fun i hi _ => (if_neg (by omega)).symm
    rw [weave, weave, if_pos rfl, List.nil_append, List.append_assoc, behind]

/-- A part of the text that nothing is put into stays or goes as a whole. -/
theorem weave_segment {b : Bool} {xs : List Char} (ys : List Char) (hx : xs ≠ [])
    (hd : ∀ i, pos ≤ i → i < pos + xs.length → dropped i = b)
    (hi : ∀ i, pos < i → i < pos + xs.length → inserted i = []) :
    weave dropped inserted pos (xs ++ ys) =
      inserted pos ++ (if b then [] else xs) ++
        weave dropped inserted (pos + xs.length) ys := by
  induction xs generalizing pos with
  | nil => exact absurd rfl hx
  | cons x xs ih =>
    have hl : (x :: xs).length = xs.length + 1 := rfl
    rw [List.cons_append, weave, hd pos le_rfl (by omega)]
    by_cases hxs : xs = []
    · subst hxs
      cases b <;> simp
    · have hpos : 0 < xs.length := List.length_pos_iff.2 hxs
      rw [ih hxs (fun i h₁ h₂ => hd i (by omega) (by omega))
        (fun i h₁ h₂ => hi i (by omega) (by omega)), hi (pos + 1) (by omega) (by omega), hl,
        show pos + 1 + xs.length = pos + (xs.length + 1) by omega]
      cases b <;> simp

/-- A pass over two texts is a pass over the first, the text put in front of the second apart, and
one over the second. -/
theorem weave_append (xs ys : List Char) :
    weave dropped inserted pos (xs ++ ys) =
      weave dropped (fun i => if i = pos + xs.length then [] else inserted i) pos xs ++
        weave dropped inserted (pos + xs.length) ys := by
  induction xs generalizing pos with
  | nil => simp [weave]
  | cons x xs ih =>
    rw [List.cons_append, weave, weave, ih, List.length_cons,
      if_neg (show pos ≠ pos + (xs.length + 1) by omega),
      show pos + 1 + xs.length = pos + (xs.length + 1) by omega, List.append_assoc,
      List.append_assoc, List.append_assoc]

theorem weave_nothing (pos : ℕ) (cs : List Char) :
    weave (fun _ => false) (fun _ => []) pos cs = cs := by
  induction cs generalizing pos with
  | nil => rfl
  | cons c cs ih => rw [weave, ih]; rfl

/-- A text that a pass neither shortens nor adds to. -/
theorem weave_eq_self {cs : List Char} (hd : ∀ i, pos ≤ i → i < pos + cs.length → dropped i = false)
    (hi : ∀ i, pos ≤ i → i ≤ pos + cs.length → inserted i = []) :
    weave dropped inserted pos cs = cs :=
  (weave_congr hd hi).trans (weave_nothing pos cs)

/-- A pass that only puts something in at one place of a text. -/
theorem weave_insertion {p : ℕ} {cs : List Char} (hp : p < cs.length)
    (hi : ∀ i < cs.length, i ≠ p → inserted i = []) :
    weave (fun _ => false) (fun i => if i = cs.length then [] else inserted i) 0 cs =
      cs.take p ++ (inserted p ++ cs.drop p) := by
  have hlen : (cs.take p).length = p := List.length_take_of_le hp.le
  have hdrop : (cs.drop p).length = cs.length - p := List.length_drop
  have hnone : ∀ i ≤ cs.length, i ≠ p → (if i = cs.length then [] else inserted i) = [] := by
    intro i h₁ h₂
    split_ifs with h
    · rfl
    · exact hi i (by omega) h₂
  generalize hinserted : (fun i => if i = cs.length then [] else inserted i) = inserted'
  have happ : ∀ i, inserted' i = if i = cs.length then [] else inserted i :=
    fun i => by rw [← hinserted]
  conv_lhs => rw [← List.take_append_drop p cs]
  rw [weave_append, hlen, Nat.zero_add, weave_eq_append (cs.drop p),
    weave_eq_self (fun _ _ _ => rfl), weave_eq_self (fun _ _ _ => rfl), happ, if_neg (by omega)]
  · intro i h₁ h₂
    split_ifs with h
    · rfl
    · rw [happ]
      exact hnone i (by omega) h
  · intro i _ h₂
    split_ifs with h
    · rfl
    · rw [happ]
      exact hnone i (by omega) h

/-- A pass that puts something in front of a text and leaves out its front part. -/
theorem weave_replace {xs ys : List Char}
    (hx : ∀ i, pos ≤ i → i < pos + xs.length → dropped i = true)
    (hy : ∀ i, pos + xs.length ≤ i → dropped i = false) (hi : ∀ i, pos < i → inserted i = []) :
    weave dropped inserted pos (xs ++ ys) = inserted pos ++ ys := by
  by_cases hn : xs = []
  · subst hn
    rw [List.nil_append, weave_eq_append, weave_eq_self (fun i h₁ _ => hy i (by simpa using h₁))]
    intro i h₁ _
    by_cases h : i = pos
    · rw [if_pos h]
    · rw [if_neg h, hi i (by omega)]
  · have hl : 0 < xs.length := List.length_pos_iff.2 hn
    rw [weave_segment ys hn hx (fun i h₁ _ => hi i h₁), if_pos rfl, List.append_nil,
      weave_eq_self (fun i h₁ _ => hy i h₁) (fun i h₁ _ => hi i (by omega))]

/-- A pass keeps the characters that it does not leave out, in their order. -/
theorem survivors_sublist (cs : List Char) :
    (survivors dropped pos cs).Sublist (weave dropped inserted pos cs) := by
  unfold survivors
  induction cs generalizing pos with
  | nil => exact List.nil_sublist _
  | cons c cs ih =>
    rw [weave, weave, List.nil_append]
    exact (List.sublist_append_right _ _).append ih

/-- A pass adds to the characters that stay just what it puts in. -/
theorem length_weave (cs : List Char) :
    (weave dropped inserted pos cs).length =
      (survivors dropped pos cs).length +
        ((List.range (cs.length + 1)).map fun k => (inserted (pos + k)).length).sum := by
  unfold survivors
  induction cs generalizing pos with
  | nil => simp [weave]
  | cons c cs ih =>
    have shift : ∀ k, pos + 1 + k = pos + (k + 1) := fun k => by omega
    rw [weave, weave, List.length_append, List.length_append, ih, List.nil_append,
      List.length_append, List.length_cons, List.range_succ_eq_map (n := cs.length + 1)]
    simp only [List.map_cons, List.map_map, List.sum_cons, Function.comp_def, shift, Nat.add_zero,
      Nat.succ_eq_add_one]
    omega

/-- A pass reaches each place of the text. -/
theorem exists_weave_append (xs ys : List Char) :
    ∃ front, weave dropped inserted pos (xs ++ ys) =
      front ++ weave dropped inserted (pos + xs.length) ys := by
  induction xs generalizing pos with
  | nil => exact ⟨[], rfl⟩
  | cons x xs ih =>
    obtain ⟨front, hf⟩ := @ih (pos + 1)
    refine ⟨inserted pos ++ (if dropped pos then [] else [x]) ++ front, ?_⟩
    rw [List.cons_append, weave, hf, List.append_assoc _ front, List.length_cons,
      show pos + 1 + xs.length = pos + (xs.length + 1) by omega]

/-- A text is its part before a range, the range, and its part behind. -/
theorem take_append_range {a b : ℕ} (hab : a ≤ b) (cs : List Char) :
    cs.take a ++ ((cs.drop a).take (b - a) ++ cs.drop b) = cs := by
  have hdrop : cs.drop b = (cs.drop a).drop (b - a) := by
    rw [List.drop_drop, Nat.add_sub_cancel' hab]
  rw [hdrop, List.take_append_drop, List.take_append_drop]

/-- A range that a pass leaves alone is found in the result as it is. -/
theorem infix_weave {a b : ℕ} {cs : List Char} (hab : a < b) (hb : b ≤ cs.length)
    (hd : ∀ i, a ≤ i → i < b → dropped i = false) (hi : ∀ i, a < i → i < b → inserted i = []) :
    (cs.drop a).take (b - a) <:+: weave dropped inserted 0 cs := by
  have ha : (cs.take a).length = a := by rw [List.length_take]; omega
  have hm : ((cs.drop a).take (b - a)).length = b - a := by
    rw [List.length_take, List.length_drop]; omega
  obtain ⟨front, hf⟩ := @exists_weave_append dropped inserted 0
    (cs.take a) ((cs.drop a).take (b - a) ++ cs.drop b)
  rw [take_append_range hab.le, ha, Nat.zero_add, weave_segment (b := false) (cs.drop b)
    (List.ne_nil_of_length_pos (by omega)) (fun i h₁ h₂ => hd i h₁ (by omega))
    (fun i h₁ h₂ => hi i h₁ (by omega))] at hf
  refine ⟨front ++ inserted a, weave dropped inserted (a + (b - a)) (cs.drop b), ?_⟩
  rw [hf, hm]
  simp

/-- What a pass puts in at a place is found in the result as it is. -/
theorem inserted_infix_weave {i : ℕ} {cs : List Char} (hi : i ≤ cs.length) :
    inserted i <:+: weave dropped inserted 0 cs := by
  obtain ⟨front, hfront⟩ := @exists_weave_append dropped inserted 0 (cs.take i) (cs.drop i)
  have hlen : (cs.take i).length = i := List.length_take_of_le hi
  rw [List.take_append_drop, hlen, Nat.zero_add, weave_eq_append (cs.drop i)] at hfront
  exact ⟨front, _, by rw [hfront, List.append_assoc]⟩

/-! ### Edits that are apart -/

/-- The range of an edit lies in a text of the given size. -/
structure Edit.Within (size : ℕ) (e : Edit) : Prop where
  start_nonneg : 0 ≤ e.start
  start_le_stop : e.start ≤ e.stop
  stop_le : e.stop ≤ size

/-- Two edits leave each other alone: their ranges neither overlap nor are the same. -/
def Edit.Apart (a b : Edit) : Prop :=
  (a.stop ≤ b.start ∨ b.stop ≤ a.start) ∧ ¬(a.start = b.start ∧ a.stop = b.stop)

theorem Edit.Apart.symm {a b : Edit} (h : a.Apart b) : b.Apart a :=
  ⟨h.1.symm, fun hk => h.2 ⟨hk.1.symm, hk.2.symm⟩⟩

/-- Whether an offset lies in the range of one of the edits. -/
def covers (es : List Edit) (i : ℕ) : Bool := es.any fun e => e.start ≤ (i : ℤ) && (i : ℤ) < e.stop

/-- The texts that edits put at an offset: first that of an insertion, then that of a
replacement. -/
def textAt (es : List Edit) (i : ℕ) : List Char :=
  (es.filter fun e => e.start == (i : ℤ) && e.stop == (i : ℤ)).flatMap (·.text) ++
    (es.filter fun e => e.start == (i : ℤ) && (i : ℤ) < e.stop).flatMap (·.text)

/-- The edit with another text. -/
def Edit.mapText (g : List Char → List Char) (e : Edit) : Edit := { e with text := g e.text }

theorem covers_mapText (g : List Char → List Char) (es : List Edit) (i : ℕ) :
    covers (es.map (Edit.mapText g)) i = covers es i := List.any_map

/-- A list of which no two members are apart has at most one. -/
theorem length_le_one_of_pairwise {es : List Edit} (h : es.Pairwise Edit.Apart)
    (hn : ∀ a ∈ es, ∀ b ∈ es, ¬a.Apart b) : es.length ≤ 1 := by
  match es with
  | [] => simp
  | [_] => simp
  | a :: b :: es =>
    have hab : a.Apart b := (List.pairwise_cons.1 h).1 b (by simp)
    exact absurd hab (hn a (by simp) b (by simp))

theorem perm_eq_of_length_le_one {α : Type} {xs ys : List α} (h : xs.Perm ys)
    (hl : xs.length ≤ 1) : xs = ys := by
  match xs, hl with
  | [], _ => exact (List.nil_perm.1 h).symm
  | [x], _ => exact List.singleton_perm.1 h

/-- The order in which edits that are apart are listed does not matter. -/
theorem textAt_perm {es fs : List Edit} (h : es.Perm fs) (ha : es.Pairwise Edit.Apart) (i : ℕ) :
    textAt es i = textAt fs i := by
  unfold textAt
  congr 2
  · refine perm_eq_of_length_le_one (h.filter _) (length_le_one_of_pairwise (ha.filter _) ?_)
    intro a hma b hmb hab
    simp only [List.mem_filter, Bool.and_eq_true, beq_iff_eq] at hma hmb
    exact hab.2 ⟨by omega, by omega⟩
  · refine perm_eq_of_length_le_one (h.filter _) (length_le_one_of_pairwise (ha.filter _) ?_)
    intro a hma b hmb hab
    simp only [List.mem_filter, Bool.and_eq_true, beq_iff_eq, decide_eq_true_eq] at hma hmb
    rcases hab.1 with h₁ | h₁ <;> omega

theorem covers_perm {es fs : List Edit} (h : es.Perm fs) (i : ℕ) : covers es i = covers fs i := by
  rw [Bool.eq_iff_iff]
  simp only [covers, List.any_eq_true]
  exact ⟨fun ⟨e, he, hc⟩ => ⟨e, h.mem_iff.1 he, hc⟩, fun ⟨e, he, hc⟩ => ⟨e, h.mem_iff.2 he, hc⟩⟩

/-! ### From the back to the front -/

/-- Edits from the back of the text to its front, when they are apart: each ends where the one
before it begins, or earlier. -/
theorem pairwise_backToFront {es : List Edit} (h : es.Pairwise Edit.Apart)
    (hw : ∀ e ∈ es, e.start ≤ e.stop) :
    (backToFront es).Pairwise fun a b => b.stop ≤ a.start := by
  have sorted : (backToFront es).Pairwise fun a b => notBefore a b = true := by
    apply List.pairwise_mergeSort
    · intro a b c hab hbc
      simp only [notBefore, Bool.or_eq_true, Bool.and_eq_true, decide_eq_true_eq, beq_iff_eq] at *
      omega
    · intro a b
      simp only [notBefore, Bool.or_eq_true, Bool.and_eq_true, decide_eq_true_eq, beq_iff_eq]
      omega
  have apart : (backToFront es).Pairwise Edit.Apart :=
    (backToFront_perm es).symm.pairwise h fun hab => hab.symm
  refine (sorted.and apart).imp_of_mem ?_
  intro a b ha hb hab
  obtain ⟨hle, hor, hne⟩ := hab
  have hwa := hw a ((backToFront_perm es).mem_iff.1 ha)
  have hwb := hw b ((backToFront_perm es).mem_iff.1 hb)
  simp only [notBefore, Bool.or_eq_true, Bool.and_eq_true, decide_eq_true_eq, beq_iff_eq] at hle
  rcases hor with h₁ | h₁ <;> omega

/-- An edit inside the front part of a text leaves the back part alone. -/
theorem applyOne_append {e : Edit} {xs : List Char} (ys : List Char) (h : e.Within xs.length) :
    applyOne (xs ++ ys) e =
      xs.take e.start.toNat ++ (e.text ++ (xs.drop e.stop.toNat ++ ys)) := by
  obtain ⟨h₀, h₁, h₂⟩ := h
  have hs : offset (xs ++ ys).length e.start = e.start.toNat := by
    rw [offset, if_neg (by omega), List.length_append]; omega
  have ht : offset (xs ++ ys).length e.stop = e.stop.toNat := by
    rw [offset, if_neg (by omega), List.length_append]; omega
  rw [applyOne, hs, ht, List.take_append_of_le_length (by omega),
    List.drop_append_of_le_length (by omega), List.append_assoc]

theorem foldl_applyOne_append {es : List Edit} {xs : List Char} (ys : List Char)
    (hw : ∀ e ∈ es, e.Within xs.length) (hp : es.Pairwise fun a b => b.stop ≤ a.start) :
    es.foldl applyOne (xs ++ ys) = es.foldl applyOne xs ++ ys := by
  induction es generalizing xs ys with
  | nil => rfl
  | cons e es ih =>
    have he := hw e (by simp)
    have hlen : (xs.take e.start.toNat).length = e.start.toNat := by
      rw [List.length_take]; have := he.start_le_stop; have := he.stop_le; omega
    have inside : ∀ f ∈ es, f.Within (xs.take e.start.toNat).length := by
      intro f hf
      have hfe := (List.pairwise_cons.1 hp).1 f hf
      have hfw := hw f (by simp [hf])
      have := he.start_nonneg
      exact ⟨hfw.start_nonneg, hfw.start_le_stop, by omega⟩
    have hone := applyOne_append [] he
    rw [List.append_nil, List.append_nil] at hone
    rw [List.foldl_cons, List.foldl_cons, applyOne_append ys he, hone,
      ih _ inside (List.pairwise_cons.1 hp).2, ih _ inside (List.pairwise_cons.1 hp).2]
    simp only [List.append_assoc]

/-- What the last edit of a text puts at its place comes behind what the others put there. -/
theorem textAt_cons_start {e : Edit} {es : List Edit} {n : ℕ} (hn : e.start = n)
    (he : e.start ≤ e.stop) (hp : ∀ f ∈ es, f.stop ≤ e.start) (ha : ∀ f ∈ es, e.Apart f) :
    textAt (e :: es) n = textAt es n ++ e.text := by
  have later : (es.filter fun f => f.start == (n : ℤ) && (n : ℤ) < f.stop) = [] := by
    rw [List.filter_eq_nil_iff]
    intro f hf
    have := hp f hf
    simp only [Bool.and_eq_true, beq_iff_eq, decide_eq_true_eq]
    omega
  unfold textAt
  rw [List.filter_cons, List.filter_cons, later]
  rcases he.lt_or_eq with h | h
  · have hne : e.stop ≠ (n : ℤ) := by omega
    simp [hn, hne, show (n : ℤ) < e.stop by omega]
  · have none_here : (es.filter fun f => f.start == (n : ℤ) && f.stop == (n : ℤ)) = [] := by
      rw [List.filter_eq_nil_iff]
      intro f hf
      have := (ha f hf).2
      simp only [Bool.and_eq_true, beq_iff_eq]
      omega
    simp [hn, none_here, show e.stop = (n : ℤ) by omega]

/-- Elsewhere it puts nothing. -/
theorem textAt_cons_of_ne {e : Edit} {es : List Edit} {i : ℕ} (hi : e.start ≠ i) :
    textAt (e :: es) i = textAt es i := by
  unfold textAt
  rw [List.filter_cons, List.filter_cons]
  simp [hi]

theorem textAt_eq_nil {es : List Edit} {i : ℕ} (h : ∀ e ∈ es, e.start ≠ i) : textAt es i = [] := by
  induction es with
  | nil => rfl
  | cons e es ih =>
    rw [textAt_cons_of_ne (h e (by simp)), ih fun f hf => h f (by simp [hf])]

/-- In the range of the last edit of a text, and behind it, only its text is put in and only the
range is left out. -/
theorem weave_range {e : Edit} {es : List Edit} {n : ℕ} {xs : List Char} (ys : List Char)
    (hstart : e.start = n) (hstop : e.stop = n + xs.length)
    (hes : ∀ f ∈ es, f.start ≤ f.stop ∧ f.stop ≤ n) :
    weave (covers (e :: es)) (textAt (e :: es)) n (xs ++ ys) = textAt (e :: es) n ++ ys := by
  apply weave_replace
  · intro i h₁ h₂
    simp only [covers, List.any_cons, Bool.or_eq_true, Bool.and_eq_true, decide_eq_true_eq]
    exact Or.inl ⟨by omega, by omega⟩
  · intro i hi
    simp only [covers, List.any_eq_false, Bool.and_eq_true, decide_eq_true_eq]
    intro f hf
    rcases List.mem_cons.1 hf with rfl | hf
    · omega
    · have := hes f hf
      omega
  · intro i hi
    refine textAt_eq_nil fun f hf => ?_
    rcases List.mem_cons.1 hf with rfl | hf
    · omega
    · have := hes f hf
      omega

/-- In front of its range the last edit changes nothing. -/
theorem weave_front {e : Edit} {es : List Edit} {xs : List Char} (hstart : e.start = xs.length) :
    weave (covers (e :: es)) (fun i => if i = 0 + xs.length then [] else textAt (e :: es) i) 0 xs =
      weave (covers es) (fun i => if i = 0 + xs.length then [] else textAt es i) 0 xs := by
  apply weave_congr
  · intro i _ hi
    have hearlier : decide (e.start ≤ (i : ℤ)) = false := by
      rw [decide_eq_false_iff_not]
      omega
    simp only [covers, List.any_cons, hearlier, Bool.false_and, Bool.false_or]
  · intro i _ _
    by_cases h : i = 0 + xs.length
    · rw [if_pos h, if_pos h]
    · rw [if_neg h, if_neg h, textAt_cons_of_ne (by omega)]

/-- Edits applied from the back of a text to its front do what one pass does. -/
theorem foldl_applyOne_eq_weave {es : List Edit} {cs : List Char}
    (hw : ∀ e ∈ es, e.Within cs.length) (hp : es.Pairwise fun a b => b.stop ≤ a.start)
    (ha : es.Pairwise Edit.Apart) :
    es.foldl applyOne cs = weave (covers es) (textAt es) 0 cs := by
  induction es generalizing cs with
  | nil =>
    exact (weave_eq_self (fun _ _ _ => rfl) (fun _ _ _ => rfl)).symm
  | cons e es ih =>
    have he := hw e (by simp)
    have ⟨h₀, h₁, h₂⟩ := he
    obtain ⟨s, hs⟩ := Int.eq_ofNat_of_zero_le h₀
    obtain ⟨t, ht⟩ := Int.eq_ofNat_of_zero_le (h₀.trans h₁)
    have below : ∀ f ∈ es, f.stop ≤ s := fun f hf => by
      have := (List.pairwise_cons.1 hp).1 f hf; omega
    have wide : ∀ f ∈ es, f.Within cs.length := fun f hf => hw f (by simp [hf])
    have hlen : (cs.take s).length = s := by rw [List.length_take]; omega
    have inside : ∀ f ∈ es, f.Within (cs.take s).length := fun f hf =>
      ⟨(wide f hf).start_nonneg, (wide f hf).start_le_stop, by rw [hlen]; exact below f hf⟩
    have hone := applyOne_append [] he
    rw [List.append_nil, List.append_nil, hs, ht, Int.toNat_natCast, Int.toNat_natCast] at hone
    -- the text of the edit and what comes behind it stay as they are from now on
    have left : (e :: es).foldl applyOne cs =
        weave (covers es) (textAt es) 0 (cs.take s) ++ (e.text ++ cs.drop t) := by
      rw [List.foldl_cons, hone, foldl_applyOne_append _ inside (List.pairwise_cons.1 hp).2,
        ih inside (List.pairwise_cons.1 hp).2 (List.pairwise_cons.1 ha).2]
    have behind : weave (covers (e :: es)) (textAt (e :: es)) s
        ((cs.drop s).take (t - s) ++ cs.drop t) = textAt (e :: es) s ++ cs.drop t := by
      refine weave_range _ hs ?_ fun f hf => ⟨(wide f hf).start_le_stop, below f hf⟩
      rw [List.length_take, List.length_drop]
      omega
    have front := @weave_front e es (cs.take s) (by rw [hlen, hs])
    have here := textAt_cons_start (n := s) hs h₁ (fun f hf => by rw [hs]; exact below f hf)
      (List.pairwise_cons.1 ha).1
    have cut := @weave_append (covers es) (textAt es) 0 (cs.take s) []
    rw [List.append_nil, weave, ← front, hlen, Nat.zero_add] at cut
    have hwhole := take_append_range (show s ≤ t by omega) cs
    conv_rhs => rw [← hwhole]
    rw [left, weave_append, hlen, Nat.zero_add, behind, here, cut]
    simp only [List.append_assoc]

/-- **Edits that are apart from each other are done in one pass.** -/
theorem apply_eq_weave {es : List Edit} {cs : List Char} (hw : ∀ e ∈ es, e.Within cs.length)
    (ha : es.Pairwise Edit.Apart) :
    apply cs es = weave (covers es) (textAt es) 0 cs := by
  have hperm := backToFront_perm es
  have apart : (backToFront es).Pairwise Edit.Apart := hperm.symm.pairwise ha fun h => h.symm
  unfold apply
  rw [foldl_applyOne_eq_weave (fun e he => hw e (hperm.mem_iff.1 he))
    (pairwise_backToFront ha fun e he => (hw e he).start_le_stop) apart]
  exact weave_congr (fun i _ _ => covers_perm hperm i) (fun i _ _ => textAt_perm hperm apart i)

end ApiScaffold.Splice
