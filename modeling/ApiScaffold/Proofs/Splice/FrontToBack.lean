import ApiScaffold.Proofs.Splice

/-!
# Splicing from the front to the back

Edits are applied from the back of a text to its front, each to a text that those behind it have
changed already. A reader goes the other way, from the front of the text as it was, and meets each
edit once.

* `Spliced`: what comes of a text and its edits, read from the front to the back;
* `Spliced.foldl_reverse`: edits applied from the back to the front come to the same, whatever
  stands in front of them;
* `apply_eq_iff_spliced`: the result of edits that are apart is what is read so, in whatever order
  the edits are listed.
-/

namespace ApiScaffold.Splice

variable {cs out : List Char} {es fs gs : List Edit} {pos : ℕ}

/-- What comes of a text that begins at offset `pos`, read from its front to its back: the text up
to an edit is kept, the range of the edit gives way to its text, and so on behind the range. -/
inductive Spliced : ℕ → List Char → List Edit → List Char → Prop
  | done (pos : ℕ) (cs : List Char) : Spliced pos cs [] cs
  | edit {pos : ℕ} {kept removed rest out : List Char} {e : Edit} {es : List Edit}
      (start_eq : e.start = ↑(pos + kept.length))
      (stop_eq : e.stop = ↑(pos + kept.length + removed.length))
      (behind : Spliced (pos + kept.length + removed.length) rest es out) :
      Spliced pos (kept ++ (removed ++ rest)) (e :: es) (kept ++ (e.text ++ out))

namespace Spliced

theorem le_start (h : Spliced pos cs es out) : ∀ e ∈ es, (pos : ℤ) ≤ e.start := by
  induction h with
  | done => simp
  | edit start_eq _ _ ih =>
    refine List.forall_mem_cons.2 ⟨by omega, fun e he => ?_⟩
    have := ih e he
    omega

/-- An edit ends where the next one begins, or in front of it. -/
theorem pairwise (h : Spliced pos cs es out) : es.Pairwise fun a b => a.stop ≤ b.start := by
  induction h with
  | done => exact .nil
  | edit _ stop_eq behind ih =>
    refine .cons (fun e he => ?_) ih
    rw [stop_eq]
    exact behind.le_start e he

/-- **Edits from the back to the front** come to the same. What stands in front of the text is the
part that none of them has reached. -/
theorem foldl_reverse (h : Spliced pos cs es out) {front : List Char}
    (hfront : front.length = pos) :
    es.reverse.foldl applyOne (front ++ cs) = front ++ out := by
  induction h generalizing front with
  | done => rfl
  | @edit pos kept removed rest out e es start_eq stop_eq _ ih =>
    have hkept : (front ++ kept).length = pos + kept.length := by rw [List.length_append, hfront]
    have hrange : (front ++ kept ++ removed).length = pos + kept.length + removed.length := by
      rw [List.length_append, hkept]
    -- For the edits behind this one, the kept text and the range belong to the part in front.
    have hbehind := ih hrange
    have hwithin : e.Within (front ++ kept ++ removed).length := by
      refine ⟨?_, ?_, ?_⟩ <;> omega
    have hone := applyOne_append out hwithin
    rw [start_eq, stop_eq, Int.toNat_natCast, Int.toNat_natCast, ← hrange, List.drop_length,
      ← hkept, List.take_left, List.nil_append] at hone
    rw [List.reverse_cons, List.foldl_append]
    simp only [List.append_assoc] at hbehind hone ⊢
    rw [hbehind]
    exact hone

end Spliced

/-- Edits in the order of their ranges can be read from the front to the back. -/
theorem exists_spliced (hsorted : es.Pairwise fun a b => a.stop ≤ b.start)
    (hw : ∀ e ∈ es, (pos : ℤ) ≤ e.start ∧ e.start ≤ e.stop ∧ e.stop ≤ ↑(pos + cs.length)) :
    ∃ out, Spliced pos cs es out := by
  induction es generalizing pos cs with
  | nil => exact ⟨cs, .done pos cs⟩
  | cons e es ih =>
    obtain ⟨hlater, hsorted⟩ := List.pairwise_cons.1 hsorted
    obtain ⟨⟨hpos, hle, hstop⟩, hw⟩ := List.forall_mem_cons.1 hw
    obtain ⟨s, hs⟩ := Int.eq_ofNat_of_zero_le (show 0 ≤ e.start by omega)
    obtain ⟨t, ht⟩ := Int.eq_ofNat_of_zero_le (show 0 ≤ e.stop by omega)
    have hkept : (cs.take (s - pos)).length = s - pos := List.length_take_of_le (by omega)
    have hremoved : ((cs.drop (s - pos)).take (t - pos - (s - pos))).length = t - s := by
      rw [List.length_take, List.length_drop]
      omega
    have hrest : (cs.drop (t - pos)).length = cs.length - (t - pos) := List.length_drop
    obtain ⟨out, hout⟩ := @ih (cs.drop (t - pos)) t hsorted fun f hf => by
      have := hlater f hf
      have := hw f hf
      omega
    refine ⟨cs.take (s - pos) ++ (e.text ++ out), ?_⟩
    conv => arg 2; rw [← take_append_range (show s - pos ≤ t - pos by omega) cs]
    refine .edit (by omega) (by omega) ?_
    rwa [hkept, hremoved, show pos + (s - pos) + (t - s) = t by omega]

instance : Std.Symm Edit.Apart := ⟨fun _ _ h => h.symm⟩

/-- The ranges of edits that are apart come in one order only. -/
theorem eq_of_pairwise_stop_le (ha : es.Pairwise Edit.Apart) (hw : ∀ e ∈ es, e.start ≤ e.stop)
    (hfs : fs.Perm es) (hgs : gs.Perm es) (hf : fs.Pairwise fun a b => a.stop ≤ b.start)
    (hg : gs.Pairwise fun a b => a.stop ≤ b.start) : fs = gs := by
  refine (hfs.trans hgs.symm).eq_of_pairwise (fun a b hma hmb hab hba => ?_) hf hg
  have hma := hfs.mem_iff.1 hma
  have hmb := hgs.mem_iff.1 hmb
  by_contra hne
  have hsame := (ha.forall hma hmb hne).2
  have := hw a hma
  have := hw b hmb
  omega

/-- **Applying edits is splicing from the front to the back.** The result of edits that are apart
from each other is the text in which each of them, met once on the way from the front to the back,
has its range replaced; the order in which the edits are listed does not matter. -/
theorem apply_eq_iff_spliced (hw : ∀ e ∈ es, e.Within cs.length) (ha : es.Pairwise Edit.Apart)
    (hgs : gs.Perm es) :
    apply cs gs = out ↔ ∃ fs, fs.Perm es ∧ Spliced 0 cs fs out := by
  have hproper : ∀ e ∈ es, e.start ≤ e.stop := fun e he => (hw e he).start_le_stop
  -- Reversed, the edits come in the order of their ranges.
  have hperm : (backToFront gs).reverse.Perm es :=
    (List.reverse_perm _).trans ((backToFront_perm gs).trans hgs)
  have hsorted : (backToFront gs).reverse.Pairwise fun a b => a.stop ≤ b.start := by
    rw [List.pairwise_reverse]
    exact pairwise_backToFront (hgs.symm.pairwise ha fun h => h.symm)
      fun e he => hproper e (hgs.mem_iff.1 he)
  have happly : ∀ {out}, Spliced 0 cs (backToFront gs).reverse out → apply cs gs = out := by
    intro out h
    simpa [apply] using h.foldl_reverse (show [].length = 0 from rfl)
  constructor
  · rintro rfl
    have hread : ∃ out, Spliced 0 cs (backToFront gs).reverse out :=
      exists_spliced hsorted fun e he => by
        obtain ⟨h₀, h₁, h₂⟩ := hw e (hperm.mem_iff.1 he)
        omega
    obtain ⟨out, hout⟩ := hread
    exact ⟨_, hperm, happly hout ▸ hout⟩
  · rintro ⟨fs, hfs, h⟩
    have hsame := eq_of_pairwise_stop_le ha hproper hfs hperm h.pairwise hsorted
    exact happly (hsame ▸ h)

/-- A replacement, and a removal with an insertion at either end of it. -/
def touching : List Edit := [⟨0, 1, ['O']⟩, ⟨4, 4, ['2']⟩, ⟨4, 7, []⟩, ⟨7, 7, ['!']⟩]

/-- They come out in their places also if the removal is listed first. -/
theorem apply_eq_iff_spliced_touching :
    (∀ e ∈ touching, e.Within "one two".toList.length) ∧ touching.Pairwise Edit.Apart ∧
      apply "one two".toList [⟨4, 7, []⟩, ⟨0, 1, ['O']⟩, ⟨7, 7, ['!']⟩, ⟨4, 4, ['2']⟩] =
        "One 2!".toList := by
  have hw : ∀ e ∈ touching, e.Within "one two".toList.length := by
    simp only [touching, List.forall_mem_cons]
    exact ⟨⟨by decide, by decide, by decide⟩, ⟨by decide, by decide, by decide⟩,
      ⟨by decide, by decide, by decide⟩, ⟨by decide, by decide, by decide⟩, by simp⟩
  have ha : touching.Pairwise Edit.Apart := by simp [touching, Edit.Apart]
  refine ⟨hw, ha, (apply_eq_iff_spliced hw ha (by decide)).2 ⟨touching, .refl _, ?_⟩⟩
  have hend : Spliced 7 [] [⟨7, 7, ['!']⟩] ['!'] :=
    @Spliced.edit 7 [] [] [] [] _ _ rfl rfl (.done 7 [])
  have hremoval : Spliced 4 "two".toList [⟨4, 7, []⟩, ⟨7, 7, ['!']⟩] ['!'] :=
    @Spliced.edit 4 [] "two".toList [] _ _ _ rfl rfl hend
  have hinsertion : Spliced 1 "ne two".toList (touching.drop 1) "ne 2!".toList :=
    @Spliced.edit 1 "ne ".toList [] _ _ _ _ rfl rfl hremoval
  exact @Spliced.edit 0 [] ['o'] _ _ _ _ rfl rfl hinsertion

end ApiScaffold.Splice
