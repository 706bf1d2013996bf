import ApiScaffold.Text.Blank
import Mathlib.Data.List.TakeWhile
import Mathlib.Tactic

/-!
# Texts and their pieces

* `notMem_of_mem_splitWhere`: a piece holds no separator, and `flatten_splitWhere`: nothing but the
  separators is missing in the pieces;
* `splitOn_joinWith`: pieces that were joined are split again;
* `holds_flatMap`, `holds_joinWith`: what holds of the parts of a text holds of the text, if it
  holds of two texts one after the other;
* `mem_joinWith`: joining brings in the characters of the separator alone;
* `getLast?_splitOn`: the last piece is what follows the last separator.
-/

namespace ApiScaffold.Text

section Split

variable {sep : Char} {ls : List (List Char)}

theorem notMem_of_mem_splitWhere {p : Char → Bool} {cs w : List Char} (hw : w ∈ splitWhere p cs)
    {c : Char} (hc : c ∈ w) : p c = false := by
  induction cs generalizing w with
  | nil =>
    rw [splitWhere, List.mem_singleton] at hw
    rw [hw] at hc
    cases hc
  | cons d cs ih =>
    rw [splitWhere] at hw
    split at hw
    · rcases List.mem_cons.1 hw with rfl | hw
      · cases hc
      · exact ih hw hc
    · next hd =>
      split at hw
      · next hnil => exact absurd hnil (splitWhere_ne_nil p cs)
      · next v vs hvs =>
        rcases List.mem_cons.1 hw with rfl | hw
        · rcases List.mem_cons.1 hc with rfl | hc
          · simpa using hd
          · exact ih (hvs ▸ List.mem_cons_self) hc
        · exact ih (hvs ▸ List.mem_cons_of_mem _ hw) hc

theorem flatten_splitWhere (p : Char → Bool) (cs : List Char) :
    (splitWhere p cs).flatten = cs.filter fun c => !p c := by
  induction cs with
  | nil => rfl
  | cons c cs ih =>
    rw [splitWhere]
    by_cases hc : p c
    · simp [hc, ih]
    · cases hs : splitWhere p cs with
      | nil => exact absurd hs (splitWhere_ne_nil p cs)
      | cons w ws => simp [hc, ← ih, hs]

theorem splitOn_append {l : List Char} (hl : sep ∉ l) (r : List Char) :
    splitOn sep (l ++ sep :: r) = l :: splitOn sep r := by
  induction l with
  | nil => simp [splitOn, splitWhere]
  | cons c cs ih =>
    rw [List.mem_cons, not_or] at hl
    have htail := ih hl.2
    unfold splitOn at htail ⊢
    rw [List.cons_append, splitWhere, htail]
    simp [Ne.symm hl.1]

theorem splitOn_of_notMem {l : List Char} (hl : sep ∉ l) : splitOn sep l = [l] := by
  induction l with
  | nil => rfl
  | cons c cs ih =>
    rw [List.mem_cons, not_or] at hl
    have htail := ih hl.2
    unfold splitOn at htail ⊢
    rw [splitWhere, htail]
    simp [Ne.symm hl.1]

theorem joinWith_cons (s l : List Char) (h : ls ≠ []) :
    joinWith s (l :: ls) = l ++ s ++ joinWith s ls := by
  obtain ⟨k, ks, rfl⟩ := List.exists_cons_of_ne_nil h
  simp [joinWith, List.intercalate]

/-- What holds of the empty text, and of two texts one after the other if it holds of each, holds
of any number of texts one after the other. -/
theorem holds_flatMap {α : Type} {holds : List Char → Prop} (hnil : holds [])
    (happend : ∀ {t u}, holds t → holds u → holds (t ++ u)) {f : α → List Char} {xs : List α}
    (h : ∀ x ∈ xs, holds (f x)) : holds (xs.flatMap f) := by
  induction xs with
  | nil => exact hnil
  | cons x xs ih =>
    rw [List.flatMap_cons]
    exact happend (h x List.mem_cons_self) (ih fun y hy => h y (List.mem_cons_of_mem x hy))

/-- So it is with texts that are joined by a text of which it holds. -/
theorem holds_joinWith {holds : List Char → Prop} (hnil : holds [])
    (happend : ∀ {t u}, holds t → holds u → holds (t ++ u)) {s : List Char} (hs : holds s)
    (h : ∀ l ∈ ls, holds l) : holds (joinWith s ls) := by
  induction ls with
  | nil => exact hnil
  | cons l ls ih =>
    have hl := h l List.mem_cons_self
    by_cases hls : ls = []
    · subst hls
      simpa [joinWith, List.intercalate] using hl
    · rw [joinWith_cons _ _ hls]
      exact happend (happend hl hs) (ih fun k hk => h k (List.mem_cons_of_mem l hk))

theorem mem_joinWith {s : List Char} {c : Char} (h : c ∈ joinWith s ls) :
    c ∈ s ∨ ∃ l ∈ ls, c ∈ l := by
  let holds (t : List Char) : Prop := ∀ d ∈ t, d ∈ s ∨ ∃ l ∈ ls, d ∈ l
  have hnil : holds [] := fun _ hd => (List.not_mem_nil hd).elim
  have happend : ∀ {t u}, holds t → holds u → holds (t ++ u) := fun ht hu d hd =>
    (List.mem_append.1 hd).elim (ht d) (hu d)
  have hseparator : holds s := fun _ hd => Or.inl hd
  have hpart : ∀ l ∈ ls, holds l := fun l hl _ hd => Or.inr ⟨l, hl, hd⟩
  exact holds_joinWith hnil happend hseparator hpart c h

/-- What is joined stands in the whole. -/
theorem infix_joinWith (s : List Char) {l : List Char} (h : l ∈ ls) : l <:+: joinWith s ls := by
  induction ls with
  | nil => cases h
  | cons k ls ih =>
    by_cases hls : ls = []
    · subst hls
      obtain rfl := List.mem_singleton.1 h
      rw [joinWith, List.intercalate_singleton]
    · rw [joinWith_cons _ _ hls]
      rcases List.mem_cons.1 h with rfl | h
      · rw [List.append_assoc]
        exact (List.prefix_append _ _).isInfix
      · exact (ih h).trans (List.suffix_append _ _).isInfix

theorem splitOn_joinWith (h : ∀ l ∈ ls, sep ∉ l) (hne : ls ≠ []) :
    splitOn sep (joinWith [sep] ls) = ls := by
  induction ls with
  | nil => exact absurd rfl hne
  | cons l ls ih =>
    have hl := h l (List.mem_cons_self ..)
    have htail := fun k hk => h k (List.mem_cons_of_mem l hk)
    by_cases hls : ls = []
    · subst hls
      simpa [joinWith, List.intercalate] using splitOn_of_notMem hl
    · rw [joinWith_cons _ _ hls, List.append_assoc, List.singleton_append, splitOn_append hl,
        ih htail hls]

/-- Lines with a separator in front of each. -/
theorem append_joinWith (s : List Char) (hne : ls ≠ []) :
    s ++ joinWith s ls = ls.flatMap (s ++ ·) := by
  induction ls with
  | nil => exact absurd rfl hne
  | cons l ls ih =>
    by_cases hls : ls = []
    · subst hls
      simp [joinWith, List.intercalate]
    · rw [joinWith_cons _ _ hls, List.append_assoc, ih hls, List.flatMap_cons, List.append_assoc]

/-- Lines with a separator behind each. -/
theorem joinWith_append (s : List Char) (hne : ls ≠ []) :
    joinWith s ls ++ s = ls.flatMap (· ++ s) := by
  induction ls with
  | nil => exact absurd rfl hne
  | cons l ls ih =>
    by_cases hls : ls = []
    · subst hls
      simp [joinWith, List.intercalate]
    · rw [joinWith_cons _ _ hls, List.append_assoc, ih hls, List.flatMap_cons]

theorem takeSuffixWhile_append_of_not {p : Char → Bool} {c : Char} (hc : p c = false)
    (w r : List Char) : takeSuffixWhile p (w ++ c :: r) = takeSuffixWhile p r := by
  have hrev : (w ++ c :: r).reverse = r.reverse ++ c :: w.reverse := by simp
  rw [takeSuffixWhile, takeSuffixWhile, hrev, List.takeWhile_append]
  split
  · next hall =>
    rw [List.takeWhile_cons, hc]
    simp [(List.takeWhile_prefix p).eq_of_length hall]
  · rfl

/-- The last piece of a text is what follows its last separator. -/
theorem getLast?_splitOn (sep : Char) (cs : List Char) :
    (splitOn sep cs).getLast? = some (takeSuffixWhile (· != sep) cs) := by
  induction hn : cs.length using Nat.strong_induction_on generalizing cs with
  | _ n ih =>
    by_cases hsep : sep ∈ cs
    · obtain ⟨l, r, rfl, hl⟩ := List.eq_append_cons_of_mem hsep
      rw [List.length_append, List.length_cons] at hn
      rw [splitOn_append hl, takeSuffixWhile_append_of_not (by simp),
        ← ih r.length (by omega) r rfl]
      exact List.getLast?_cons_of_ne_nil (splitWhere_ne_nil _ r)
    · have hall : cs.reverse.takeWhile (· != sep) = cs.reverse :=
        List.takeWhile_eq_self_iff.2 fun c hc => by
          have hne : c ≠ sep := fun h => hsep (h ▸ List.mem_reverse.1 hc)
          simpa using hne
      rw [splitOn_of_notMem hsep, takeSuffixWhile, hall, List.reverse_reverse]
      rfl

end Split

end ApiScaffold.Text
