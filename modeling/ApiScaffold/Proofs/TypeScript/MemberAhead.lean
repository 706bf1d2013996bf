import ApiScaffold.Proofs.TypeScript.Tiling

/-!
# How far a member looks ahead

The search for members reads on behind a member only to see that it ends. So what stands there may
change, as long as it begins alike, or with a line break where something else than the end of the
class stood.

* `Follows` is this relation between two texts behind a member;
* `Balanced.methodTail_ahead`, `Balanced.outlineFrom_ahead`, `Balanced.decoratorsLength_ahead`: a
  loop of the search that ends with a text does so in front of any text that follows;
* `Parts.ahead`: so the parts of a member stay what they are.
-/

namespace ApiScaffold.TypeScript

/-- A text behind a member may take the place of another if it begins alike, or with a line break
and the other with something. -/
def Follows (n n' : List Char) : Prop := n'.head? = n.head? ∨ n ≠ [] ∧ n'.head? = some '\n'

section Ahead

variable {m n n' x y y' taken tail : List Char} {p : Char → Bool} {steps : ℕ}

theorem Follows.refl (n : List Char) : Follows n n := Or.inl rfl

theorem Follows.cons (c : Char) (n n' : List Char) : Follows (c :: n) (c :: n') := Or.inl rfl

theorem Follows.nil_iff (h : Follows n n') : n' = [] ↔ n = [] := by
  rcases h with h | ⟨hne, h⟩
  · rw [← List.head?_eq_none_iff, h, List.head?_eq_none_iff]
  · obtain ⟨r, rfl⟩ := List.head?_eq_some_iff.1 h
    simp [hne]

theorem Follows.lineBreak (h : Follows ('\n' :: n) n') : n'.head? = some '\n' := by
  rcases h with h | h
  · exact h
  · exact h.2

/-- In front of such texts no blanks or semicolons are read differently. -/
theorem Follows.append_left (h : Follows n n') (x : List Char) : Follows (x ++ n) (x ++ n') := by
  cases x with
  | nil => exact h
  | cons c x => exact Or.inl rfl

theorem methodTail_pos {room : ℕ} {cs : List Char} (hroom : 0 < room) (hne : cs ≠ []) :
    0 < methodTail 0 room cs := by
  obtain ⟨room, rfl⟩ := Nat.exists_eq_add_one_of_ne_zero hroom.ne'
  obtain ⟨c, cs, rfl⟩ := List.exists_cons_of_ne_nil hne
  unfold methodTail
  split_ifs
  · split <;> omega
  · omega
  · split <;> omega
  · omega

/-- What follows the parameters of a method sees of the text behind it only whether there is any. -/
theorem Balanced.methodTail_ahead (hx : Balanced x) (hn : n' = [] ↔ n = [])
    (h : methodTail 0 (x.length + n.length) (x ++ (n ++ tail)) = x.length) :
    methodTail 0 (x.length + n'.length) (x ++ (n' ++ tail)) = x.length := by
  induction hx with
  | nil =>
    have hnil : n = [] := by
      by_contra hne
      have hpos : 0 < methodTail 0 n.length (n ++ tail) :=
        methodTail_pos (List.length_pos_iff.2 hne) (by simp [hne])
      simp at h
      omega
    rw [hn.2 hnil]
    rfl
  | @plain c x hc _ ih =>
    have hbracket : ∀ d, isBracket d = true → c ≠ d := fun d hd heq => by
      rw [heq, hd] at hc
      cases hc
    have hround : ¬(c = '(' ∨ c = '[') := not_or.2 ⟨hbracket _ rfl, hbracket _ rfl⟩
    rw [List.length_cons, Nat.add_right_comm, List.cons_append, methodTail,
      if_neg (hbracket _ rfl), if_neg hround] at h ⊢
    split_ifs at h ⊢
    · exact h
    · rw [ih (by omega)]
  | @pair o c i r ho hi _ _ ih =>
    rw [length_pair, pair_append, Nat.add_assoc] at h ⊢
    by_cases hbrace : o = '\x7b'
    · subst hbrace
      obtain rfl : '\x7d' = c := Option.some.inj ho
      rw [methodTail_braces hi] at h ⊢
      exact h
    · rw [methodTail_pair ho hbrace hi] at h ⊢
      rw [ih (by omega)]
      omega

theorem le_length_outlineFrom (taken : List Char) (skip room : ℕ) (cs : List Char) :
    taken.length ≤ (outlineFrom taken skip room cs).length := by
  fun_induction outlineFrom taken skip room cs <;>
    simp_all only [propertyOutline, List.length_cons] <;> omega

/-- An outline that ends where the text behind begins does so at the end of the class, or at the end
of a line. -/
theorem Balanced.outlineFrom_stays (hn : Balanced n)
    (h : (outlineFrom taken 0 n.length (n ++ tail)).length = taken.length) :
    n = [] ∨ ∃ r, n = '\n' :: r ∧ endsProperty taken.reverse = true := by
  cases hn with
  | nil => exact Or.inl rfl
  | @plain c r hc _ =>
    by_cases hends : EndsOutline taken.reverse c
    · rcases hends with ⟨rfl, -⟩ | rfl | ⟨rfl, hends⟩
      · exact absurd hc (by decide)
      · rw [List.length_cons, List.cons_append, outlineFrom, if_neg (by decide),
          if_neg (by decide), if_pos rfl, propertyOutline] at h
        exact absurd h (Nat.succ_ne_self _)
      · exact Or.inr ⟨r, rfl, hends⟩
    · rw [List.length_cons, List.cons_append, outlineFrom_plain hc hends] at h
      have := le_length_outlineFrom (c :: taken) 0 r.length (r ++ tail)
      rw [List.length_cons] at this
      omega
  | @pair o c i r ho hi _ =>
    exfalso
    rw [length_pair, pair_append] at h
    by_cases hround : o = '(' → '=' ∈ taken
    · rw [outlineFrom_pair ho hi hround] at h
      have := le_length_outlineFrom ((o :: (i ++ [c])).reverse ++ taken) 0 r.length (r ++ tail)
      rw [List.length_append, List.length_reverse, List.length_cons] at this
      omega
    · obtain ⟨rfl, hequals⟩ := Classical.not_imp.1 hround
      obtain rfl : ')' = c := Option.some.inj ho
      rw [outlineFrom_params hi hequals] at h
      dsimp only at h
      omega

/-- **The outline of a member sees of the text behind it only how it begins.** -/
theorem Balanced.outlineFrom_ahead (hx : Balanced x) (hn : Balanced n) (hfollows : Follows n n')
    (h : (outlineFrom taken 0 (x.length + n.length) (x ++ (n ++ tail))).length =
      taken.length + x.length) :
    outlineFrom taken 0 (x.length + n'.length) (x ++ (n' ++ tail)) =
      outlineFrom taken 0 (x.length + n.length) (x ++ (n ++ tail)) := by
  induction hx generalizing taken with
  | nil =>
    simp only [List.length_nil, Nat.zero_add, Nat.add_zero, List.nil_append] at h ⊢
    rcases hn.outlineFrom_stays h with rfl | ⟨r, rfl, hends⟩
    · rw [hfollows.nil_iff.2 rfl]
    · obtain ⟨r', rfl⟩ := List.head?_eq_some_iff.1 hfollows.lineBreak
      have hstop : ∀ v, outlineFrom taken 0 ('\n' :: v).length ('\n' :: v ++ tail) =
          propertyOutline (Text.trimRight taken.reverse) taken.length := by
        intro v
        rw [List.length_cons, List.cons_append, outlineFrom, if_neg (by decide),
          if_neg (by decide), if_neg (by decide), if_pos ⟨rfl, hends⟩]
      rw [hstop, hstop]
  | @plain c x hc _ ih =>
    rw [List.length_cons] at h
    rw [List.length_cons, Nat.add_right_comm, Nat.add_right_comm _ 1, List.cons_append,
      List.cons_append] at *
    by_cases hends : EndsOutline taken.reverse c
    · rcases hends with ⟨rfl, -⟩ | rfl | ⟨rfl, hends⟩
      · exact absurd hc (by decide)
      · have hstop : ∀ room r, outlineFrom taken 0 (room + 1) (';' :: r) =
            propertyOutline taken.reverse (taken.length + 1) := by
          intro room r
          rw [outlineFrom, if_neg (by decide), if_neg (by decide), if_pos rfl]
        rw [hstop, hstop]
      · have hstop : ∀ room r, outlineFrom taken 0 (room + 1) ('\n' :: r) =
            propertyOutline (Text.trimRight taken.reverse) taken.length := by
          intro room r
          rw [outlineFrom, if_neg (by decide), if_neg (by decide), if_neg (by decide),
            if_pos ⟨rfl, hends⟩]
        rw [hstop, hstop]
    · rw [outlineFrom_plain hc hends] at h
      rw [outlineFrom_plain hc hends, outlineFrom_plain hc hends]
      exact ih (by rw [h, List.length_cons]; omega)
  | @pair o c i r ho hi hr _ ih =>
    simp only [length_pair, pair_append, Nat.add_assoc _ r.length] at h ⊢
    by_cases hround : o = '(' → '=' ∈ taken
    · rw [outlineFrom_pair ho hi hround] at h
      rw [outlineFrom_pair ho hi hround, outlineFrom_pair ho hi hround]
      refine ih ?_
      rw [h, List.length_append, List.length_reverse, List.length_cons, List.length_append,
        List.length_singleton]
      omega
    · obtain ⟨rfl, hequals⟩ := Classical.not_imp.1 hround
      obtain rfl : ')' = c := Option.some.inj ho
      rw [outlineFrom_params hi hequals] at h
      dsimp only at h
      have hend : methodTail 0 (r.length + n.length) (r ++ (n ++ tail)) = r.length := by omega
      rw [outlineFrom_params hi hequals, outlineFrom_params hi hequals,
        hr.methodTail_ahead hfollows.nil_iff hend, hend]

theorem leading_inside (p : Char → Bool) (m y tail : List Char) :
    leading p (m.length + y.length) (m ++ (y ++ tail)) = ((m ++ y).takeWhile p).length := by
  have hstop := @leading_eq_of_stop p 0 tail (Or.inl rfl) (m ++ y)
  rwa [Nat.add_zero, List.length_append, List.append_assoc] at hstop

/-- Leading characters that end in a text see of what is behind it only how it begins. -/
theorem Balanced.exists_leading (hm : Balanced m) (hp : ∀ c, p c = true → isBracket c = false)
    (h : leading p (m.length + y.length) (m ++ (y ++ tail)) ≤ m.length) :
    ∃ w v, m = w ++ v ∧ Balanced v ∧ ∀ z : List Char, z.head? = y.head? →
      leading p (m.length + z.length) (m ++ (z ++ tail)) = w.length := by
  have hplain : Balanced (m.takeWhile p) :=
    .of_plain fun c hc => hp c (List.mem_takeWhile_imp hc)
  have hsplit : m.takeWhile p ++ m.dropWhile p = m := List.takeWhile_append_dropWhile
  refine ⟨_, _, hsplit.symm, (hsplit ▸ hm).of_append hplain, fun z hz => ?_⟩
  rw [leading_inside, List.takeWhile_append] at h
  rw [leading_inside, List.takeWhile_append]
  split_ifs at h ⊢ with hall
  · have hnil : y.takeWhile p = [] := by
      rw [List.length_append] at h
      exact List.eq_nil_of_length_eq_zero (by omega)
    have hnil' : z.takeWhile p = [] := by
      cases z with
      | nil => rfl
      | cons c z =>
        obtain ⟨r, rfl⟩ := List.head?_eq_some_iff.1 hz.symm
        rw [List.takeWhile_cons] at hnil ⊢
        split_ifs at hnil ⊢
        rfl
    rw [hnil', List.append_nil, hall]
  · rfl

/-- So do the name of a decorator and the blanks behind it. -/
theorem Balanced.exists_word (hm : Balanced m) {word gap : ℕ}
    (hword : leading isDecoratorChar (m.length + y.length) (m ++ (y ++ tail)) = word)
    (hgap : leading Text.isBlank (m.length + y.length - word) ((m ++ (y ++ tail)).drop word) = gap)
    (h : word + gap ≤ m.length) :
    ∃ w u, m = w ++ u ∧ Balanced u ∧ w.length = word + gap ∧ ∀ z : List Char, z.head? = y.head? →
      leading isDecoratorChar (m.length + z.length) (m ++ (z ++ tail)) = word ∧
      leading Text.isBlank (m.length + z.length - word) ((m ++ (z ++ tail)).drop word) = gap := by
  obtain ⟨w, v, rfl, hv, hw⟩ := hm.exists_leading (fun _ => isBracket_of_isDecoratorChar)
    (hword.trans_le (by omega))
  obtain rfl : word = w.length := hword.symm.trans (hw y rfl)
  have hroom : ∀ z : List Char, (w ++ v).length + z.length - w.length = v.length + z.length :=
    fun z => by
      rw [List.length_append]
      omega
  have hdrop : ∀ z : List Char, (w ++ v ++ (z ++ tail)).drop w.length = v ++ (z ++ tail) :=
    fun z => by rw [List.append_assoc, List.drop_left]
  rw [hroom, hdrop] at hgap
  rw [List.length_append] at h
  obtain ⟨g, u, rfl, hu, hg⟩ := hv.exists_leading (fun _ => isBracket_of_isBlank)
    (hgap.trans_le (by omega))
  obtain rfl : gap = g.length := hgap.symm.trans (hg y rfl)
  refine ⟨w ++ g, u, (List.append_assoc ..).symm, hu, List.length_append, fun z hz => ⟨hw z hz, ?_⟩⟩
  rw [hroom, hdrop, hg z hz]

theorem Balanced.behindCall_ahead (hm : Balanced m) (hhead : y'.head? = y.head?)
    (ih : ∀ {m : List Char}, Balanced m →
      decoratorsLength steps (m.length + y.length) (m ++ (y ++ tail)) = m.length →
        decoratorsLength steps (m.length + y'.length) (m ++ (y' ++ tail)) = m.length)
    (h : behindCall steps (m.length + y.length) (m ++ (y ++ tail)) = m.length) :
    behindCall steps (m.length + y'.length) (m ++ (y' ++ tail)) = m.length := by
  unfold behindCall at h ⊢
  dsimp only at h ⊢
  have hle : leading Text.isBlank (m.length + y.length) (m ++ (y ++ tail)) ≤ m.length := by omega
  obtain ⟨g, v, rfl, hv, hg⟩ := hm.exists_leading (fun _ => isBracket_of_isBlank) hle
  have hroom : ∀ z : List Char, (g ++ v).length + z.length - g.length = v.length + z.length :=
    fun z => by
      rw [List.length_append]
      omega
  have hdrop : ∀ z : List Char, (g ++ v ++ (z ++ tail)).drop g.length = v ++ (z ++ tail) :=
    fun z => by rw [List.append_assoc, List.drop_left]
  rw [hg y rfl, hroom, hdrop, List.length_append] at h
  rw [hg y' hhead, hroom, hdrop, ih hv (by omega), List.length_append]

/-- So does what stands behind the word of a decorator. -/
theorem Balanced.behindWord_ahead (hm : Balanced m) (hhead : y'.head? = y.head?)
    (ih : ∀ {m : List Char}, Balanced m →
      decoratorsLength steps (m.length + y.length) (m ++ (y ++ tail)) = m.length →
        decoratorsLength steps (m.length + y'.length) (m ++ (y' ++ tail)) = m.length)
    (h : behindWord steps (m.length + y.length) (m ++ (y ++ tail)) = m.length) :
    behindWord steps (m.length + y'.length) (m ++ (y' ++ tail)) = m.length := by
  by_cases hround : m.head? = some '('
  · obtain ⟨m, rfl⟩ := List.head?_eq_some_iff.1 hround
    obtain ⟨i, r, rfl, hi, hr⟩ := hm.exists_front (c := ')') rfl
    rw [length_pair, pair_append, Nat.add_assoc, behindWord_call hi] at h ⊢
    rw [hr.behindCall_ahead hhead ih (Nat.add_left_cancel h)]
  · have hopen : ∀ z : List Char, z.head? = y.head? →
        ¬(0 < m.length + z.length ∧ (m ++ (z ++ tail)).head? = some '(') := by
      rintro z hz ⟨hroom, hparen⟩
      cases m with
      | cons c m => exact hround hparen
      | nil =>
        rw [List.length_nil, Nat.zero_add] at hroom
        obtain ⟨c, z, rfl⟩ := List.exists_cons_of_length_pos hroom
        obtain rfl : c = '(' := Option.some.inj hparen
        obtain ⟨v, rfl⟩ := List.head?_eq_some_iff.1 hz.symm
        -- The arguments would stand behind the decorators.
        have hpos : 0 < behindWord steps (v.length + 1) ('(' :: (v ++ tail)) :=
          behindWord_pos v.length.succ_pos _
        rw [List.length_nil, Nat.zero_add, List.length_cons] at h
        exact hpos.ne' h
    rw [behindWord, if_neg (hopen y rfl)] at h
    rw [behindWord, if_neg (hopen y' hhead)]
    exact ih hm h

/-- Decorators see of the text behind them only how it begins. -/
theorem Balanced.decoratorsLength_ahead (hm : Balanced m) (hhead : y'.head? = y.head?)
    (h : decoratorsLength steps (m.length + y.length) (m ++ (y ++ tail)) = m.length) :
    decoratorsLength steps (m.length + y'.length) (m ++ (y' ++ tail)) = m.length := by
  induction steps generalizing m with
  | zero => exact h
  | succ steps ih =>
    cases hm with
    | nil =>
      cases y with
      | nil =>
        rw [List.head?_eq_none_iff.1 hhead]
        exact h
      | cons c y =>
        obtain ⟨r, rfl⟩ := List.head?_eq_some_iff.1 hhead
        have hat : c ≠ '@' := by
          rintro rfl
          rw [List.nil_append, List.length_nil, Nat.zero_add, List.length_cons, List.cons_append,
            decoratorsLength_word rfl rfl] at h
          omega
        exact decoratorsLength_of_ne hat _ _ _
    | @pair o c i r ho hi hr =>
      have hat : o ≠ '@' := fun heq => by rw [heq] at ho; cases ho
      rw [pair_append, decoratorsLength_of_ne hat, length_pair] at h
      omega
    | @plain a m hplain hm =>
      have hat : a = '@' := by
        by_contra hat
        rw [List.cons_append, decoratorsLength_of_ne hat] at h
        exact absurd h.symm (Nat.succ_ne_zero _)
      subst hat
      rw [List.length_cons, Nat.add_right_comm, List.cons_append] at h ⊢
      generalize hword : leading isDecoratorChar (m.length + y.length) (m ++ (y ++ tail)) = word
      generalize hgap : leading Text.isBlank (m.length + y.length - word)
        ((m ++ (y ++ tail)).drop word) = gap
      rw [decoratorsLength_word hword hgap] at h
      obtain ⟨w, u, rfl, hu, hw, hsame⟩ := hm.exists_word hword hgap (by omega)
      obtain ⟨hword', hgap'⟩ := hsame y' hhead
      have hdrop : ∀ z : List Char, (w ++ u ++ (z ++ tail)).drop w.length = u ++ (z ++ tail) :=
        fun z => by rw [List.append_assoc, List.drop_left]
      have hroom : ∀ z : List Char, (w ++ u).length + z.length - w.length = u.length + z.length :=
        fun z => by
          rw [List.length_append]
          omega
      rw [← hw, hdrop, hroom, List.length_append] at h
      rw [decoratorsLength_word hword' hgap', ← hw, hdrop, hroom,
        hu.behindWord_ahead hhead ih (by omega), List.length_append]
      omega

/-- **The parts of a member stay what they are** when the text behind them is replaced so. -/
theorem Parts.ahead {dec body rest rest' : List Char}
    (h : Parts steps tail dec body rest) (hrest' : Balanced rest')
    (hfollows : Follows rest rest') :
    Parts steps tail dec body rest' ∧
      outlineFrom [] 0 (body ++ rest').length (body ++ rest' ++ tail) =
        outlineFrom [] 0 (body ++ rest).length (body ++ rest ++ tail) := by
  have houtline : outlineFrom [] 0 (body ++ rest').length (body ++ rest' ++ tail) =
      outlineFrom [] 0 (body ++ rest).length (body ++ rest ++ tail) := by
    have hlen := h.length_outline
    rw [List.length_append, List.append_assoc] at hlen
    rw [List.length_append, List.length_append, List.append_assoc, List.append_assoc]
    exact h.balanced_body.outlineFrom_ahead h.balanced_rest hfollows
      (by rw [hlen, List.length_nil, Nat.zero_add])
  have hhead : (body ++ rest').head? = (body ++ rest).head? := by
    cases body with
    | cons c body => rfl
    | nil =>
      have hnil : rest = [] := by
        by_contra hne
        exact h.body_ne hne rfl
      rw [hfollows.nil_iff.2 hnil, hnil]
  have hdecorators := h.decoratorsLength_eq
  rw [List.length_append, List.append_assoc] at hdecorators
  refine ⟨⟨h.balanced_dec, h.balanced_body, hrest', fun hne => h.body_ne ?_, ?_, ?_⟩, houtline⟩
  · exact fun hnil => hne (hfollows.nil_iff.2 hnil)
  · rw [List.length_append, List.append_assoc]
    exact h.balanced_dec.decoratorsLength_ahead hhead hdecorators
  · rw [houtline, h.length_outline]

end Ahead

end ApiScaffold.TypeScript
