import ApiScaffold.Proofs.TypeScript.MethodText
import ApiScaffold.Proofs.TypeScript.Outline

/-!
# Where the loops of the search for members stop

* `SplitsAt` says that an offset of a text lies outside all its brackets;
* `Balanced.methodTail_cases`, `Balanced.outlineFrom_cases`: the tail of a method and the outline of
  a member end at such an offset of a balanced text, or pass over it as a whole;
* `Stops` says that blanks and decorators do not reach beyond a text, and so end at such an offset,
  too (`Balanced.splitsAt_leading`, `Balanced.splitsAt_decoratorsLength`);
* `SplitsAt.next` puts such steps together;
* `decoratorsLength_word`, `behindWord_call`: what decorators take up, word by word.
-/

namespace ApiScaffold.TypeScript

/-! ### Offsets outside all brackets -/

/-- A balanced text falls into two balanced parts at the offset. -/
def SplitsAt (m : List Char) (n : ℕ) : Prop :=
  ∃ x y, m = x ++ y ∧ x.length = n ∧ Balanced x ∧ Balanced y

section Splitting

variable {o c : Char} {i m r : List Char} {n : ℕ}

theorem SplitsAt.zero (h : Balanced m) : SplitsAt m 0 := ⟨[], m, rfl, rfl, .nil, h⟩

theorem SplitsAt.length (h : Balanced m) : SplitsAt m m.length :=
  ⟨m, [], (List.append_nil m).symm, rfl, h, .nil⟩

theorem SplitsAt.le (h : SplitsAt m n) : n ≤ m.length := by
  obtain ⟨x, y, rfl, rfl, -, -⟩ := h
  simp

theorem SplitsAt.plain (hc : isBracket c = false) (h : SplitsAt m n) :
    SplitsAt (c :: m) (n + 1) := by
  obtain ⟨x, y, rfl, rfl, hx, hy⟩ := h
  exact ⟨c :: x, y, rfl, rfl, .plain hc hx, hy⟩

theorem SplitsAt.pair (ho : closerOf? o = some c) (hi : Balanced i) (h : SplitsAt r n) :
    SplitsAt (o :: (i ++ c :: r)) (n + (i.length + 1) + 1) := by
  obtain ⟨x, y, rfl, rfl, hx, hy⟩ := h
  refine ⟨o :: (i ++ c :: x), y, by simp, ?_, .pair ho hi hx, hy⟩
  simp only [List.length_cons, List.length_append]
  omega

theorem SplitsAt.append {x y : List Char} (hx : Balanced x) (h : SplitsAt y n) :
    SplitsAt (x ++ y) (x.length + n) := by
  obtain ⟨a, b, rfl, rfl, ha, hb⟩ := h
  exact ⟨x ++ a, b, (List.append_assoc ..).symm, List.length_append, hx.append ha, hb⟩

end Splitting

/-! ### Where the loops stop in a balanced text -/

section Loops

variable {m : List Char}

/-- A balanced text that begins with a bracket. -/
theorem Balanced.exists_front {o c : Char} {rest : List Char} (h : Balanced (o :: rest))
    (ho : closerOf? o = some c) :
    ∃ i r, rest = i ++ c :: r ∧ Balanced i ∧ Balanced r := by
  cases h with
  | plain hc _ => rw [isBracket_opener ho] at hc; cases hc
  | pair ho' hi hr =>
    obtain rfl := Option.some.inj (ho'.symm.trans ho)
    exact ⟨_, _, rfl, hi, hr⟩

/-- What follows the parameters of a method ends in a balanced text, outside its brackets, if a
character there ends it. -/
theorem Balanced.splitsAt_methodTail_of_not (h : Balanced m)
    (hm : ¬Outside (fun _ c => ¬EndsTail c) m) (room : ℕ) (tail : List Char) :
    SplitsAt m (methodTail 0 (m.length + room) (m ++ tail)) := by
  obtain ⟨u, c, v, rfl, hu, hfirst, hc⟩ := exists_first hm
  have hv := h.of_append hu
  rw [List.append_assoc, List.length_append, Nat.add_assoc, hu.methodTail_append hfirst,
    Nat.add_comm (methodTail _ _ _)]
  refine SplitsAt.append hu ?_
  rcases not_not.1 hc with rfl | rfl
  · have hbraces : closerOf? '\x7b' = some '\x7d' := by decide
    obtain ⟨i, r, rfl, hi, hr⟩ := hv.exists_front hbraces
    rw [length_pair, pair_append, Nat.add_assoc, methodTail_braces hi]
    simpa using (SplitsAt.zero hr).pair hbraces hi
  · rw [List.length_cons, Nat.add_right_comm, List.cons_append, methodTail, if_neg (by decide),
      if_pos rfl]
    exact (SplitsAt.zero (hv.of_append (m := [';']) (.plain (by decide) .nil))).plain (by decide)

/-- It ends there, or passes over the text. -/
theorem Balanced.methodTail_cases (h : Balanced m) (room : ℕ) (tail : List Char) :
    SplitsAt m (methodTail 0 (m.length + room) (m ++ tail)) ∨
      methodTail 0 (m.length + room) (m ++ tail) = methodTail 0 room tail + m.length := by
  by_cases hm : Outside (fun _ c => ¬EndsTail c) m
  · exact Or.inr (h.methodTail_append hm room tail)
  · exact Or.inl (h.splitsAt_methodTail_of_not hm room tail)

/-- The outline of a member ends in a balanced text, outside its brackets, or passes over it, or is
that of a method whose tail passes over the rest of it. -/
theorem Balanced.outlineFrom_cases (h : Balanced m) (taken : List Char) (room : ℕ)
    (tail : List Char) :
    (∃ n, SplitsAt m n ∧ (taken = [] → 0 < n) ∧
      (outlineFrom taken 0 (m.length + room) (m ++ tail)).length = taken.length + n) ∨
    outlineFrom taken 0 (m.length + room) (m ++ tail) =
      outlineFrom (m.reverse ++ taken) 0 room tail ∨
    (outlineFrom taken 0 (m.length + room) (m ++ tail)).length =
      taken.length + (methodTail 0 room tail + m.length) ∧ m ≠ [] := by
  by_cases hm : Outside (fun u c => ¬EndsOutline (taken.reverse ++ u) c) m
  · exact Or.inr (Or.inl (h.outlineFrom_append hm room tail))
  · obtain ⟨u, c, v, rfl, hu, hfirst, hc⟩ := exists_first hm
    have hv := h.of_append hu
    have hlen : (u.reverse ++ taken).length = taken.length + u.length := by
      rw [List.length_append, List.length_reverse, Nat.add_comm]
    rw [List.append_assoc, List.length_append, Nat.add_assoc, hu.outlineFrom_append hfirst]
    rw [show taken.reverse ++ u = (u.reverse ++ taken).reverse by simp] at hc
    rcases not_not.1 hc with ⟨rfl, hequals⟩ | rfl | ⟨rfl, hends⟩
    · -- the parenthesis of a method
      have hparens : closerOf? '(' = some ')' := by decide
      obtain ⟨i, r, rfl, hi, hr⟩ := hv.exists_front hparens
      rw [length_pair, pair_append, Nat.add_assoc,
        outlineFrom_params hi (by simpa [and_comm] using hequals), hlen]
      rcases hr.methodTail_cases room tail with hn | hn
      · exact Or.inl ⟨_, SplitsAt.append hu (hn.pair hparens hi), fun _ => by omega, by
          dsimp only
          omega⟩
      · rw [hn]
        exact Or.inr (Or.inr ⟨by dsimp only; omega, by simp⟩)
    · rw [List.length_cons, Nat.add_right_comm, List.cons_append, outlineFrom, if_neg (by decide),
        if_neg (by decide), if_pos rfl]
      have hrest : Balanced v := hv.of_append (m := [';']) (.plain (by decide) .nil)
      exact Or.inl ⟨_, SplitsAt.append hu ((SplitsAt.zero hrest).plain (by decide)),
        fun _ => Nat.succ_pos _, by rw [propertyOutline, hlen]; rfl⟩
    · rw [List.length_cons, Nat.add_right_comm, List.cons_append, outlineFrom, if_neg (by decide),
        if_neg (by decide), if_neg (by decide), if_pos ⟨rfl, hends⟩]
      refine Or.inl ⟨_, SplitsAt.append hu (SplitsAt.zero hv), fun htaken => ?_, by
        rw [propertyOutline, hlen]; rfl⟩
      -- a line that is still empty does not end a member
      refine Nat.pos_of_ne_zero fun hnil => ?_
      obtain rfl := List.eq_nil_of_length_eq_zero hnil
      subst htaken
      exact absurd hends (by decide)

/-- A member ends outside all brackets. -/
theorem Balanced.splitsAt_outlineFrom (h : Balanced m) (taken tail : List Char) :
    ∃ n, SplitsAt m n ∧ (m ≠ [] → taken = [] → 0 < n) ∧
      (outlineFrom taken 0 m.length (m ++ tail)).length = taken.length + n := by
  rcases h.outlineFrom_cases taken 0 tail with ⟨n, hn, hpos, hlen⟩ | ho | ⟨hlen, hne⟩
  · exact ⟨n, hn, fun _ => hpos, hlen⟩
  · refine ⟨m.length, SplitsAt.length h, fun hne _ => List.length_pos_iff.2 hne, ?_⟩
    rw [Nat.add_zero] at ho
    rw [ho, outlineFrom, propertyOutline, List.length_append, List.length_reverse, Nat.add_comm]
  · rw [Nat.add_zero, methodTail, Nat.zero_add] at hlen
    exact ⟨m.length, SplitsAt.length h, fun _ _ => List.length_pos_iff.2 hne, hlen⟩

/-- Nothing of the class is left behind a text, or what follows the text begins with a character
that neither blanks nor decorators take in. -/
def Stops (room : ℕ) (tail : List Char) : Prop :=
  room = 0 ∨ ∀ c, tail.head? = some c →
    Text.isBlank c = false ∧ isDecoratorChar c = false ∧ c ≠ '(' ∧ c ≠ '@'

theorem Stops.zero (tail : List Char) : Stops 0 tail := Or.inl rfl

theorem leading_eq_of_stop {p : Char → Bool} {room : ℕ} {tail : List Char}
    (h : room = 0 ∨ tail.head?.any p = false) (m : List Char) :
    leading p (m.length + room) (m ++ tail) = (m.takeWhile p).length := by
  have hrest : (tail.take room).takeWhile p = [] := by
    rcases h with rfl | h
    · rfl
    · cases tail with
      | nil => simp
      | cons c cs =>
        rw [List.head?_cons, Option.any_some] at h
        cases room <;> simp [h]
  rw [leading, List.take_length_add_append, List.takeWhile_append, hrest]
  split_ifs with hall
  · rw [List.append_nil, hall]
  · rfl

/-- Leading characters that are no brackets end outside all brackets. -/
theorem Balanced.splitsAt_leading (h : Balanced m) {p : Char → Bool}
    (hp : ∀ c, p c = true → isBracket c = false) {room : ℕ} {tail : List Char}
    (hstop : room = 0 ∨ tail.head?.any p = false) :
    SplitsAt m (leading p (m.length + room) (m ++ tail)) ∧
      ∀ c ∈ m.take (leading p (m.length + room) (m ++ tail)), p c = true := by
  have hsplit : m.takeWhile p ++ m.dropWhile p = m := List.takeWhile_append_dropWhile
  have hall : ∀ c ∈ m.takeWhile p, p c = true := fun c hc => List.mem_takeWhile_imp hc
  have hplain : Balanced (m.takeWhile p) := .of_plain fun c hc => hp c (hall c hc)
  have htake : m.take (m.takeWhile p).length = m.takeWhile p :=
    (List.prefix_iff_eq_take.1 (List.takeWhile_prefix p)).symm
  rw [leading_eq_of_stop hstop, htake]
  exact ⟨⟨m.takeWhile p, m.dropWhile p, hsplit.symm, rfl, hplain, (hsplit ▸ h).of_append hplain⟩,
    hall⟩

/-- A class of characters that holds none of the six brackets. -/
theorem isBracket_of_class {p : Char → Bool} {c : Char}
    (hp : ∀ d ∈ ['(', ')', '[', ']', '\x7b', '\x7d'], p d = false) (h : p c = true) :
    isBracket c = false := by
  by_contra hc
  rw [Bool.not_eq_false] at hc
  rw [hp c (isBracket_iff_mem.1 hc)] at h
  cases h

theorem isBracket_of_isBlank {c : Char} (h : Text.isBlank c = true) : isBracket c = false :=
  isBracket_of_class (List.all_iff_forall_prop.1 (by decide)) h

theorem isBracket_of_isDecoratorChar {c : Char} (h : isDecoratorChar c = true) :
    isBracket c = false :=
  isBracket_of_class (List.all_iff_forall_prop.1 (by decide)) h

/-- A loop that goes on at an offset outside all brackets. -/
theorem SplitsAt.next {n room : ℕ} {tail : List Char} (h : SplitsAt m n)
    {loop : ℕ → List Char → ℕ}
    (hloop : ∀ y, Balanced y → SplitsAt y (loop (y.length + room) (y ++ tail))) :
    SplitsAt m (n + loop (m.length + room - n) ((m ++ tail).drop n)) := by
  obtain ⟨x, y, rfl, rfl, hx, hy⟩ := h
  rw [List.append_assoc, List.drop_left, List.length_append, Nat.add_assoc,
    Nat.add_sub_cancel_left]
  exact SplitsAt.append hx (hloop y hy)

theorem Stops.any_isBlank {room : ℕ} {tail : List Char} (h : Stops room tail) :
    room = 0 ∨ tail.head?.any Text.isBlank = false :=
  h.imp_right fun h => by
    cases tail with
    | nil => rfl
    | cons c cs => exact (h c rfl).1

theorem Stops.any_isDecoratorChar {room : ℕ} {tail : List Char} (h : Stops room tail) :
    room = 0 ∨ tail.head?.any isDecoratorChar = false :=
  h.imp_right fun h => by
    cases tail with
    | nil => rfl
    | cons c cs => exact (h c rfl).2.1

theorem Stops.decoratorsLength_eq {room : ℕ} {tail : List Char} (h : Stops room tail) (steps : ℕ) :
    decoratorsLength steps room tail = 0 := by
  rcases h with rfl | h
  · cases steps <;> rfl
  · cases tail with
    | nil => cases steps <;> cases room <;> rfl
    | cons c cs => exact decoratorsLength_of_ne (h c rfl).2.2.2 steps room cs

/-! ### Decorators, word by word -/

/-- The blanks behind the arguments of a decorator, and the decorators behind them. -/
def behindCall (steps room : ℕ) (cs : List Char) : ℕ :=
  let blanks := leading Text.isBlank room cs
  blanks + decoratorsLength steps (room - blanks) (cs.drop blanks)

/-- What decorators take up behind the word of the first one: its arguments, if it is called, and
the decorators that follow. -/
def behindWord (steps room : ℕ) (cs : List Char) : ℕ :=
  if 0 < room ∧ cs.head? = some '(' then
    match closingOffset? cs with
    | none => room
    | some n =>
      if room ≤ n + 1 then room else n + 1 + behindCall steps (room - (n + 1)) (cs.drop (n + 1))
  else decoratorsLength steps room cs

section Decorators

variable {steps room : ℕ} {tail : List Char}

/-- Decorators are the word of the first one, the blanks behind it, and what comes behind these. -/
theorem decoratorsLength_word {word gap : ℕ} {cs : List Char}
    (hword : leading isDecoratorChar room cs = word)
    (hgap : leading Text.isBlank (room - word) (cs.drop word) = gap) :
    decoratorsLength (steps + 1) (room + 1) ('@' :: cs) =
      1 + (word + gap) + behindWord steps (room - (word + gap)) (cs.drop (word + gap)) := by
  have hwordle := hword ▸ leading_le isDecoratorChar room cs
  have hgaple := hgap ▸ leading_le Text.isBlank (room - word) (cs.drop word)
  rw [decoratorsLength, behindWord]
  dsimp only
  rw [hword, hgap]
  simp only [Nat.sub_pos_iff_lt]
  split_ifs with hround
  · cases closingOffset? (cs.drop (word + gap)) with
    | none =>
      dsimp only
      omega
    | some n =>
      dsimp only
      by_cases hroom : room ≤ word + gap + n + 1
      · rw [if_pos hroom, if_pos (by omega)]
        omega
      · have hused : room - (word + gap) - (n + 1) = room - (word + gap + n + 1) := by omega
        rw [if_neg hroom, if_neg (by omega), behindCall, hused, List.drop_drop, ← Nat.add_assoc _ n]
        generalize leading Text.isBlank _ (cs.drop (word + gap + n + 1)) = blanks
        rw [List.drop_drop, ← Nat.sub_add_eq]
        omega
  · rfl

/-- The arguments of a decorator are passed over as a whole. -/
theorem behindWord_call {args : List Char} (hargs : Balanced args) (r : List Char) :
    behindWord steps (args.length + 2 + room) ('(' :: (args ++ ')' :: r)) =
      args.length + 2 + behindCall steps room r := by
  rw [behindWord, if_pos ⟨by omega, rfl⟩, hargs.closingOffset?_eq rfl]
  dsimp only
  split_ifs with hroom
  · obtain rfl : room = 0 := by omega
    cases steps <;> simp [behindCall, leading, decoratorsLength]
  · rw [Nat.add_assoc args.length, Nat.add_sub_cancel_left,
      ← Nat.add_zero (args.length + (1 + 1)), drop_pair, List.drop_zero]

theorem behindWord_pos (hroom : 0 < room) (cs : List Char) :
    0 < behindWord steps room ('(' :: cs) := by
  rw [behindWord, if_pos ⟨hroom, rfl⟩]
  split
  · exact hroom
  · split_ifs
    · exact hroom
    · omega

/-- What stands behind the word of a decorator ends outside all brackets, if decorators do. -/
theorem Balanced.splitsAt_behindWord (h : Balanced m) (hstop : Stops room tail)
    (hdecorators : ∀ y, Balanced y →
      SplitsAt y (decoratorsLength steps (y.length + room) (y ++ tail))) :
    SplitsAt m (behindWord steps (m.length + room) (m ++ tail)) := by
  by_cases hround : m.head? = some '('
  · obtain ⟨m, rfl⟩ := List.head?_eq_some_iff.1 hround
    obtain ⟨i, r, rfl, hi, hr⟩ := h.exists_front (c := ')') rfl
    have hblanks := (hr.splitsAt_leading (fun _ => isBracket_of_isBlank) hstop.any_isBlank).1
    have hbehind : SplitsAt r (behindCall steps (r.length + room) (r ++ tail)) :=
      hblanks.next hdecorators
    rw [length_pair, pair_append, Nat.add_assoc, behindWord_call hi, Nat.add_comm]
    exact hbehind.pair rfl hi
  · have hopen : ¬(0 < m.length + room ∧ (m ++ tail).head? = some '(') := by
      rintro ⟨hroom, hparen⟩
      cases m with
      | cons c m => exact hround hparen
      | nil =>
        rcases hstop with rfl | hstop
        · exact absurd hroom (Nat.lt_irrefl _)
        · exact (hstop _ hparen).2.2.1 rfl
    rw [behindWord, if_neg hopen]
    exact hdecorators m h

/-- Decorators end outside all brackets. -/
theorem Balanced.splitsAt_decoratorsLength (h : Balanced m) (steps : ℕ) {room : ℕ}
    {tail : List Char} (hstop : Stops room tail) :
    SplitsAt m (decoratorsLength steps (m.length + room) (m ++ tail)) := by
  induction steps generalizing m with
  | zero => exact SplitsAt.zero h
  | succ steps ih =>
    cases h with
    | nil =>
      rw [List.length_nil, Nat.zero_add, List.nil_append, hstop.decoratorsLength_eq]
      exact SplitsAt.zero .nil
    | @pair o c i r ho hi hr =>
      have hat : o ≠ '@' := fun heq => by rw [heq] at ho; cases ho
      rw [pair_append o c i r tail, decoratorsLength_of_ne hat]
      exact SplitsAt.zero (.pair ho hi hr)
    | @plain a m hplain hm =>
      by_cases ha : a = '@'
      · subst ha
        have hword :=
          (hm.splitsAt_leading (fun _ => isBracket_of_isDecoratorChar) hstop.any_isDecoratorChar).1
        have hhead := hword.next fun y hy =>
          (hy.splitsAt_leading (fun _ => isBracket_of_isBlank) hstop.any_isBlank).1
        have hall := hhead.next fun y hy => hy.splitsAt_behindWord hstop fun _ => ih
        rw [List.length_cons, Nat.add_right_comm, List.cons_append, decoratorsLength_word rfl rfl,
          Nat.add_assoc 1, Nat.add_comm 1]
        exact hall.plain hplain
      · rw [List.cons_append, decoratorsLength_of_ne ha]
        exact SplitsAt.zero (.plain hplain hm)

end Decorators

end Loops

end ApiScaffold.TypeScript
