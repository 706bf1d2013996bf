import ApiScaffold.Proofs.TypeScript.Tiling

/-!
# Where one member ends and another begins

The search for members does not read what they say, so a member may swallow the next one: a method
without a body goes on, over line breaks, up to the body of the method below it.

* `Member.Straddles` says that a member reaches over an offset;
* `Breaks` are texts behind which a member begins, whatever they hold: blanks, or a semicolon or a
  pair of braces and a line break outside all brackets;
* `Breaks.memberAt`: no member reaches over the end of such a text, and what is left of the text
  behind a member is again one;
* `Breaks.not_straddles`: so this holds of all members that are found.
-/

namespace ApiScaffold.TypeScript

/-- A member reaches over an offset: it ends behind it, and more than blanks of it stand in front of
it. -/
def Member.Straddles (masked : List Char) (m : Member) (n : ℕ) : Prop :=
  m.start < n ∧ n < m.stop ∧ ∃ c ∈ masked.extract m.start n, Text.isBlank c = false

instance instDecidableStraddles (masked : List Char) (m : Member) (n : ℕ) :
    Decidable (m.Straddles masked n) :=
  inferInstanceAs (Decidable (_ ∧ _ ∧ _))

/-- A text at which every member ends that reaches it from outside: a semicolon, or a pair of braces
and a line break, with blanks behind. -/
inductive EndText : List Char → Prop
  | semicolon {gap : List Char} (hgap : ∀ c ∈ gap, Text.isBlank c = true) : EndText (';' :: gap)
  | braces {i gap : List Char} (hi : Balanced i) (hgap : ∀ c ∈ gap, Text.isBlank c = true)
      (hline : '\n' ∈ gap) : EndText ('\x7b' :: (i ++ '\x7d' :: gap))

/-- A text in a class behind which a member begins. -/
inductive Breaks : List Char → Prop
  | blank {gap : List Char} (hgap : ∀ c ∈ gap, Text.isBlank c = true) : Breaks gap
  | behind {w x : List Char} (hw : Balanced w) (hx : EndText x) : Breaks (w ++ x)

section EndTexts

variable {x : List Char}

theorem EndText.stops (h : EndText x) (room : ℕ) (r : List Char) : Stops room (x ++ r) := by
  refine Or.inr fun c hc => ?_
  cases h with
  | semicolon =>
    obtain rfl : ';' = c := Option.some.inj hc
    decide
  | braces =>
    obtain rfl : '\x7b' = c := Option.some.inj hc
    decide

/-- What follows the parameters of a method ends there, and only blanks are left. -/
theorem EndText.methodTail (h : EndText x) (room : ℕ) (r : List Char) :
    methodTail 0 (x.length + room) (x ++ r) ≤ x.length ∧
      ∀ c ∈ x.drop (methodTail 0 (x.length + room) (x ++ r)), Text.isBlank c = true := by
  cases h with
  | @semicolon gap hgap =>
    have hone : TypeScript.methodTail 0 ((';' :: gap).length + room) (';' :: gap ++ r) = 1 := by
      rw [List.length_cons, Nat.add_right_comm, List.cons_append, TypeScript.methodTail,
        if_neg (by decide), if_pos rfl]
    rw [hone]
    exact ⟨by simp, by simpa using hgap⟩
  | @braces i gap hi hgap _ =>
    rw [length_pair, pair_append, Nat.add_assoc, methodTail_braces hi]
    refine ⟨by omega, fun c hc => hgap c ?_⟩
    simpa using hc

/-- The outline of a member ends there, and only blanks are left. -/
theorem EndText.outlineFrom (h : EndText x) (taken : List Char) (room : ℕ) (r : List Char) :
    ∃ n ≤ x.length, (outlineFrom taken 0 (x.length + room) (x ++ r)).length = taken.length + n ∧
      ∀ c ∈ x.drop n, Text.isBlank c = true := by
  cases h with
  | @semicolon gap hgap =>
    refine ⟨1, by simp, ?_, by simpa using hgap⟩
    rw [List.length_cons, Nat.add_right_comm, List.cons_append, TypeScript.outlineFrom,
      if_neg (by decide), if_neg (by decide), if_pos rfl]
    rfl
  | @braces i gap hi hgap hline =>
    -- The member goes on behind the braces, but not over the first line break.
    obtain ⟨g, g', rfl, hg⟩ := List.eq_append_cons_of_mem hline
    have hblank : ∀ c ∈ g, Text.isBlank c = true := fun c hc => hgap c (by simp [hc])
    have hplain : Balanced g := .of_plain fun c hc => isBracket_of_isBlank (hblank c hc)
    have hpass : ∀ t : List Char, Outside (fun u c => ¬EndsOutline (t.reverse ++ u) c) g := by
      rintro t u c v rfl -
      have hc := hblank c (by simp)
      rintro (⟨rfl, -⟩ | rfl | ⟨rfl, -⟩)
      · exact absurd hc (by decide)
      · exact absurd hc (by decide)
      · exact hg (by simp)
    have hends : endsProperty
        (g.reverse ++ (('\x7b' :: (i ++ ['\x7d'])).reverse ++ taken)).reverse = true := by
      rw [show (g.reverse ++ (('\x7b' :: (i ++ ['\x7d'])).reverse ++ taken)).reverse =
        (taken.reverse ++ '\x7b' :: i) ++ '\x7d' :: g by simp,
        endsProperty_append _ (by decide) hblank]
      decide
    refine ⟨i.length + 2 + g.length, ?_, ?_, fun c hc => hgap c ?_⟩
    · rw [length_pair, List.length_append]
      omega
    · rw [length_pair, pair_append, Nat.add_assoc,
        outlineFrom_pair rfl hi fun heq => absurd heq (by decide), List.length_append,
        Nat.add_assoc, List.append_assoc, hplain.outlineFrom_append (hpass _), List.length_cons,
        Nat.add_right_comm, List.cons_append, TypeScript.outlineFrom,
        if_neg (by decide), if_neg (by decide), if_neg (by decide), if_pos ⟨rfl, hends⟩]
      simp only [propertyOutline, List.length_append, List.length_reverse, List.length_cons,
        List.length_nil]
      omega
    · rw [drop_pair] at hc
      exact List.mem_of_mem_drop hc

/-- A member in front ends outside all brackets, or there, and only blanks are left. -/
theorem EndText.memberAt_stop {w : List Char} (hw : Balanced w) (hx : EndText x)
    (steps pos room : ℕ) (r : List Char) :
    ∃ n, (memberAt steps pos (w.length + (x.length + room)) (w ++ (x ++ r))).stop = pos + n ∧
      (SplitsAt w n ∨ ∃ j ≤ x.length, n = w.length + j ∧
        ∀ c ∈ x.drop j, Text.isBlank c = true) := by
  have hstop := hx.stops (x.length + room) r
  obtain ⟨gap, here, rfl, hgap, hbefore, hhere⟩ :=
    (hw.splitsAt_leading (fun _ => isBracket_of_isBlank) hstop.any_isBlank).1
  obtain ⟨dec, body, rfl, hdec, hdecorators, hbody⟩ := hhere.splitsAt_decoratorsLength steps hstop
  have hsize : (gap ++ (dec ++ body)).length = gap.length + (dec.length + body.length) := by
    rw [List.length_append, List.length_append]
  have hroom : (gap ++ (dec ++ body)).length + (x.length + room) - gap.length =
      (dec ++ body).length + (x.length + room) := by
    rw [List.length_append, Nat.add_assoc, Nat.add_sub_cancel_left]
  have hroom' : (dec ++ body).length + (x.length + room) - dec.length =
      body.length + (x.length + room) := by
    rw [List.length_append, Nat.add_assoc, Nat.add_sub_cancel_left]
  rw [memberAt]
  dsimp only
  rw [← hgap, hroom, List.append_assoc, List.drop_left, ← hdec, hroom', List.append_assoc,
    List.drop_left]
  refine ⟨_, rfl, ?_⟩
  rcases hbody.outlineFrom_cases [] (x.length + room) (x ++ r) with
    ⟨n, hn, -, hlen⟩ | hover | ⟨hlen, -⟩
  · rw [hlen, List.length_nil, Nat.zero_add, Nat.add_assoc]
    exact Or.inl (SplitsAt.append hbefore (SplitsAt.append hdecorators hn))
  · obtain ⟨j, hj, hlen, hblank⟩ := hx.outlineFrom (body.reverse ++ []) room r
    refine Or.inr ⟨j, hj, ?_, hblank⟩
    rw [hover, hlen, hsize, List.append_nil, List.length_reverse]
    omega
  · obtain ⟨hj, hblank⟩ := hx.methodTail room r
    refine Or.inr ⟨_, hj, ?_, hblank⟩
    rw [hlen, hsize, List.length_nil]
    omega

end EndTexts

section Behind

variable {pre r : List Char}

/-- Behind a member that ends in such a text the rest of it is again one. -/
theorem Breaks.memberAt (h : Breaks pre) (steps pos room : ℕ) (r : List Char) :
    ∃ n, (memberAt steps pos (pre.length + room) (pre ++ r)).stop = pos + n ∧
      (n ≤ pre.length ∨ ∀ c ∈ pre, Text.isBlank c = true) ∧
      Breaks (pre.drop n) := by
  cases h with
  | blank hgap =>
    exact ⟨_, rfl, Or.inr hgap, .blank fun c hc => hgap c (List.mem_of_mem_drop hc)⟩
  | @behind w x hw hx =>
    obtain ⟨n, hn, hcases⟩ := hx.memberAt_stop hw steps pos room r
    rw [← Nat.add_assoc, ← List.length_append, ← List.append_assoc] at hn
    refine ⟨n, hn, ?_⟩
    rcases hcases with ⟨y, z, rfl, rfl, -, hz⟩ | ⟨j, hj, rfl, hblank⟩
    · refine ⟨Or.inl ?_, ?_⟩
      · simp only [List.length_append]
        omega
      · rw [List.append_assoc, List.drop_left]
        exact .behind hz hx
    · refine ⟨Or.inl ?_, ?_⟩
      · rw [List.length_append]
        omega
      · rw [List.drop_length_add_append]
        exact .blank hblank

/-- Nor does a semicolon that is passed over make a difference. -/
theorem Breaks.drop_semicolon (h : Breaks pre) {gap rest : List Char}
    (hgap : ∀ c ∈ gap, Text.isBlank c = true) (hsplit : pre ++ r = gap ++ ';' :: rest) :
    Breaks (pre.drop (gap.length + 1)) := by
  cases h with
  | blank hpre => exact .blank fun c hc => hpre c (List.mem_of_mem_drop hc)
  | @behind w x hw hx =>
    have hfirst : ∀ c, (x ++ r).head? = some c → Text.isBlank c = false := fun c hc => by
      rcases hx.stops 1 r with h | h
      · exact absurd h Nat.one_ne_zero
      · exact (h c hc).1
    -- Where the text ends with the semicolon itself, only blanks are left.
    have hend : x ++ r = ';' :: rest → Breaks ((w ++ x).drop (w.length + 1)) := by
      intro heq
      rw [List.drop_length_add_append]
      cases hx with
      | semicolon hblank => exact .blank (by simpa using hblank)
      | braces => exact absurd (List.cons.inj heq).1 (by decide)
    rw [List.append_assoc] at hsplit
    rcases List.append_eq_append_iff.1 hsplit with ⟨as, rfl, has⟩ | ⟨bs, rfl, hbs⟩
    · cases as with
      | nil => simpa using hend has
      | cons a as =>
        have ha := hfirst a (by rw [has]; rfl)
        rw [hgap a (by simp)] at ha
        cases ha
    · cases bs with
      | nil => simpa using hend (by simpa using hbs.symm)
      | cons b bs =>
        obtain rfl : ';' = b := (List.cons.inj hbs).1
        have hbs : Balanced bs :=
          (hw.of_append (.of_plain fun c hc => isBracket_of_isBlank (hgap c hc))).of_append
            (m := [';']) (.plain (by decide) .nil)
        rw [List.append_assoc, List.drop_length_add_append]
        exact .behind hbs hx

/-- **No member that is found reaches over the end of such a text.** -/
theorem Breaks.not_straddles (hpre : Breaks pre) (hall : Balanced (pre ++ r)) {masked : List Char}
    {pos : ℕ} {tail : List Char} (hmasked : masked.drop pos = pre ++ (r ++ tail)) (steps : ℕ) :
    ∀ d ∈ membersFrom steps pos (pre ++ r).length (pre ++ r ++ tail),
      ¬d.Straddles masked (pos + pre.length) := by
  induction steps generalizing pre r pos with
  | zero => exact fun d hd => absurd hd List.not_mem_nil
  | succ steps ih =>
    have later : ∀ {x rest}, pre ++ r = x ++ rest → Balanced rest → Breaks (pre.drop x.length) →
        ∀ d ∈ membersFrom steps (pos + x.length) rest.length (rest ++ tail),
          ¬d.Straddles masked (pos + pre.length) := by
      intro x rest hsplit hrest hbreaks d hd
      rcases le_or_gt x.length pre.length with hle | hgt
      · obtain rfl : rest = pre.drop x.length ++ r := by
          rw [← List.drop_append_of_le_length hle, hsplit, List.drop_left]
        have hnext : masked.drop (pos + x.length) = pre.drop x.length ++ (r ++ tail) := by
          rw [← List.drop_drop, hmasked, List.drop_append_of_le_length hle]
        have := ih hbreaks hrest hnext d hd
        rwa [List.length_drop, Nat.add_assoc, Nat.add_sub_cancel' hle] at this
      · have hlow := ((membersFrom_spans steps _ _ _).2 d hd).low_le
        exact fun h => absurd h.1 (by omega)
    rcases hall.membersFrom_cases steps pos tail with ⟨-, hnone⟩ |
      ⟨gap, rest, hsplit, hgap, hrest, hlater⟩ | ⟨span, rest, hsplit, -, -, hrest, hstop, hlater⟩
    · rw [hnone]
      exact fun d hd => absurd hd List.not_mem_nil
    · rw [hlater]
      have hlast := later (x := gap ++ [';']) (by rw [hsplit]; simp) hrest
      rw [List.length_append] at hlast
      exact hlast (hpre.drop_semicolon hgap hsplit)
    · obtain ⟨n, hn, hreach, hbreaks⟩ := hpre.memberAt steps pos r.length (r ++ tail)
      rw [← List.length_append, ← List.append_assoc, hstop] at hn
      obtain rfl : span.length = n := by omega
      rw [hlater]
      refine List.forall_mem_cons.2 ⟨?_, later hsplit hrest hbreaks⟩
      rintro ⟨-, hlt, c, hc, hblank⟩
      rw [hstop] at hlt
      rcases hreach with hle | hpre
      · omega
      · -- nothing but blanks stands in front
        have hstart : (TypeScript.memberAt steps pos (pre ++ r).length (pre ++ r ++ tail)).start =
          pos := rfl
        rw [hstart, List.extract_eq_take_drop, hmasked, Nat.add_sub_cancel_left,
          List.take_left] at hc
        rw [hpre c hc] at hblank
        cases hblank

end Behind

end ApiScaffold.TypeScript
