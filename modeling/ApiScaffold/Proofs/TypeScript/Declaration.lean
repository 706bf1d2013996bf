import ApiScaffold.Proofs.TypeScript.Spans

/-!
# Finding the declaration of a class

* `Silent`: no declaration of the class begins in a text that is followed by another;
* `Silent.of_word`: a word that no name follows is silent, even if it is the keyword itself;
* `Quiet`: none begins in a text at the place where it stands; `Silent.quiet`: so it is with a
  silent text at any place;
* `Quiet.declarationEnd?_append`, `Quiet.keywordOffset?_append`: the search passes over such a text;
* `declarationHere?_class`: a declaration with one space behind its keyword is found.
-/

namespace ApiScaffold.TypeScript

/-! ### Words -/

/-- The code points of the blanks. -/
def blankPoints : List ℕ :=
  [9, 10, 11, 12, 13, 28, 29, 30, 31, 32, 0x85, 0xA0, 0x1680, 0x2000, 0x2001, 0x2002, 0x2003,
    0x2004, 0x2005, 0x2006, 0x2007, 0x2008, 0x2009, 0x200A, 0x2028, 0x2029, 0x202F, 0x205F, 0x3000]

theorem toNat_mem_blankPoints {c : Char} (h : Text.isBlank c = true) : c.toNat ∈ blankPoints := by
  simp only [Text.isBlank, Bool.or_eq_true, Bool.and_eq_true, decide_eq_true_eq, beq_iff_eq] at h
  simp only [blankPoints, List.mem_cons, List.not_mem_nil, or_false]
  omega

/-- No blank is part of a word. -/
theorem isWordChar_of_isBlank {c : Char} (h : Text.isBlank c = true) :
    Text.isWordChar c = false := by
  have hall : ∀ n ∈ blankPoints, Text.isWordChar (Char.ofNat n) = false := by decide +kernel
  have := hall _ (toNat_mem_blankPoints h)
  rwa [Char.ofNat_toNat] at this

theorem isBlank_of_isWordChar {c : Char} (h : Text.isWordChar c = true) :
    Text.isBlank c = false := by
  by_contra hblank
  rw [isWordChar_of_isBlank (Bool.not_eq_false _ ▸ hblank)] at h
  cases h

/-- A text of letters, digits and underscores. -/
def IsWord (w : List Char) : Prop := ∀ c ∈ w, Text.isWordChar c = true

instance (w : List Char) : Decidable (IsWord w) :=
  decidable_of_iff (w.all Text.isWordChar = true) List.all_eq_true

theorem IsWord.notMem {w : List Char} (h : IsWord w) {c : Char} (hc : Text.isWordChar c = false) :
    c ∉ w := by
  intro hmem
  rw [h c hmem] at hc
  cases hc

/-! ### Silent texts -/

variable {name p q r : List Char}

/-- The text begins, blanks apart, with a character that belongs to no word, or ends. -/
def NoWordAhead (r : List Char) : Prop :=
  (r.dropWhile Text.isBlank).head?.any Text.isWordChar = false

theorem NoWordAhead.of_head {c : Char} (hblank : Text.isBlank c = false)
    (hword : Text.isWordChar c = false) (r : List Char) : NoWordAhead (c :: r) := by
  rw [NoWordAhead, List.dropWhile_cons, hblank]
  simpa using hword

theorem NoWordAhead.space (h : NoWordAhead r) : NoWordAhead (' ' :: r) := by
  rw [NoWordAhead, List.dropWhile_cons]
  exact h

/-- No declaration of the class begins in `p`, which `r` follows. -/
def Silent (name p r : List Char) : Prop :=
  ∀ a b, p = a ++ b → b ≠ [] → ∀ before, declarationHere? name before (b ++ r) = none

theorem Silent.nil : Silent name [] r := by
  intro a b hp hb
  exact absurd (List.append_eq_nil_iff.1 hp.symm).2 hb

/-- No declaration begins with the first character of a silent text, and none behind it. -/
theorem Silent.of_cons {c : Char} {cs : List Char} (h : Silent name (c :: cs) r) :
    (∀ before, declarationHere? name before (c :: (cs ++ r)) = none) ∧ Silent name cs r :=
  ⟨h [] (c :: cs) rfl (List.cons_ne_nil c cs),
    fun a b hab hb => h (c :: a) b (by rw [hab]; rfl) hb⟩

theorem Silent.append (hp : Silent name p (q ++ r)) (hq : Silent name q r) :
    Silent name (p ++ q) r := by
  intro a b hab hb before
  rcases List.append_eq_append_iff.1 hab with ⟨c, rfl, hq'⟩ | ⟨c, rfl, rfl⟩
  · exact hq c b hq' hb before
  · by_cases hc : c = []
    · subst hc
      exact hq [] q rfl (by simpa using hb) before
    · rw [List.append_assoc]
      exact hp a c rfl hc before

/-- Where a text does not begin like the keyword, no declaration begins. -/
theorem declarationHere?_of_ne {c : Char} (hc : c ≠ 'c') (before : Option Char) (cs : List Char) :
    declarationHere? name before (c :: cs) = none := by
  unfold declarationHere?
  rw [show "class".toList = 'c' :: "lass".toList from rfl, Text.dropLeading?, if_neg (Ne.symm hc)]

theorem Silent.of_notMem (h : 'c' ∉ p) : Silent name p r := by
  rintro a b rfl hb before
  obtain ⟨c, cs, rfl⟩ := List.exists_cons_of_ne_nil hb
  refine declarationHere?_of_ne ?_ before (cs ++ r)
  rintro rfl
  exact h (by simp)

theorem searchDown_eq_none {α : Type} {f : ℕ → Option α} {n : ℕ}
    (h : ∀ i, 1 ≤ i → i ≤ n → f i = none) : searchDown f n = none := by
  induction n with
  | zero => rfl
  | succ n ih =>
    rw [searchDown, h (n + 1) (by omega) le_rfl]
    exact ih fun i h₁ h₂ => h i h₁ (by omega)

/-- A name does not begin at a character that belongs to no word. -/
theorem nameAfter?_eq_none (hne : name ≠ []) (hname : IsWord name) {cs : List Char} {i : ℕ}
    (h : (cs.drop i).head?.any Text.isWordChar = false) : nameAfter? name cs i = none := by
  obtain ⟨c, w, rfl⟩ := List.exists_cons_of_ne_nil hne
  have hc := hname c (List.mem_cons_self ..)
  unfold nameAfter?
  cases hd : cs.drop i with
  | nil => rfl
  | cons d ds =>
    rw [hd, List.head?_cons, Option.any_some] at h
    have hcd : c ≠ d := by
      rintro rfl
      rw [hc] at h
      cases h
    rw [Text.dropLeading?, if_neg hcd]

/-- The keyword without a name behind its blanks declares nothing. -/
theorem declarationHere?_of_noWordAhead (hne : name ≠ []) (hname : IsWord name) {rest : List Char}
    (h : rest.head?.any Text.isWordChar = true ∨ NoWordAhead rest) (before : Option Char) :
    declarationHere? name before ("class".toList ++ rest) = none := by
  unfold declarationHere?
  rw [Text.dropLeading?_eq_some_iff.2 rfl]
  dsimp only
  split_ifs
  · rfl
  rw [searchDown_eq_none]
  · rfl
  intro i h₁ h₂
  refine nameAfter?_eq_none hne hname ?_
  rcases h with hword | hahead
  · cases rest with
    | nil => cases hword
    | cons c cs =>
      have hblank : Text.isBlank c = false := isBlank_of_isWordChar hword
      rw [List.takeWhile_cons, hblank] at h₂
      exact absurd h₂ (by simp; omega)
  · have hall := List.all_eq_true.1 (List.all_takeWhile (p := Text.isBlank) (l := rest))
    have hsplit := List.takeWhile_append_dropWhile (p := Text.isBlank) (l := rest)
    unfold NoWordAhead at hahead
    generalize rest.takeWhile Text.isBlank = blanks at h₂ hall hsplit
    generalize rest.dropWhile Text.isBlank = ahead at hahead hsplit
    rw [← hsplit]
    rcases h₂.lt_or_eq with hlt | rfl
    · -- Inside the blanks the next character is a blank.
      rw [List.head?_drop, List.getElem?_append_left hlt, List.getElem?_eq_getElem hlt,
        Option.any_some]
      exact isWordChar_of_isBlank (hall _ (List.getElem_mem hlt))
    · rw [List.drop_left]
      exact hahead

/-- **A word is silent** if no other word follows it, be it the keyword itself. -/
theorem Silent.of_word {w : List Char} (hne : name ≠ []) (hname : IsWord name) (hw : IsWord w)
    (hhead : r.head?.any Text.isWordChar = false) (hr : NoWordAhead r) : Silent name w r := by
  rintro a b rfl hb before
  have hb' : IsWord b := fun c hc => hw c (List.mem_append_right a hc)
  cases hd : Text.dropLeading? "class".toList (b ++ r) with
  | none =>
    unfold declarationHere?
    rw [hd]
  | some rest =>
    have hsplit := Text.dropLeading?_eq_some_iff.1 hd
    rw [hsplit]
    refine declarationHere?_of_noWordAhead hne hname ?_ before
    rcases List.append_eq_append_iff.1 hsplit with ⟨c, hc, hr'⟩ | ⟨c, hc, hr'⟩
    · -- The keyword would go on behind the word.
      cases c with
      | nil =>
        rw [List.nil_append] at hr'
        exact Or.inr (hr' ▸ hr)
      | cons d ds =>
        have hword : IsWord "class".toList := by decide
        have hdw := hword d (by rw [hc]; simp)
        rw [hr', List.cons_append, List.head?_cons, Option.any_some, hdw] at hhead
        cases hhead
    · cases c with
      | nil =>
        rw [List.nil_append] at hr'
        exact Or.inr (hr' ▸ hr)
      | cons d ds =>
        refine Or.inl ?_
        rw [hr', List.cons_append, List.head?_cons, Option.any_some]
        exact hb' d (by rw [hc]; simp)

/-! ### The search -/

/-- No declaration of the class begins in `p`, which stands between `before` and `r`. -/
def Quiet (name : List Char) : (before : Option Char) → (p r : List Char) → Prop
  | _, [], _ => True
  | before, c :: cs, r =>
    declarationHere? name before (c :: (cs ++ r)) = none ∧ Quiet name (some c) cs r

/-- A silent text is quiet wherever it stands. -/
theorem Silent.quiet (h : Silent name p r) (before : Option Char) : Quiet name before p r := by
  induction p generalizing before with
  | nil => trivial
  | cons c cs ih => exact ⟨h.of_cons.1 before, ih h.of_cons.2 (some c)⟩

theorem Quiet.declarationEnd?_append {before : Option Char} (h : Quiet name before p r) :
    declarationEnd? name before (p ++ r) =
      (declarationEnd? name (p.getLast?.or before) r).map (· + p.length) := by
  induction p generalizing before with
  | nil => simp
  | cons c cs ih =>
    rw [List.cons_append, declarationEnd?, h.1, ih h.2, List.getLast?_cons, Option.map_map]
    cases cs.getLast? <;> rfl

theorem Quiet.keywordOffset?_append {before : Option Char} (h : Quiet name before p r) :
    keywordOffset? name before (p ++ r) =
      (keywordOffset? name (p.getLast?.or before) r).map (· + p.length) := by
  induction p generalizing before with
  | nil => simp
  | cons c cs ih =>
    rw [List.cons_append, keywordOffset?, h.1, ih h.2, List.getLast?_cons, Option.map_map]
    cases cs.getLast? <;> rfl

/-- A declaration with one space behind its keyword, found where no word precedes it. -/
theorem declarationHere?_class (hne : name ≠ []) (hname : IsWord name)
    {before : Option Char} (hbefore : before.any Text.isWordChar = false)
    (hr : r.head?.any Text.isWordChar = false) :
    declarationHere? name before ("class ".toList ++ (name ++ r)) = some (6 + name.length) := by
  obtain ⟨c, w, rfl⟩ := List.exists_cons_of_ne_nil hne
  have hblank : Text.isBlank c = false := isBlank_of_isWordChar (hname c (List.mem_cons_self ..))
  have hlast : ∃ d, (' ' :: c :: w).getLast? = some d ∧ Text.isWordChar d = true := by
    refine ⟨(c :: w).getLast hne, ?_, hname _ (List.getLast_mem hne)⟩
    rw [List.getLast?_cons_cons, List.getLast?_eq_some_getLast hne]
  obtain ⟨d, hd, hdw⟩ := hlast
  have htake : (' ' :: (c :: w ++ r)).take (1 + (c :: w).length) = ' ' :: c :: w := by
    rw [Nat.add_comm, List.take_succ_cons, List.take_left]
  have hnameAfter : nameAfter? (c :: w) (' ' :: (c :: w ++ r)) 1 = some (1 + (c :: w).length) := by
    unfold nameAfter?
    rw [List.drop_one, List.tail_cons, Text.dropLeading?_eq_some_iff.2 rfl]
    dsimp only
    rw [htake, hd, isWordBoundary, Option.any_some, hdw, hr]
    rfl
  have hrest : Text.dropLeading? "class".toList ("class ".toList ++ (c :: w ++ r)) =
      some (' ' :: (c :: w ++ r)) := Text.dropLeading?_eq_some_iff.2 rfl
  have hspace : ((' ' :: (c :: w ++ r)).takeWhile Text.isBlank).length = 1 := by
    simp [show Text.isBlank ' ' = true by decide, hblank]
  unfold declarationHere?
  rw [hrest]
  dsimp only
  rw [hbefore, hspace, searchDown, hnameAfter]
  simp only [Bool.false_eq_true, if_false, Option.map_some, Option.some.injEq]
  omega

/-! ### Texts that differ behind a brace -/

section Behind

variable {sub xs : List Char} {c : Char} {before : Option Char} {n : ℕ}

theorem dropLeading?_append_cons (hc : c ∉ sub) (xs r : List Char) :
    Text.dropLeading? sub (xs ++ c :: r) = (Text.dropLeading? sub xs).map (· ++ c :: r) := by
  induction sub generalizing xs with
  | nil => rfl
  | cons p ps ih =>
    rw [List.mem_cons, not_or] at hc
    cases xs with
    | nil => exact if_neg (Ne.symm hc.1)
    | cons x xs =>
      rw [List.cons_append, Text.dropLeading?, Text.dropLeading?]
      split_ifs
      · exact ih hc.2 xs
      · rfl

theorem searchDown_congr {α : Type} {f g : ℕ → Option α} (h : ∀ i ≤ n, f i = g i) :
    searchDown f n = searchDown g n := by
  induction n with
  | zero => rfl
  | succ n ih => rw [searchDown, searchDown, h _ le_rfl, ih fun i hi => h i (Nat.le_succ_of_le hi)]

/-- Whether a declaration begins somewhere depends on the text up to the next opening brace. -/
theorem declarationHere?_congr (hname : '\x7b' ∉ name) (before : Option Char)
    (xs r r' : List Char) :
    declarationHere? name before (xs ++ '\x7b' :: r) =
      declarationHere? name before (xs ++ '\x7b' :: r') := by
  have hkeyword : '\x7b' ∉ "class".toList := by decide
  rw [declarationHere?, declarationHere?, dropLeading?_append_cons hkeyword,
    dropLeading?_append_cons hkeyword]
  cases Text.dropLeading? "class".toList xs with
  | none => rfl
  | some ys =>
    have hblanks : ∀ z, (ys ++ '\x7b' :: z).takeWhile Text.isBlank = ys.takeWhile Text.isBlank := by
      intro z
      rw [List.takeWhile_append, List.takeWhile_cons_of_neg (by decide), List.append_nil]
      split_ifs with hall
      · exact ((List.takeWhile_prefix _).eq_of_length hall).symm
      · rfl
    have hafter : ∀ i ≤ (ys.takeWhile Text.isBlank).length,
        nameAfter? name (ys ++ '\x7b' :: r) i = nameAfter? name (ys ++ '\x7b' :: r') i := by
      intro i hi
      have hle := hi.trans (List.takeWhile_prefix Text.isBlank).length_le
      have hdrop : ∀ z, (ys ++ '\x7b' :: z).drop i = ys.drop i ++ '\x7b' :: z := fun z =>
        List.drop_append_of_le_length hle
      rw [nameAfter?, nameAfter?, hdrop, hdrop, dropLeading?_append_cons hname,
        dropLeading?_append_cons hname]
      cases hrest : Text.dropLeading? name (ys.drop i) with
      | none => rfl
      | some zs =>
        have hlen : i + name.length ≤ ys.length := by
          have := congrArg List.length (Text.dropLeading?_eq_some_iff.1 hrest)
          rw [List.length_drop, List.length_append] at this
          omega
        have hhead : ∀ z, (zs ++ '\x7b' :: z).head? = zs.head?.or (some '\x7b') := fun z => by
          rw [List.head?_append]
          rfl
        simp only [Option.map_some]
        rw [List.take_append_of_le_length hlen, List.take_append_of_le_length hlen, hhead, hhead]
    simp only [Option.map_some]
    rw [hblanks, hblanks, searchDown_congr hafter]

theorem declarationEnd?_congr (hname : '\x7b' ∉ name)
    (h : declarationEnd? name before (xs ++ '\x7b' :: r) = some n) (hn : n ≤ xs.length)
    (r' : List Char) : declarationEnd? name before (xs ++ '\x7b' :: r') = some n := by
  induction xs generalizing before n with
  | nil =>
    rw [List.nil_append, declarationEnd?, declarationHere?_of_ne (by decide)] at h
    obtain ⟨k, -, rfl⟩ := Option.map_eq_some_iff.1 h
    exact absurd hn (by simp)
  | cons x xs ih =>
    rw [List.cons_append, declarationEnd?, ← List.cons_append,
      declarationHere?_congr hname before (x :: xs) r r'] at h
    rw [List.cons_append, declarationEnd?, ← List.cons_append]
    cases hhere : declarationHere? name before (x :: xs ++ '\x7b' :: r') with
    | some k =>
      rw [hhere] at h
      exact h
    | none =>
      rw [hhere] at h
      obtain ⟨k, hk, rfl⟩ := Option.map_eq_some_iff.1 h
      dsimp only
      rw [ih hk (by simpa using hn)]
      rfl

end Behind

end ApiScaffold.TypeScript
