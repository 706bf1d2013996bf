import ApiScaffold.TypeScript.Bracket
import Mathlib.Tactic

/-!
# Balanced parts of a masked text

* `brackets` runs over a text with the stack of open brackets; it is what the check of a text does,
  lines apart (`bracketProblems_eq_nil_iff`);
* `closingFrom_congr`, `closingFrom_add`: the search for a closing brace looks no further than the
  brace, and goes on behind it when more braces are open;
* `Neutral`: a text that both of these pass over as if it was not there.
-/

namespace ApiScaffold.TypeScript

/-! ### The stack of open brackets -/

/-- The stack without the bracket that a closing one belongs to; none if it is not on top. -/
def popBracket (c : Char) : List Char → Option (List Char)
  | [] => none
  | o :: os => if closerOf? o = some c then some os else none

/-- The stack of open brackets after a text; none if a bracket closes that is not the last one
open. -/
def brackets (opened : List Char) : List Char → Option (List Char)
  | [] => some opened
  | c :: cs =>
    if (closerOf? c).isSome then brackets (c :: opened) cs
    else if isCloser c then (popBracket c opened).bind fun os => brackets os cs
    else brackets opened cs

/-- A text has no unbalanced bracket exactly if the stack is empty in the end. -/
theorem bracketProblems_eq_nil_iff {opened : List (Char × ℕ)} {line : ℕ} {cs : List Char} :
    bracketProblems opened line cs = [] ↔ brackets (opened.map (·.1)) cs = some [] := by
  induction cs generalizing opened line with
  | nil => simp [bracketProblems, brackets]
  | cons c cs ih =>
    unfold bracketProblems
    rw [brackets]
    split_ifs with h₁ h₂
    · exact ih
    · cases opened with
      | nil => simp [popBracket]
      | cons o os =>
        obtain ⟨o, n⟩ := o
        simp only [List.map_cons, popBracket]
        split_ifs
        · exact ih
        · simp
    · exact ih
    · exact ih

theorem brackets_append (opened xs ys : List Char) :
    brackets opened (xs ++ ys) = (brackets opened xs).bind fun os => brackets os ys := by
  induction xs generalizing opened with
  | nil => rfl
  | cons c cs ih =>
    rw [List.cons_append, brackets, brackets]
    split_ifs
    · exact ih _
    · rw [Option.bind_assoc]
      simp only [ih]
    · exact ih _

theorem popBracket_append {c : Char} {opened os : List Char} (h : popBracket c opened = some os)
    (more : List Char) : popBracket c (opened ++ more) = some (os ++ more) := by
  cases opened with
  | nil => cases h
  | cons o rest =>
    simp only [popBracket, List.cons_append] at h ⊢
    split_ifs at h ⊢
    rw [Option.some.inj h]

/-- Brackets further down the stack play no part. -/
theorem brackets_frame {opened xs os : List Char} (h : brackets opened xs = some os)
    (more : List Char) : brackets (opened ++ more) xs = some (os ++ more) := by
  induction xs generalizing opened with
  | nil =>
    obtain rfl := Option.some.inj h
    rfl
  | cons c cs ih =>
    rw [brackets] at h ⊢
    split_ifs at h ⊢ with h₁ h₂
    · exact ih h
    · obtain ⟨rest, hrest, h⟩ := Option.bind_eq_some_iff.1 h
      rw [popBracket_append hrest, Option.bind_some]
      exact ih h
    · exact ih h

/-! ### The search for a closing bracket -/

section Closing

variable {o c : Char} {d e n : ℕ} {xs ys zs : List Char}

/-- A closing bracket that is found in the first part of a text is found there, whatever follows. -/
theorem closingFrom_congr (h : closingFrom o c d (xs ++ ys) = some n) (hn : n < xs.length)
    (zs : List Char) : closingFrom o c d (xs ++ zs) = some n := by
  induction xs generalizing d n with
  | nil => exact (Nat.not_lt_zero _ hn).elim
  | cons x xs ih =>
    rw [List.length_cons] at hn
    rw [List.cons_append, closingFrom] at h ⊢
    split_ifs at h ⊢ with h₁ h₂ h₃
    · obtain ⟨m, hm, rfl⟩ := Option.map_eq_some_iff.1 h
      rw [ih hm (by omega)]
      rfl
    · exact h
    · obtain ⟨m, hm, rfl⟩ := Option.map_eq_some_iff.1 h
      rw [ih hm (by omega)]
      rfl
    · obtain ⟨m, hm, rfl⟩ := Option.map_eq_some_iff.1 h
      rw [ih hm (by omega)]
      rfl

/-- What is found is the closing bracket. -/
theorem getElem?_closingFrom (h : closingFrom o c d xs = some n) : xs[n]? = some c := by
  induction xs generalizing d n with
  | nil => cases h
  | cons x xs ih =>
    rw [closingFrom] at h
    split_ifs at h with h₁ h₂ h₃
    · obtain ⟨m, hm, rfl⟩ := Option.map_eq_some_iff.1 h
      exact ih hm
    · obtain rfl := Option.some.inj h
      simp [h₂]
    · obtain ⟨m, hm, rfl⟩ := Option.map_eq_some_iff.1 h
      exact ih hm
    · obtain ⟨m, hm, rfl⟩ := Option.map_eq_some_iff.1 h
      exact ih hm

/-- With more brackets open, the search goes on behind the bracket that it found. -/
theorem closingFrom_add (h : closingFrom o c e xs = some n) (he : 1 ≤ e) (hd : 1 ≤ d) :
    closingFrom o c (e + d) xs = (closingFrom o c d (xs.drop (n + 1))).map (· + (n + 1)) := by
  induction xs generalizing e n with
  | nil => cases h
  | cons x xs ih =>
    rw [closingFrom] at h ⊢
    by_cases h₁ : x = o
    · rw [if_pos h₁] at h ⊢
      obtain ⟨m, hm, rfl⟩ := Option.map_eq_some_iff.1 h
      rw [show e + d + 1 = (e + 1) + d by omega, ih hm (by omega), Option.map_map]
      rfl
    rw [if_neg h₁] at h ⊢
    by_cases h₂ : x = c
    · rw [if_pos h₂, if_neg (show ¬ e + d ≤ 1 by omega)]
      rw [if_pos h₂] at h
      by_cases h₃ : e ≤ 1
      · -- This bracket closes the last of the `e`; the other `d` are still open.
        rw [if_pos h₃] at h
        obtain rfl := Option.some.inj h
        rw [show e + d - 1 = d by omega]
        rfl
      · rw [if_neg h₃] at h
        obtain ⟨m, hm, rfl⟩ := Option.map_eq_some_iff.1 h
        rw [show e + d - 1 = (e - 1) + d by omega, ih hm (by omega), Option.map_map]
        rfl
    · rw [if_neg h₂] at h ⊢
      obtain ⟨m, hm, rfl⟩ := Option.map_eq_some_iff.1 h
      rw [ih hm he, Option.map_map]
      rfl

/-- Characters that are no bracket of the kind are passed over. -/
theorem closingFrom_append_of_notMem (ho : o ∉ xs) (hc : c ∉ xs) :
    closingFrom o c d (xs ++ ys) = (closingFrom o c d ys).map (· + xs.length) := by
  induction xs with
  | nil => simp
  | cons x xs ih =>
    rw [List.mem_cons, not_or] at ho hc
    rw [List.cons_append, closingFrom, if_neg (Ne.symm ho.1), if_neg (Ne.symm hc.1),
      ih ho.2 hc.2, Option.map_map]
    rfl

end Closing

/-! ### Neutral parts -/

/-- Shifting an offset twice shifts it once. -/
theorem map_add_map_add (found : Option ℕ) (a b : ℕ) :
    (found.map (· + a)).map (· + b) = found.map (· + (a + b)) := by
  cases found with
  | none => rfl
  | some n => exact congrArg some (Nat.add_assoc n a b)

/-- Whether a character is a bracket of any kind. -/
def isBracket (c : Char) : Bool := (closerOf? c).isSome || isCloser c

/-- A part of a masked text that leaves the stack of open brackets as it was and never closes a
brace that was open before. -/
structure Neutral (m : List Char) : Prop where
  stack : ∀ os, brackets os m = some os
  closing : ∀ d r, 1 ≤ d →
    closingFrom '\x7b' '\x7d' d (m ++ r) = (closingFrom '\x7b' '\x7d' d r).map (· + m.length)

namespace Neutral

variable {m n : List Char}

theorem nil : Neutral [] := ⟨fun _ => rfl, fun _ _ _ => by simp⟩

theorem append (hm : Neutral m) (hn : Neutral n) : Neutral (m ++ n) := by
  refine ⟨fun os => ?_, fun d r hd => ?_⟩
  · rw [brackets_append, hm.stack, Option.bind_some, hn.stack]
  · rw [List.append_assoc, hm.closing d _ hd, hn.closing d r hd, map_add_map_add,
      List.length_append, Nat.add_comm n.length]

theorem brackets_cons_of_not {c : Char} (hc : isBracket c = false) (os cs : List Char) :
    brackets os (c :: cs) = brackets os cs := by
  simp only [isBracket, Bool.or_eq_false_iff] at hc
  rw [brackets, hc.1, hc.2]
  rfl

/-- A text without brackets is neutral. -/
theorem of_plain (h : ∀ c ∈ m, isBracket c = false) : Neutral m := by
  refine ⟨fun os => ?_, fun d r _ => closingFrom_append_of_notMem ?_ ?_⟩
  · induction m with
    | nil => rfl
    | cons c cs ih =>
      rw [brackets_cons_of_not (h c (List.mem_cons_self ..))]
      exact ih fun d hd => h d (List.mem_cons_of_mem _ hd)
  · exact fun hmem => absurd (h _ hmem) (by decide)
  · exact fun hmem => absurd (h _ hmem) (by decide)

theorem of_all (h : m.all (fun c => !isBracket c) = true) : Neutral m :=
  of_plain fun c hc => by simpa using List.all_eq_true.1 h c hc

/-- The stack around a neutral text between brackets that belong together. -/
theorem brackets_enclosed {o c : Char} (ho : closerOf? o = some c) (hc : closerOf? c = none)
    (hcloser : isCloser c = true) (hm : Neutral m) (os : List Char) :
    brackets os (o :: (m ++ [c])) = some os := by
  rw [brackets, if_pos (by rw [ho]; rfl), brackets_append, hm.stack, Option.bind_some, brackets,
    if_neg (by rw [hc]; exact Bool.false_ne_true), if_pos hcloser]
  simp [popBracket, ho, brackets]

theorem braces (hm : Neutral m) : Neutral ('\x7b' :: (m ++ ['\x7d'])) := by
  refine ⟨hm.brackets_enclosed rfl rfl rfl, fun d r hd => ?_⟩
  have hinner : closingFrom '\x7b' '\x7d' (d + 1) (m ++ ('\x7d' :: r)) =
      (closingFrom '\x7b' '\x7d' d r).map (· + (m.length + 1)) := by
    rw [hm.closing (d + 1) _ (by omega), closingFrom, if_neg (by decide), if_pos rfl,
      if_neg (by omega), Nat.add_sub_cancel, map_add_map_add, Nat.add_comm 1]
  have hlen : m.length + 1 + 1 = ('\x7b' :: (m ++ ['\x7d'])).length := by simp
  rw [List.cons_append, List.append_assoc, List.singleton_append, closingFrom, if_pos rfl, hinner,
    map_add_map_add, hlen]

/-- A neutral text between brackets of another kind. -/
theorem enclosed {o c : Char} (ho : closerOf? o = some c) (hc : closerOf? c = none)
    (hcloser : isCloser c = true) (hne : o ≠ '\x7b' ∧ o ≠ '\x7d' ∧ c ≠ '\x7b' ∧ c ≠ '\x7d')
    (hm : Neutral m) : Neutral (o :: (m ++ [c])) := by
  refine ⟨hm.brackets_enclosed ho hc hcloser, fun d r hd => ?_⟩
  obtain ⟨h₁, h₂, h₃, h₄⟩ := hne
  have hlen : 1 + (m.length + 1) = (o :: (m ++ [c])).length := by
    simp
    omega
  rw [List.cons_append, List.append_assoc, List.singleton_append, closingFrom, if_neg h₁,
    if_neg h₂, hm.closing d _ hd, closingFrom, if_neg h₃, if_neg h₄, map_add_map_add,
    map_add_map_add, hlen]

theorem round (hm : Neutral m) : Neutral ('(' :: (m ++ [')'])) :=
  hm.enclosed rfl rfl rfl (by decide)

theorem square (hm : Neutral m) : Neutral ('[' :: (m ++ [']'])) :=
  hm.enclosed rfl rfl rfl (by decide)

end Neutral

end ApiScaffold.TypeScript
