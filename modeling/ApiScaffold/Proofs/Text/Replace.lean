import ApiScaffold.Text.Blank
import Mathlib.Tactic

/-!
# Texts with occurrences replaced

* `replaceAll_singleton`: replacing a character replaces each by itself;
* `replaceAll_pair`, `replaceAll_pair_of_ne`, `replaceAll_pair_of_other`: how two characters one
  behind the other are replaced at the front of a text;
* `mem_replaceAll`: replacing brings in the characters of the new text alone;
* `not_infix_replaceAll`: where two characters one behind the other are driven apart by a third,
  they stand one behind the other nowhere.
-/

namespace ApiScaffold.Text

variable {old new cs : List Char} {a b x c : Char}

/-- A character that is replaced is found wherever it stands. -/
theorem replaceAll_singleton (a : Char) (new cs : List Char) :
    replaceAll [a] new cs = cs.flatMap fun c => if c = a then new else [c] := by
  induction cs with
  | nil => rfl
  | cons c cs ih =>
    rw [replaceAll] at ih
    rw [replaceAll, replaceFrom, List.flatMap_cons, ← ih]
    by_cases hc : c = a
    · simp [dropLeading?, hc]
    · simp [dropLeading?, hc, Ne.symm hc]

/-- A pair at the front is replaced. -/
theorem replaceAll_pair (a b : Char) (new cs : List Char) :
    replaceAll [a, b] new (a :: b :: cs) = new ++ replaceAll [a, b] new cs := by
  simp [replaceAll, replaceFrom, dropLeading?]

/-- A character that does not begin the pair is kept. -/
theorem replaceAll_pair_of_ne (hc : c ≠ a) (new cs : List Char) :
    replaceAll [a, b] new (c :: cs) = c :: replaceAll [a, b] new cs := by
  simp [replaceAll, replaceFrom, dropLeading?, hc.symm]

/-- The first character of the pair is kept if another one than the second follows it. -/
theorem replaceAll_pair_of_other (hx : x ≠ b) (new cs : List Char) :
    replaceAll [a, b] new (a :: x :: cs) = a :: replaceAll [a, b] new (x :: cs) := by
  rw [replaceAll, replaceFrom]
  simp [dropLeading?, hx.symm, replaceAll]

theorem mem_replaceFrom {skip : ℕ} (h : c ∈ replaceFrom old new skip cs) : c ∈ cs ∨ c ∈ new := by
  induction cs generalizing skip with
  | nil => exact Or.inl h
  | cons d cs ih =>
    cases skip with
    | succ skip => exact (ih h).imp_left (List.mem_cons_of_mem d)
    | zero =>
      rw [replaceFrom] at h
      split_ifs at h
      · rcases List.mem_append.1 h with h | h
        · exact Or.inr h
        · exact (ih h).imp_left (List.mem_cons_of_mem d)
      · rcases List.mem_cons.1 h with rfl | h
        · exact Or.inl List.mem_cons_self
        · exact (ih h).imp_left (List.mem_cons_of_mem d)

/-- What is put in stems from the new text. -/
theorem mem_replaceAll (h : c ∈ replaceAll old new cs) : c ∈ cs ∨ c ∈ new := mem_replaceFrom h

/-- A replacement that begins like the old text does not change how a text begins. -/
theorem head?_replaceFrom (w v cs : List Char) (a : Char) :
    (replaceFrom (a :: w) (a :: v) 0 cs).head? = cs.head? := by
  cases cs with
  | nil => rfl
  | cons d cs =>
    rw [replaceFrom]
    split_ifs with hold
    · obtain ⟨r, hr⟩ := Option.isSome_iff_exists.1 hold
      rw [(List.cons.inj (dropLeading?_eq_some_iff.1 hr)).1]
      rfl
    · rfl

theorem pair_infix_cons_iff {d : Char} :
    [a, b] <:+: d :: cs ↔ a = d ∧ cs.head? = some b ∨ [a, b] <:+: cs := by
  rw [List.infix_cons_iff, List.cons_prefix_cons]
  cases cs with
  | nil => simp
  | cons e cs => simp [List.cons_prefix_cons, eq_comm]

/-- **A pair that is driven apart is gone:** the new text brings up no other pair, nor do its ends
with their neighbours. -/
theorem not_infix_replaceAll (hax : a ≠ x) (hxb : x ≠ b) (hab : a ≠ b) (cs : List Char) :
    ¬[a, b] <:+: replaceAll [a, b] [a, x, b] cs := by
  -- Inside an occurrence one character is still to be passed over.
  suffices h : ∀ skip, ¬[a, b] <:+: replaceFrom [a, b] [a, x, b] skip cs from h 0
  induction cs with
  | nil => exact fun skip hinfix => absurd (List.infix_nil.1 hinfix) (List.cons_ne_nil _ _)
  | cons d cs ih =>
    intro skip
    cases skip with
    | succ skip => exact ih skip
    | zero =>
      rw [replaceFrom]
      split_ifs with hold
      · intro hinfix
        simp only [List.cons_append, List.nil_append, pair_infix_cons_iff, List.head?_cons,
          Option.some.injEq] at hinfix
        rcases hinfix with ⟨-, heq⟩ | ⟨heq, -⟩ | ⟨heq, -⟩ | hinfix
        · exact hxb heq
        · exact hax heq
        · exact hab heq
        · exact ih _ hinfix
      · rw [pair_infix_cons_iff, head?_replaceFrom]
        rintro (⟨rfl, hhead⟩ | hinfix)
        · obtain ⟨r, rfl⟩ := List.head?_eq_some_iff.1 hhead
          exact hold (by simp [dropLeading?])
        · exact ih 0 hinfix

end ApiScaffold.Text
