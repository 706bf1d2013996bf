import ApiScaffold.Proofs.Naming
import Mathlib

/-!
# Names in another case

A name is taken apart into words, and its words are put together in another case. Neither step loses
a letter or digit, or brings one in.

* `flatten_splitWords`: the words of a name are its letters and digits, in their order;
* `lower_pascalCase`, `lower_camelCase`: in either case a name has these letters and digits, up to
  their case;
* `isLower_head_pascalCase`: the first of them is no small letter.
-/

namespace ApiScaffold.Naming

/-- The spaces between words are neither letters nor digits. -/
theorem filter_spaceWords (p : Char) (cs : List Char) :
    (spaceWords p cs).filter Char.isAlphanum = cs.filter Char.isAlphanum := by
  induction cs generalizing p with
  | nil => rfl
  | cons c cs ih =>
    rw [spaceWords]
    split <;> simp [List.filter_cons, ih]

/-- **The words of a name are its letters and digits.** -/
theorem flatten_splitWords (cs : List Char) :
    (splitWords cs).flatten = cs.filter Char.isAlphanum := by
  rw [splitWords, List.flatten_filter_ne_nil, Text.flatten_splitWhere, ← filter_spaceWords ' ' cs]
  simp

theorem lower_append (cs ds : List Char) : lower (cs ++ ds) = lower cs ++ lower ds :=
  List.map_append

theorem lower_flatten (ws : List (List Char)) : lower ws.flatten = (ws.map lower).flatten :=
  List.map_flatten

@[simp] theorem lower_lower (cs : List Char) : lower (lower cs) = lower cs := by simp [lower]

@[simp] theorem lower_capitalize (w : List Char) : lower (capitalize w) = lower w := by
  cases w <;> simp [capitalize, lower]

/-- Capitalized words are the words, up to case. -/
theorem lower_flatten_capitalize (ws : List (List Char)) :
    lower (ws.map capitalize).flatten = lower ws.flatten := by
  rw [lower_flatten, lower_flatten, List.map_map]
  congr 1
  exact List.map_congr_left fun w _ => lower_capitalize w

theorem lower_pascalCase (cs : List Char) :
    lower (pascalCase cs) = lower (cs.filter Char.isAlphanum) := by
  rw [pascalCase, lower_flatten_capitalize, flatten_splitWords]

theorem lower_camelCase (cs : List Char) :
    lower (camelCase cs) = lower (cs.filter Char.isAlphanum) := by
  rw [← flatten_splitWords, camelCase]
  cases splitWords cs with
  | nil => rfl
  | cons w ws =>
    rw [lower_append, lower_lower, lower_flatten_capitalize, List.flatten_cons, lower_append]

theorem isLower_head_pascalCase {cs : List Char} {c : Char} (h : (pascalCase cs).head? = some c) :
    c.isLower = false := by
  rw [pascalCase] at h
  cases hwords : splitWords cs with
  | nil =>
    rw [hwords] at h
    cases h
  | cons w ws =>
    rw [hwords] at h
    cases w with
    | nil => exact absurd (hwords ▸ List.mem_cons_self) (nil_notMem_splitWords cs)
    | cons d ds =>
      obtain rfl := Option.some.inj h
      exact Char.isLower_toUpper_eq_false d

end ApiScaffold.Naming
