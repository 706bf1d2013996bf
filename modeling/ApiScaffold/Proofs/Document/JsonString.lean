import ApiScaffold.Document.Json.Reader
import Mathlib.Tactic

/-!
# Strings of JSON, written and read

A string that was written between quotation marks is read back, and no further than to the mark that
ends it.

* `stringBody_quoteChar`: however a character is written, it is read as that character, and the
  reader stands behind it;
* `stringAt?_quote`: a quoted text is read as itself, whatever follows;
* `length_of_stringAt?`: what is left behind a string is shorter than what was there.
-/

namespace ApiScaffold.Json

variable {opened cs t rest : List Char} {c : Char} {n : ℕ}

/-! ### Characters -/

theorem hexValue?_hexDigit : ∀ d < 16, Text.hexValue? (Text.hexDigit d) = some d := by decide

/-- Four hexadecimal digits are read as the number that they write. -/
theorem exists_hexDigits (hn : n < 0x10000) :
    ∃ a b c d, Text.hexDigits 4 n = [a, b, c, d] ∧ unit? a b c d = some n := by
  have hdigit : ∀ m : ℕ, Text.hexValue? (Text.hexDigit (m % 16)) = some (m % 16) := fun m =>
    hexValue?_hexDigit _ (Nat.mod_lt m (by decide))
  refine ⟨_, _, _, _, rfl, ?_⟩
  simp only [unit?, hdigit, Option.bind_eq_bind, Option.bind_some, Option.pure_def]
  congr 1
  omega

/-- The escape of a unit below the surrogates is read as the character of the unit. Something has to
follow it, as the quotation mark does. -/
theorem stringBody_unitEscape (hn : n < 0xD800) (hne : rest ≠ []) :
    stringBody opened (Text.unitEscape n ++ rest) =
      consFst (Char.ofNat n) (stringBody opened rest) := by
  obtain ⟨a, b, c, d, hdigits, hunit⟩ := exists_hexDigits (show n < 0x10000 by omega)
  have hhigh : Text.isHighUnit n = false := by
    simp only [Text.isHighUnit, Bool.and_eq_false_iff, decide_eq_false_iff_not]
    omega
  have hlow : Text.isLowUnit n = false := by
    simp only [Text.isLowUnit, Bool.and_eq_false_iff, decide_eq_false_iff_not]
    omega
  have hchar : Text.unitChar n = Char.ofNat n := by simp [Text.unitChar, hhigh, hlow]
  rw [Text.unitEscape, hdigits]
  simp only [List.cons_append, List.nil_append]
  rw [stringBody.eq_def]
  simp only [hunit, hhigh, hchar]
  split <;> simp_all

/-- **A written character is read back.** -/
theorem stringBody_quoteChar (c : Char) (hne : rest ≠ []) :
    stringBody opened (Text.quoteChar .unicode c ++ rest) = consFst c (stringBody opened rest) := by
  unfold Text.quoteChar
  split_ifs with hquote hslash hline hreturn htab hback hfeed hcontrol hreach
  · subst hquote
    simp [stringBody, shortEscape?]
  · subst hslash
    simp [stringBody, shortEscape?]
  · subst hline
    simp [stringBody, shortEscape?]
  · subst hreturn
    simp [stringBody, shortEscape?]
  · subst htab
    simp [stringBody, shortEscape?]
  · subst hback
    simp [stringBody, shortEscape?]
  · subst hfeed
    simp [stringBody, shortEscape?]
  · rw [stringBody_unitEscape (by omega) hne, Char.ofNat_toNat]
  · exact absurd hreach.1 (by decide)
  · rw [List.singleton_append, stringBody.eq_def]
    split <;> simp_all

theorem stringBody_flatMap_quoteChar (cs rest : List Char) :
    stringBody opened (cs.flatMap (Text.quoteChar .unicode) ++ '\x22' :: rest) =
      .ok (cs, rest) := by
  induction cs with
  | nil => simp [stringBody]
  | cons c cs ih =>
    rw [List.flatMap_cons, List.append_assoc, stringBody_quoteChar c (by simp), ih]
    rfl

/-! ### Strings -/

/-- Reads a string at the front of a text. -/
def stringAt? : List Char → Option (List Char × List Char)
  | '\x22' :: cs => (stringBody ('\x22' :: cs) cs).toOption
  | _ => none

/-- **A quoted text is read as itself,** whatever follows it. -/
theorem stringAt?_quote (cs rest : List Char) :
    stringAt? (Text.quote .unicode cs ++ rest) = some (cs, rest) := by
  rw [Text.quote, List.cons_append, List.cons_append, List.append_assoc, List.singleton_append,
    stringAt?, stringBody_flatMap_quoteChar]
  rfl

theorem consFst_eq_ok {r : Except Stop (List Char × List Char)} :
    consFst c r = .ok (t, rest) ↔ ∃ u, r = .ok (u, rest) ∧ t = c :: u := by
  cases r with
  | error e => simp [consFst, Except.map]
  | ok p =>
    obtain ⟨u, rest'⟩ := p
    simp only [consFst, Except.map, Except.ok.injEq, Prod.mk.injEq]
    grind

/-- Reading takes characters from the front. -/
theorem length_of_stringBody (h : stringBody opened cs = .ok (t, rest)) :
    rest.length < cs.length := by
  fun_induction stringBody opened cs generalizing t rest with
  | case2 cs =>
    obtain ⟨-, rfl⟩ := Prod.mk.inj (Except.ok.inj h)
    exact Nat.lt_succ_self _
  | case7 | case8 | case9 | case10 | case12 | case15 =>
    obtain ⟨u, hu, -⟩ := consFst_eq_ok.1 h
    rename_i ih
    have := ih hu
    simp only [List.length_cons] at this ⊢
    omega
  | case1 | case3 | case4 | case5 | case6 | case11 | case13 | case14 => cases h

theorem length_of_stringAt? (h : stringAt? cs = some (t, rest)) : rest.length < cs.length := by
  unfold stringAt? at h
  split at h
  · next r =>
    cases hbody : stringBody ('\x22' :: r) r with
    | error e =>
      rw [hbody] at h
      cases h
    | ok p =>
      rw [hbody] at h
      obtain rfl := Option.some.inj h
      exact (length_of_stringBody hbody).trans (Nat.lt_succ_self _)
  · cases h

end ApiScaffold.Json
