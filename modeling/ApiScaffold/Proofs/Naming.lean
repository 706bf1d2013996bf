import ApiScaffold.Naming
import ApiScaffold.Proofs.Text.Split
import ApiScaffold.Text.WordChar

/-!
# Names of resources

A resource is named by letters and digits of ASCII, whatever the path that it is named after.  Its
file has the extension that was given, without points in front.
-/

namespace ApiScaffold.Naming

/-- Letters and digits of ASCII by their code points. -/
theorem isAlphanum_iff {c : Char} : c.isAlphanum = true ↔
    (65 ≤ c.toNat ∧ c.toNat ≤ 90) ∨ (97 ≤ c.toNat ∧ c.toNat ≤ 122) ∨
      (48 ≤ c.toNat ∧ c.toNat ≤ 57) := by
  unfold Char.isAlphanum Char.isAlpha Char.isUpper Char.isLower Char.isDigit
  simp only [Bool.or_eq_true, Bool.and_eq_true, decide_eq_true_eq, UInt32.le_iff_toNat_le, or_assoc]
  exact Iff.rfl

theorem isWordChar_of_isAlphanum {c : Char} (h : c.isAlphanum = true) :
    Text.isWordChar c = true := by
  have hlow : c.toNat < 128 := by
    have hcode := isAlphanum_iff.1 h
    omega
  rw [Text.isWordChar, Text.isAlphanumeric, if_pos hlow, h, Bool.true_or]

theorem isAlphanum_toLower {c : Char} (h : c.isAlphanum = true) : c.toLower.isAlphanum = true := by
  unfold Char.toLower
  split
  · next hupper =>
    have hnat : 65 ≤ c.toNat ∧ c.toNat ≤ 90 := by
      rw [ge_iff_le, UInt32.le_iff_toNat_le, UInt32.le_iff_toNat_le] at hupper
      exact hupper
    have hsum : (c.val + ('a'.val - 'A'.val)).toNat = c.toNat + 32 :=
      (UInt32.toNat_add _ _).trans (Nat.mod_eq_of_lt (show c.toNat + 32 < 4294967296 by omega))
    exact isAlphanum_iff.2 (Or.inr (Or.inl (by
      rw [Char.toNat, hsum]
      omega)))
  · exact h

theorem isAlphanum_toUpper {c : Char} (h : c.isAlphanum = true) : c.toUpper.isAlphanum = true := by
  unfold Char.toUpper
  split
  · next hlower =>
    have hnat : 97 ≤ c.toNat ∧ c.toNat ≤ 122 := by
      rw [UInt32.le_iff_toNat_le, UInt32.le_iff_toNat_le] at hlower
      exact hlower
    -- The difference of the two letters wraps around.
    have hsum : (c.val + ('A'.val - 'a'.val)).toNat = c.toNat - 32 := by
      refine (UInt32.toNat_add _ _).trans (show (c.toNat + 4294967264) % 4294967296 = _ from ?_)
      omega
    exact isAlphanum_iff.2 (Or.inl (by
      rw [Char.toNat, hsum]
      omega))
  · exact h

theorem isAlphanum_of_mem_splitWords {cs w : List Char} (hw : w ∈ splitWords cs) {c : Char}
    (hc : c ∈ w) : c.isAlphanum = true := by
  have h := Text.notMem_of_mem_splitWhere (List.mem_of_mem_filter hw) hc
  simpa using h

theorem isAlphanum_of_mem_capitalize {w : List Char} (h : ∀ c ∈ w, c.isAlphanum = true) {c : Char}
    (hc : c ∈ capitalize w) : c.isAlphanum = true := by
  cases w with
  | nil => cases hc
  | cons d ds =>
    rcases List.mem_cons.1 hc with rfl | hc
    · exact isAlphanum_toUpper (h d List.mem_cons_self)
    · obtain ⟨e, he, rfl⟩ := List.mem_map.1 hc
      exact isAlphanum_toLower (h e (List.mem_cons_of_mem _ he))

theorem isAlphanum_of_mem_camelCase {cs : List Char} {c : Char} (hc : c ∈ camelCase cs) :
    c.isAlphanum = true := by
  unfold camelCase at hc
  cases hwords : splitWords cs with
  | nil =>
    rw [hwords] at hc
    cases hc
  | cons w ws =>
    have hmem : ∀ v ∈ w :: ws, ∀ d ∈ v, d.isAlphanum = true := fun v hv d hd =>
      isAlphanum_of_mem_splitWords (hwords ▸ hv) hd
    rw [hwords] at hc
    rcases List.mem_append.1 hc with hc | hc
    · obtain ⟨d, hd, rfl⟩ := List.mem_map.1 hc
      exact isAlphanum_toLower (hmem w List.mem_cons_self d hd)
    · obtain ⟨v, hv, hc⟩ := List.mem_flatten.1 hc
      obtain ⟨u, hu, rfl⟩ := List.mem_map.1 hv
      exact isAlphanum_of_mem_capitalize (hmem u (List.mem_cons_of_mem w hu)) hc

/-- **Resources are named by letters and digits.** -/
theorem isAlphanum_of_mem_resourceName {path : List Char} {c : Char}
    (hc : c ∈ resourceName path) : c.isAlphanum = true := by
  obtain ⟨w, hw, hc⟩ := List.mem_flatten.1 hc
  obtain ⟨v, hv, rfl⟩ := List.mem_map.1 hw
  exact isAlphanum_of_mem_capitalize (fun d hd => isAlphanum_of_mem_splitWords hv hd) hc

/-! ### Extensions -/

theorem slash_notMem_bareExtension {extension : String} (h : '/' ∉ extension.toList) :
    '/' ∉ (bareExtension extension).toList := by
  rw [bareExtension, String.toList_ofList]
  exact fun hmem => h ((List.dropWhile_sublist _).mem hmem)

/-- An extension is written as it is given exactly if no point is in front of it. -/
theorem bareExtension_eq_iff {extension : String} :
    bareExtension extension = extension ↔ extension.toList.head? ≠ some '.' := by
  rw [← String.toList_inj, bareExtension, String.toList_ofList]
  cases extension.toList with
  | nil => simp
  | cons c cs => simp [List.dropWhile_eq_self_iff]

end ApiScaffold.Naming
