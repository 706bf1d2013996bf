import ApiScaffold.Draft.Operation
import Mathlib.Tactic

/-!
# References in two documents

A chain of references is followed through one document as it is through another if every reference
leads to values that serve alike: they refer to the same, they have the same content, and they are
the same parameter.

* `Interchangeable` says when two values serve alike where a reference leads;
* `SameTargets`: the references of a document lead to such values in another one too;
* `follow_of_sameTargets`: then a chain of references ends alike.
-/

namespace ApiScaffold.Reference

/-- Two values of which a reference may lead to either: all that is asked of its target is the
same. -/
structure Interchangeable (v w : Value) : Prop where
  link_eq : link v = link w
  content_eq : Value.present? (v.field? "content") = Value.present? (w.field? "content")
  name_eq : Value.present? (v.field? "name") = Value.present? (w.field? "name")
  parameter_eq : Value.present? (v.field? "name") ≠ none →
    v.field? "in" = w.field? "in" ∧ v.field? "required" = w.field? "required"

/-- Values with the same fields are interchangeable. -/
theorem interchangeable_of_fields {v w : Value} (h : ∀ k, v.field? k = w.field? k) :
    Interchangeable v w where
  link_eq := by rw [link, link, h]
  content_eq := by rw [h]
  name_eq := by rw [h]
  parameter_eq _ := ⟨h _, h _⟩

theorem Interchangeable.refl (v : Value) : Interchangeable v v :=
  interchangeable_of_fields fun _ => rfl

/-- Through the same fields keys lead to the same values, or no further than the two values. -/
theorem descend_of_fields {v w u : Value} (h : ∀ k, v.field? k = w.field? k) {ks : List String}
    (hd : descend ks v = some u) : ∃ u', descend ks w = some u' ∧ Interchangeable u u' := by
  cases ks with
  | nil =>
    obtain rfl := Option.some.inj hd
    exact ⟨w, rfl, interchangeable_of_fields h⟩
  | cons k ks =>
    rw [descend, h] at hd
    exact ⟨u, hd, .refl u⟩

theorem resolve_eq_ok {doc w : Value} {ref : String} :
    resolve doc ref = .ok w ↔ ∃ ks, keys? ref = some ks ∧ descend ks doc = some w := by
  unfold resolve
  cases keys? ref with
  | none => simp
  | some ks => cases hd : descend ks doc <;> simp [hd]

/-- Wherever a reference of the first document leads, it leads in the second one to a value that is
interchangeable. -/
def SameTargets (doc doc' : Value) : Prop :=
  ∀ ref ∈ references doc, ∀ w, resolve doc ref = .ok w →
    ∃ w', resolve doc' ref = .ok w' ∧ Interchangeable w w'

section Follow

variable {doc start v w : Value} {seen : List String} {ref : String}
  {known : references v ⊆ references start ++ references doc}

theorem followFrom_of_none (h : link v = .none) : followFrom doc start seen v known = .ok v := by
  rw [followFrom]
  split <;> simp_all

theorem followFrom_of_to (h : link v = .to ref) (hfresh : ref ∉ seen)
    (hfound : resolve doc ref = .ok w) :
    followFrom doc start seen v known = followFrom doc start (ref :: seen) w
      (List.Subset.trans (references_subset_of_resolve hfound) (List.subset_append_right _ _)) := by
  conv_lhs => rw [followFrom]
  split
  · simp_all
  · simp_all
  · rename_i ref' href
    obtain rfl : ref = ref' := by simpa [h] using href
    rw [dif_neg hfresh]
    split
    · simp_all
    · rename_i w' hw'
      obtain rfl := Except.ok.inj (hfound.symm.trans hw')
      rfl

end Follow

/-- A chain of references ends alike in both documents. -/
theorem followFrom_of_sameTargets {doc doc' start start' : Value} (h : SameTargets doc doc')
    {seen : List String} {v v' w : Value} {known known'} (hv : references v ⊆ references doc)
    (hvv : Interchangeable v v') (hw : followFrom doc start seen v known = .ok w) :
    ∃ w', followFrom doc' start' seen v' known' = .ok w' ∧ Interchangeable w w' := by
  fun_induction followFrom doc start seen v known generalizing v' with
  | case1 seen v known hlink =>
    obtain rfl := Except.ok.inj hw
    exact ⟨v', followFrom_of_none (hvv.link_eq ▸ hlink), hvv⟩
  | case2 => cases hw
  | case3 => cases hw
  | case4 => cases hw
  | case5 seen v known ref hlink hfresh u hfound ih =>
    obtain ⟨u', hfound', huu⟩ := h ref (hv (mem_references_of_link hlink)) u hfound
    rw [followFrom_of_to (hvv.link_eq ▸ hlink) hfresh hfound']
    exact ih (references_subset_of_resolve hfound) huu hw

theorem follow_of_sameTargets {doc doc' v w : Value} (h : SameTargets doc doc')
    (hv : references v ⊆ references doc) (hw : follow doc v = .ok w) :
    ∃ w', follow doc' v = .ok w' ∧ Interchangeable w w' :=
  followFrom_of_sameTargets h hv (.refl v) hw

/-! ### References of parts -/

theorem references_subset_of_mem {e : Scalar × Value} {es : Entries} (h : e ∈ es) :
    references e.2 ⊆ entryReferences es := by
  induction es with
  | nil => cases h
  | cons f es ih =>
    rw [entryReferences]
    rcases List.mem_cons.1 h with rfl | h
    · obtain ⟨k, v⟩ := e
      rw [referencesOfEntry]
      exact List.subset_append_left _ _
    · exact List.subset_append_of_subset_right _ (ih h)

theorem references_subset_of_mem_entries {v : Value} {es : Entries} (h : v.entries? = some es)
    {e : Scalar × Value} (he : e ∈ es) : references e.2 ⊆ references v :=
  List.Subset.trans (references_subset_of_mem he)
    (List.Subset.trans (List.subset_append_right _ _) (entryReferences_subset h))

theorem references_subset_of_mem_items {v : Value} {items : List Value} (h : v ∈ items) :
    references v ⊆ itemReferences items := by
  induction items with
  | nil => cases h
  | cons w items ih =>
    rw [itemReferences]
    rcases List.mem_cons.1 h with rfl | h
    · exact List.subset_append_left _ _
    · exact List.subset_append_of_subset_right _ (ih h)

/-- A part of a value holds no reference that the value does not hold. -/
theorem references_subset_of_parts {v w : Value} {vs : List Value} (h : Draft.parts? v = some vs)
    (hw : w ∈ vs) : references w ⊆ references v := by
  rw [← references_content v]
  unfold Draft.parts? at h
  split at h
  all_goals cases h
  · rename_i items hitems
    rw [hitems, references]
    exact references_subset_of_mem_items hw
  · obtain ⟨e, -, rfl⟩ := List.mem_map.1 hw
    exact List.nil_subset _
  · obtain ⟨k, -, rfl⟩ := List.mem_map.1 hw
    exact List.nil_subset _
  · rename_i a b hpair
    rw [hpair, references]
    rcases List.mem_pair.1 hw with rfl | rfl
    · exact List.subset_append_left _ _
    · exact List.subset_append_right _ _
  · obtain ⟨c, -, rfl⟩ := List.mem_map.1 hw
    exact List.nil_subset _
  · obtain ⟨b, -, rfl⟩ := List.mem_map.1 hw
    exact List.nil_subset _

end ApiScaffold.Reference
