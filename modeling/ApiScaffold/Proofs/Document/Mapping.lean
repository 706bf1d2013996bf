import ApiScaffold.Draft.Model
import ApiScaffold.Proofs.Keyed

/-!
# Mappings and their order

A mapping is looked up by its keys; the order of its entries shows only where it is run through.

* `find?_append`, `find?_text_iff`: what is found under a key;
* `Rearranged` relates mappings of the same keys in any order, with values that are related in turn;
* `Rearranged.exists_field`, `Rearranged.isTruthy_eq`: what does not depend on the order;
* `Rearranged.exists_entries`: the entries of one are those of the other, up to their order.
-/

namespace ApiScaffold

open Draft

/-! ### Looking up -/

theorem of_present?_eq_some {v : Option Value} {w : Value} (h : Value.present? v = some w) :
    v = some w := by
  unfold Value.present? at h
  grind

theorem isTruthy_of_present? {v : Option Value} {w : Value} (h : Value.present? v = some w) :
    w.isTruthy = true := by
  obtain rfl := of_present?_eq_some h
  simpa [Value.present?] using h

theorem present?_eq_none_iff {v : Value} : Value.present? (some v) = none ↔ v.isTruthy = false := by
  simp [Value.present?]

theorem present?_or {v w : Option Value} (hv : Value.present? v = none)
    (hw : Value.present? w = none) : Value.present? (v.or w) = none := by
  cases v with
  | none => exact hw
  | some u => exact hv

theorem isTruthy_of_entries? {v : Value} {es : Entries} (h : v.entries? = some es) :
    v.isTruthy = !es.isEmpty := by
  unfold Value.entries? at h
  fun_induction Value.content v with
  | case1 n v ih => exact ih h
  | case2 v hv =>
    cases v with
    | dict fs => rw [← Option.some.inj h, Value.isTruthy]
    | _ => cases h

/-- Entries that are not none are those of a mapping. -/
theorem entries?_of_entriesOf? {v : Option Value} {es : Entries} (h : entriesOf? v = some es)
    (hne : es ≠ []) : ∃ w, v = some w ∧ w.entries? = some es := by
  unfold entriesOf? at h
  cases hv : Value.present? v with
  | none =>
    rw [hv] at h
    exact (hne (Option.some.inj h).symm).elim
  | some w =>
    rw [hv] at h
    exact ⟨w, of_present?_eq_some hv, h⟩

/-- The fields of a value are its entries, if it has any. -/
theorem field?_of_entriesOf? {v : Value} {es : Entries} (h : entriesOf? (some v) = some es)
    (k : String) : v.field? k = Entries.find? (.text k) es := by
  cases ht : v.isTruthy with
  | true =>
    have hentries : v.entries? = some es := by simpa [entriesOf?, Value.present?, ht] using h
    rw [Value.field?, hentries, Option.bind_some]
  | false =>
    obtain rfl : [] = es := by simpa [entriesOf?, Value.present?, ht] using h
    cases hv : v.entries? with
    | none => simp [Value.field?, hv, Entries.find?]
    | some fs =>
      rw [isTruthy_of_entries? hv, Bool.not_eq_false', List.isEmpty_iff] at ht
      rw [Value.field?, hv, ht, Option.bind_some]

theorem find?_append {es fs : Entries} {key : Scalar} :
    Entries.find? key (es ++ fs) = (Entries.find? key es).or (Entries.find? key fs) := by
  induction es with
  | nil => rfl
  | cons e es ih =>
    obtain ⟨k, v⟩ := e
    rw [List.cons_append, Entries.find?, Entries.find?]
    split_ifs
    · rfl
    · exact ih

theorem exists_of_find? {es : Entries} {key : Scalar} {v : Value}
    (h : Entries.find? key es = some v) : ∃ e ∈ es, e.1.same key = true ∧ e.2 = v := by
  induction es with
  | nil => cases h
  | cons e es ih =>
    obtain ⟨k, w⟩ := e
    rw [Entries.find?] at h
    split_ifs at h with hk
    · exact ⟨(k, w), List.mem_cons_self .., hk, Option.some.inj h⟩
    · obtain ⟨e, he, h⟩ := ih h
      exact ⟨e, List.mem_cons_of_mem _ he, h⟩

/-- In a mapping without repeated keys a text key is found with each of its entries. -/
theorem find?_text_iff {es : Entries} (hnd : (es.map (·.1)).Nodup) {k : String} {v : Value} :
    Entries.find? (.text k) es = some v ↔ (.text k, v) ∈ es := by
  induction es with
  | nil => simp [Entries.find?]
  | cons e es ih =>
    obtain ⟨a, w⟩ := e
    obtain ⟨ha, hnd⟩ := List.nodup_cons.1 hnd
    rw [Entries.find?]
    by_cases hk : a = .text k
    · -- The key does not come again.
      subst hk
      have hnot : (.text k, v) ∉ es := fun hmem => ha (List.mem_map.2 ⟨_, hmem, rfl⟩)
      rw [if_pos (Scalar.same_text_iff.2 rfl)]
      simp [hnot, eq_comm]
    · rw [if_neg fun hs => hk (Scalar.same_text_iff.1 hs), ih hnd]
      simp [Ne.symm hk]

/-! ### The same entries in another order -/

/-- The same value, or mappings of the same keys in any order, under each of which stand values that
are related. -/
def Rearranged (r : Value → Value → Prop) (v w : Value) : Prop :=
  v = w ∨ ∃ es fs gs, v.entries? = some es ∧ w.entries? = some fs ∧ (es.map (·.1)).Nodup ∧
    List.Forall₂ (fun e g => e.1 = g.1 ∧ r e.2 g.2) es gs ∧ gs.Perm fs

namespace Rearranged

variable {r : Value → Value → Prop} {v w : Value}

theorem map_key_eq {es gs : Entries} (h : List.Forall₂ (fun e g => e.1 = g.1 ∧ r e.2 g.2) es gs) :
    es.map (·.1) = gs.map (·.1) :=
  map_eq_of_forall₂ (h.imp fun _ _ heg => heg.1)

theorem symm (hr : ∀ {v w}, r v w → r w v) (h : Rearranged r v w) : Rearranged r w v := by
  obtain rfl | ⟨es, fs, gs, hv, hw, hnd, hgs, hperm⟩ := h
  · exact Or.inl rfl
  · have hback : List.Forall₂ (fun g e : Scalar × Value => g.1 = e.1 ∧ r g.2 e.2) gs es :=
      hgs.flip.imp fun _ _ heg => ⟨heg.1.symm, hr heg.2⟩
    obtain ⟨hs, hhs, hperm'⟩ := List.perm_comp_forall₂ hperm.symm hback
    refine Or.inr ⟨fs, es, hs, hw, hv, ?_, hhs, hperm'⟩
    rwa [← (hperm.map (·.1)).nodup_iff, ← map_key_eq hgs]

/-- Records of the same names in any order. -/
theorem record {fs gs hs : List (String × Value)}
    (hnd : (fs.map (·.1)).Nodup) (h : List.Forall₂ (fun f g => f.1 = g.1 ∧ r f.2 g.2) fs gs)
    (hperm : gs.Perm hs) : Rearranged r (.record fs) (.record hs) := by
  refine Or.inr ⟨_, _, gs.map fun g => (.text g.1, g.2), rfl, rfl, ?_, ?_, hperm.map _⟩
  · rw [List.map_map]
    have hmap : (fs.map (·.1)).map Scalar.text = fs.map ((·.1) ∘ fun f => (Scalar.text f.1, f.2)) :=
      List.map_map
    exact hmap ▸ hnd.map fun _ _ h => Scalar.text.inj h
  · rw [List.forall₂_map_left_iff, List.forall₂_map_right_iff]
    exact h.imp fun f g hfg => ⟨congrArg Scalar.text hfg.1, hfg.2⟩

/-- The entries of a mapping are those of the other, up to their order. -/
theorem exists_entries (hrefl : ∀ v, r v v) (h : Rearranged r v w) {es : Entries}
    (hv : v.entries? = some es) :
    ∃ gs fs, w.entries? = some fs ∧
      List.Forall₂ (fun e g => e.1 = g.1 ∧ r e.2 g.2) es gs ∧ gs.Perm fs := by
  obtain rfl | ⟨es', fs, gs, hv', hw, -, hgs, hperm⟩ := h
  · exact ⟨es, es, hv, List.forall₂_same.2 fun e _ => ⟨rfl, hrefl e.2⟩, .refl es⟩
  · obtain rfl := Option.some.inj (hv.symm.trans hv')
    exact ⟨gs, fs, hw, hgs, hperm⟩

/-- A field of one is a field of the other. -/
theorem exists_field (hrefl : ∀ v, r v v) (h : Rearranged r v w) {k : String} {u : Value}
    (hu : v.field? k = some u) : ∃ u', w.field? k = some u' ∧ r u u' := by
  obtain rfl | ⟨es, fs, gs, hv, hw, hnd, hgs, hperm⟩ := h
  · exact ⟨u, hu, hrefl u⟩
  · rw [Value.field?, hv, Option.bind_some, find?_text_iff hnd] at hu
    obtain ⟨⟨key, u'⟩, hg, hkey, hrel⟩ := exists_of_forall₂_left hgs hu
    obtain rfl : .text k = key := hkey
    have hnd' : (fs.map (·.1)).Nodup := by
      rwa [← (hperm.map (·.1)).nodup_iff, ← map_key_eq hgs]
    refine ⟨u', ?_, hrel⟩
    rw [Value.field?, hw, Option.bind_some, find?_text_iff hnd']
    exact hperm.mem_iff.1 hg

/-- Mappings with the same entries in any order have the same fields. -/
theorem field?_eq (h : Rearranged Eq v w) (k : String) : v.field? k = w.field? k := by
  ext u
  constructor
  · intro hu
    obtain ⟨u', hu', rfl⟩ := h.exists_field (fun _ => rfl) hu
    exact hu'
  · intro hu
    obtain ⟨u', hu', rfl⟩ := (h.symm Eq.symm).exists_field (fun _ => rfl) hu
    exact hu'

theorem isTruthy_eq (h : Rearranged r v w) : v.isTruthy = w.isTruthy := by
  obtain rfl | ⟨es, fs, gs, hv, hw, -, hgs, hperm⟩ := h
  · rfl
  · have hlen : es.length = fs.length := hgs.length_eq.trans hperm.length_eq
    rw [isTruthy_of_entries? hv, isTruthy_of_entries? hw]
    cases es <;> cases fs <;> simp_all

/-- Entries that may be absent are those of the other, up to their order. -/
theorem exists_entriesOf? (hrefl : ∀ v, r v v) (h : Rearranged r v w) {es : Entries}
    (hv : entriesOf? (some v) = some es) :
    ∃ gs fs, entriesOf? (some w) = some fs ∧
      List.Forall₂ (fun e g => e.1 = g.1 ∧ r e.2 g.2) es gs ∧ gs.Perm fs := by
  cases ht : v.isTruthy with
  | true =>
    have hentries : v.entries? = some es := by simpa [entriesOf?, Value.present?, ht] using hv
    obtain ⟨gs, fs, hw, hgs, hperm⟩ := h.exists_entries hrefl hentries
    exact ⟨gs, fs, by simp [entriesOf?, Value.present?, ← h.isTruthy_eq, ht, hw], hgs, hperm⟩
  | false =>
    obtain rfl : [] = es := by simpa [entriesOf?, Value.present?, ht] using hv
    exact ⟨[], [], by simp [entriesOf?, Value.present?, ← h.isTruthy_eq, ht], .nil, .refl _⟩

end Rearranged

end ApiScaffold
