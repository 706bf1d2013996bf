import ApiScaffold.Proofs.Keyed
import ApiScaffold.Store

/-!
# What insertions leave in a store

* `mem_insertAll`, `find?_insertAll`: what is stored after several insertions;
* `insertAll_writeAll`: an earlier value of a name may be left out if a later one follows, so that
  each name need be inserted only once.
-/

namespace ApiScaffold.Store

variable {α : Type} {name : α → String} {n m : String} {a b : α}

theorem mem_put {es : List (String × α)} {e : String × α} (h : e ∈ put n a es) :
    e = (n, a) ∨ e ∈ es := by
  induction es with
  | nil => exact Or.inl (List.mem_singleton.1 h)
  | cons b bs ih =>
    obtain ⟨m, b⟩ := b
    rw [put] at h
    split_ifs at h with hm
    · rcases List.mem_cons.1 h with rfl | h
      · exact Or.inl (by rw [hm])
      · exact Or.inr (List.mem_cons_of_mem _ h)
    · rcases List.mem_cons.1 h with rfl | h
      · exact Or.inr (List.mem_cons_self ..)
      · exact (ih h).imp_right (List.mem_cons_of_mem _)

theorem mem_insertAll {as : List α} {s : Store α} {e : String × α}
    (h : e ∈ (s.insertAll name as).entries) : e ∈ s.entries ∨ e.2 ∈ as ∧ e.1 = name e.2 := by
  induction as generalizing s with
  | nil => exact Or.inl h
  | cons a as ih =>
    rcases @ih (s.insert (name a) a) h with h | ⟨h, hname⟩
    · rcases mem_put h with rfl | h
      · exact Or.inr ⟨List.mem_cons_self .., rfl⟩
      · exact Or.inl h
    · exact Or.inr ⟨List.mem_cons_of_mem _ h, hname⟩

theorem mem_of_find? {s : Store α} (h : s.find? n = some a) : (n, a) ∈ s.entries := by
  obtain ⟨before, after, hentries, -⟩ := List.lookup_eq_some_iff.1 h
  rw [hentries]
  exact List.mem_append_right _ (List.mem_cons_self ..)

/-! ### Inserting again -/

theorem put_put (n : String) (a b : α) (es : List (String × α)) :
    put n b (put n a es) = put n b es := by
  induction es with
  | nil => simp [put]
  | cons e es ih =>
    obtain ⟨k, c⟩ := e
    by_cases hk : k = n
    · simp [put, hk]
    · simp [put, hk, ih]

/-- A name that is there already is written before or after another one. -/
theorem put_comm (hnm : n ≠ m) {es : List (String × α)} (hn : n ∈ es.map (·.1)) :
    put n a (put m b es) = put m b (put n a es) := by
  induction es with
  | nil => cases hn
  | cons e es ih =>
    obtain ⟨k, c⟩ := e
    by_cases hk : k = n
    · have hkm : k ≠ m := hk ▸ hnm
      simp [put, hk, hnm]
    · have hrest : n ∈ es.map (·.1) := (List.mem_cons.1 hn).resolve_left (Ne.symm hk)
      by_cases hkm : k = m
      · simp [put, hkm, hnm.symm]
      · simp [put, hk, hkm, ih hrest]

theorem insert_insert (s : Store α) (n : String) (a b : α) :
    (s.insert n a).insert n b = s.insert n b :=
  congrArg Store.mk (put_put n a b s.entries)

theorem insert_comm {s : Store α} (hnm : n ≠ m) (hn : n ∈ s.names) :
    (s.insert m b).insert n a = (s.insert n a).insert m b :=
  congrArg Store.mk (put_comm hnm hn)

theorem mem_names_insert (s : Store α) (n : String) (a : α) : n ∈ (s.insert n a).names := by
  rw [names_insert]
  split_ifs with h
  · exact h
  · exact List.mem_append_right _ (List.mem_singleton_self _)

/-! ### Inserting several values -/

theorem insertAll_cons (s : Store α) (a : α) (as : List α) :
    s.insertAll name (a :: as) = (s.insert (name a) a).insertAll name as := rfl

theorem insertAll_append (s : Store α) (as bs : List α) :
    s.insertAll name (as ++ bs) = (s.insertAll name as).insertAll name bs :=
  List.foldl_append

theorem insertAll_concat (s : Store α) (as : List α) (a : α) :
    s.insertAll name (as ++ [a]) = (s.insertAll name as).insert (name a) a := by
  rw [insertAll_append]
  rfl

/-- The value that was inserted last is found. -/
theorem find?_insertAll (s : Store α) (as : List α) (n : String) :
    (s.insertAll name as).find? n = (as.reverse.find? fun a => name a = n).or (s.find? n) := by
  induction as using List.reverseRecOn with
  | nil => rfl
  | append_singleton as a ih =>
    rw [insertAll_concat, find?_insert, ih, List.reverse_append, List.reverse_singleton,
      List.singleton_append, List.find?_cons]
    by_cases hn : n = name a
    · simp [hn]
    · simp [hn, Ne.symm hn]

/-- Of values of different names each is found. -/
theorem find?_insertAll_of_mem (s : Store α) {as : List α} (hnd : (as.map name).Nodup)
    (ha : a ∈ as) : (s.insertAll name as).find? (name a) = some a := by
  rw [find?_insertAll]
  cases hf : as.reverse.find? fun b => name b = name a with
  | none => exact absurd (List.find?_eq_none.1 hf a (List.mem_reverse.2 ha)) (by simp)
  | some b =>
    have hname : name b = name a := by simpa using List.find?_some hf
    have hb : b ∈ as := List.mem_reverse.1 (List.mem_of_find?_eq_some hf)
    rw [List.inj_on_of_nodup_map hnd hb ha hname]
    rfl

theorem find?_insertAll_of_notMem (s : Store α) {as : List α} (hn : n ∉ as.map name) :
    (s.insertAll name as).find? n = s.find? n := by
  have hnone : (as.reverse.find? fun a => name a = n) = none := by
    refine List.find?_eq_none.2 fun a ha => ?_
    have hne : name a ≠ n := fun h => hn (List.mem_map.2 ⟨a, List.mem_reverse.1 ha, h⟩)
    simpa using hne
  rw [find?_insertAll, hnone]
  rfl

theorem mem_of_find?_insertAll_empty {as : List α}
    (h : (Store.empty.insertAll name as).find? n = some a) : a ∈ as ∧ name a = n := by
  have hfind : (as.reverse.find? fun a => name a = n) = some a := by
    have hnone : (Store.empty : Store α).find? n = none := rfl
    rwa [find?_insertAll, hnone, Option.or_none] at h
  exact ⟨List.mem_reverse.1 (List.mem_of_find?_eq_some hfind), by simpa using List.find?_some hfind⟩

theorem names_insertAll_empty (as : List α) :
    (Store.empty.insertAll name as).names = (as.map name).eraseDups := by
  induction as using List.reverseRecOn with
  | nil => rfl
  | append_singleton as a ih =>
    rw [insertAll_concat, names_insert, ih, List.map_append, List.map_singleton,
      Draft.eraseDups_concat]
    simp only [List.mem_eraseDups]

/-- Values are stored in an empty store under their own names. -/
theorem map_name_values_insertAll_empty (as : List α) :
    (Store.empty.insertAll name as).values.map name = (Store.empty.insertAll name as).names := by
  rw [values, names, List.map_map]
  refine List.map_congr_left fun e he => ?_
  rcases mem_insertAll he with he | ⟨-, hname⟩
  · cases he
  · exact hname.symm

/-- Values are stored in an empty store under their own names, each name once. -/
theorem nodup_values_insertAll_empty (as : List α) :
    ((Store.empty.insertAll name as).values.map name).Nodup := by
  rw [map_name_values_insertAll_empty, names_insertAll_empty]
  exact Draft.nodup_eraseDups _

theorem mem_of_mem_values_insertAll_empty {as : List α}
    (h : a ∈ (Store.empty.insertAll name as).values) : a ∈ as := by
  obtain ⟨e, he, rfl⟩ := List.mem_map.1 h
  rcases mem_insertAll he with he | ⟨hmem, -⟩
  · cases he
  · exact hmem

/-- Whether two values have the same name. -/
def named (name : α → String) (a b : α) : Bool := name a = name b

theorem named_iff : named name a b = true ↔ name a = name b := decide_eq_true_iff

theorem tells_named (name : α → String) (as : List α) : Draft.Tells (named name) name as :=
  fun _ _ _ => named_iff

theorem insertAll_insert {s : Store α} {as : List α} (hn : n ∈ s.names) (has : n ∉ as.map name) :
    (s.insertAll name as).insert n a = (s.insert n a).insertAll name as := by
  induction as generalizing s with
  | nil => rfl
  | cons b as ih =>
    rw [List.map_cons, List.mem_cons, not_or] at has
    have hn' : n ∈ (s.insert (name b) b).names := by
      rw [names_insert]
      split_ifs
      · exact hn
      · exact List.mem_append_left _ hn
    rw [insertAll_cons, ih hn' has.2, insert_comm has.1 hn, insertAll_cons]

/-- A value may take the place of an earlier one of its name before both are stored. -/
theorem insertAll_replaceOrAppend {s : Store α} {as : List α} (hnd : (as.map name).Nodup) :
    s.insertAll name (Draft.replaceOrAppend (named name) a as) =
      (s.insertAll name as).insert (name a) a := by
  induction as generalizing s with
  | nil => rfl
  | cons b as ih =>
    obtain ⟨hb, hnd⟩ := List.nodup_cons.1 hnd
    rw [Draft.replaceOrAppend]
    by_cases hba : name b = name a
    · rw [if_pos (named_iff.2 hba), insertAll_cons, insertAll_cons, hba,
        insertAll_insert (mem_names_insert s _ b) (hba ▸ hb), insert_insert]
    · rw [if_neg fun h => hba (named_iff.1 h), insertAll_cons, insertAll_cons, ih hnd]

/-- **Only the last value of each name need be stored**, in the place of the first. -/
theorem insertAll_writeAll (s : Store α) (as : List α) :
    s.insertAll name (Draft.writeAll (named name) as) = s.insertAll name as := by
  induction as using List.reverseRecOn with
  | nil => rfl
  | append_singleton as a ih =>
    rw [Draft.writeAll_concat, insertAll_concat,
      insertAll_replaceOrAppend (Draft.nodup_writeAll (tells_named name as)), ih]

/-- Values that were inserted are inserted again without effect. -/
theorem insertAll_insertAll_self (s : Store α) {as : List α} (hnd : (as.map name).Nodup) :
    (s.insertAll name as).insertAll name as = s.insertAll name as := by
  have htells := tells_named name as
  have htwice : Draft.writeAll (named name) (as ++ as) = as := by
    have h := Draft.writeAll_append_self (tells_named name []) htells
    rwa [List.nil_append, Draft.writeAll_of_nodup htells hnd] at h
  rw [← insertAll_append, ← insertAll_writeAll, htwice]

/-! ### Stores side by side -/

section Corresponds

variable {β : Type} {r : α → β → Prop} {s : Store α} {t : Store β}

/-- Stores of the same names in the same order, with values that correspond. -/
def Corresponds (r : α → β → Prop) (s : Store α) (t : Store β) : Prop :=
  List.Forall₂ (fun e f => e.1 = f.1 ∧ r e.2 f.2) s.entries t.entries

theorem Corresponds.names_eq (h : Corresponds r s t) : s.names = t.names :=
  map_eq_of_forall₂ (List.Forall₂.imp (fun _ _ hef => hef.1) h)

theorem Corresponds.mono {r' : α → β → Prop} (h : Corresponds r s t) (hr : ∀ a b, r a b → r' a b) :
    Corresponds r' s t :=
  List.Forall₂.imp (fun _ _ hef => ⟨hef.1, hr _ _ hef.2⟩) h

/-- What is found in stores side by side corresponds. -/
theorem Corresponds.find? (h : Corresponds r s t) (n : String) :
    (s.find? n = none ∧ t.find? n = none) ∨
      ∃ a b, s.find? n = some a ∧ t.find? n = some b ∧ r a b := by
  obtain ⟨es⟩ := s
  obtain ⟨fs⟩ := t
  unfold Corresponds at h
  unfold Store.find?
  dsimp only at h ⊢
  induction h with
  | nil => exact Or.inl ⟨rfl, rfl⟩
  | @cons e f es fs hef _ ih =>
    obtain ⟨k, a⟩ := e
    obtain ⟨l, b⟩ := f
    obtain ⟨rfl, hab⟩ : k = l ∧ r a b := hef
    rw [List.lookup_cons, List.lookup_cons]
    by_cases hn : n = k
    · exact Or.inr ⟨a, b, by simp [hn], by simp [hn], hab⟩
    · rw [beq_eq_false_iff_ne.2 hn]
      exact ih

theorem Corresponds.insert (h : Corresponds r s t) {b : β} (hab : r a b) (n : String) :
    Corresponds r (s.insert n a) (t.insert n b) := by
  have hput : ∀ {es fs}, List.Forall₂ (fun e f => e.1 = f.1 ∧ r e.2 f.2) es fs →
      List.Forall₂ (fun e f => e.1 = f.1 ∧ r e.2 f.2) (put n a es) (put n b fs) := by
    intro es fs h
    induction h with
    | nil => exact .cons ⟨rfl, hab⟩ .nil
    | @cons e f es fs hef hrest ih =>
      obtain ⟨k, a'⟩ := e
      obtain ⟨l, b'⟩ := f
      obtain ⟨rfl, hab'⟩ : k = l ∧ r a' b' := hef
      rw [put, put]
      split_ifs
      · exact .cons ⟨rfl, hab⟩ hrest
      · exact .cons ⟨rfl, hab'⟩ ih
  exact hput h

theorem Corresponds.insertAll {nameB : β → String} {as : List α} {bs : List β}
    (h : Corresponds r s t) (has : List.Forall₂ (fun a b => name a = nameB b ∧ r a b) as bs) :
    Corresponds r (s.insertAll name as) (t.insertAll nameB bs) := by
  induction has generalizing s t with
  | nil => exact h
  | cons hab _ ih =>
    rw [insertAll_cons, insertAll_cons, hab.1]
    exact ih (h.insert hab.2 _)

end Corresponds

end ApiScaffold.Store
