import ApiScaffold.Draft.Group
import Mathlib.Tactic

/-!
# Lists kept by key

`Draft.replaceOrAppend` puts a value in the place of the one with the same key, or at the end.  What
is written so, value after value, is known by its keys and by the value of each key.

* `exists_forall₂`, `forall₂_of_map_eq`, …: lists whose elements correspond;
* `eraseDups_concat`, `eraseDups_map`, `perm_eraseDups`: lists without repetition;
* `freshNames_eq`: what the collection of names leaves is each of them that was not seen, once,
  where it came first;
* `map_writeAll`, `find?_writeAll`: each key that was given stands there once, in the order in which
  the keys first came, with the value that was given last;
* `mem_writeAll_iff_last`: a value is kept exactly if its key does not come again behind it;
* `writeAll_writeAll_append`, `writeAll_append_self`: values written in two goes, or twice over, are
  written as in one go;
* `forall₂_writeAll`: what is true of the values given, pair by pair, is true of those written.
-/

namespace ApiScaffold

/-! ### Lists side by side -/

theorem exists_of_forall₂_right {α β : Type} {r : α → β → Prop} {as : List α} {bs : List β}
    (h : List.Forall₂ r as bs) {b : β} (hb : b ∈ bs) : ∃ a ∈ as, r a b := by
  induction h with
  | nil => exact (List.not_mem_nil hb).elim
  | cons hab _ ih =>
    rcases List.mem_cons.1 hb with rfl | hb
    · exact ⟨_, List.mem_cons_self .., hab⟩
    · obtain ⟨a, ha, hab'⟩ := ih hb
      exact ⟨a, List.mem_cons_of_mem _ ha, hab'⟩

theorem exists_of_forall₂_left {α β : Type} {r : α → β → Prop} {as : List α} {bs : List β}
    (h : List.Forall₂ r as bs) {a : α} (ha : a ∈ as) : ∃ b ∈ bs, r a b :=
  exists_of_forall₂_right h.flip ha

theorem forall₂_imp_mem {α β : Type} {r t : α → β → Prop} {as : List α} {bs : List β}
    (h : ∀ a ∈ as, ∀ b, r a b → t a b) (hr : List.Forall₂ r as bs) : List.Forall₂ t as bs :=
  ((List.forall₂_and_left _ _).2 ⟨h, hr⟩).imp fun _ b hab => hab.1 b hab.2

theorem forall₂_congr_mem {α β : Type} {r t : α → β → Prop} {as : List α} {bs : List β}
    (h : ∀ a ∈ as, ∀ b, r a b ↔ t a b) : List.Forall₂ r as bs ↔ List.Forall₂ t as bs :=
  ⟨forall₂_imp_mem fun a ha b => (h a ha b).1, forall₂_imp_mem fun a ha b => (h a ha b).2⟩

/-- What corresponds to two lists, one behind the other, falls into two parts. -/
theorem forall₂_append_left {α β : Type} {r : α → β → Prop} {as as' : List α} {bs : List β}
    (h : List.Forall₂ r (as ++ as') bs) :
    ∃ ds ds', bs = ds ++ ds' ∧ List.Forall₂ r as ds ∧ List.Forall₂ r as' ds' :=
  ⟨bs.take as.length, bs.drop as.length, (List.take_append_drop _ _).symm,
    (List.forall₂_take_append bs as as' h.flip).flip,
    (List.forall₂_drop_append bs as as' h.flip).flip⟩

theorem exists_forall₂ {α β : Type} {r : α → β → Prop} {as : List α}
    (h : ∀ a ∈ as, ∃ b, r a b) : ∃ bs, List.Forall₂ r as bs := by
  induction as with
  | nil => exact ⟨[], .nil⟩
  | cons a as ih =>
    obtain ⟨b, hab⟩ := h a (List.mem_cons_self ..)
    obtain ⟨bs, hbs⟩ := ih fun c hc => h c (List.mem_cons_of_mem _ hc)
    exact ⟨b :: bs, .cons hab hbs⟩

theorem map_eq_of_forall₂ {α β κ : Type} {f : α → κ} {g : β → κ} {as : List α} {bs : List β}
    (h : List.Forall₂ (fun a b => f a = g b) as bs) : as.map f = bs.map g := by
  rwa [← List.forall₂_eq_eq_eq, List.forall₂_map_left_iff, List.forall₂_map_right_iff]

theorem forall₂_of_map_eq {α β κ : Type} {r : α → β → Prop} {f : α → κ} {g : β → κ} {as : List α}
    {bs : List β} (h : as.map f = bs.map g) (hr : ∀ a ∈ as, ∀ b ∈ bs, f a = g b → r a b) :
    List.Forall₂ r as bs := by
  induction as generalizing bs with
  | nil =>
    obtain rfl := List.map_eq_nil_iff.1 h.symm
    exact .nil
  | cons a as ih =>
    cases bs with
    | nil => cases h
    | cons b bs =>
      obtain ⟨hab, hrest⟩ := List.cons.inj h
      refine .cons (hr a (List.mem_cons_self ..) b (List.mem_cons_self ..) hab) (ih hrest ?_)
      exact fun c hc d hd => hr c (List.mem_cons_of_mem _ hc) d (List.mem_cons_of_mem _ hd)

theorem exists_forall₂_of_perm {α β : Type} {r : α → β → Prop} {as as' : List α} {bs : List β}
    (h : List.Forall₂ r as bs) (hperm : as.Perm as') :
    ∃ bs', List.Forall₂ r as' bs' ∧ bs.Perm bs' := by
  obtain ⟨bs', hbs', hperm'⟩ := List.perm_comp_forall₂ hperm.symm h
  exact ⟨bs', hbs', hperm'.symm⟩

namespace Draft

/-! ### Lists without repetition -/

theorem nodup_eraseDups {κ : Type} [BEq κ] [LawfulBEq κ] (ks : List κ) : ks.eraseDups.Nodup := by
  induction hn : ks.length using Nat.strong_induction_on generalizing ks with
  | _ n ih =>
    cases ks with
    | nil => simp
    | cons k ks =>
      rw [List.eraseDups_cons, List.nodup_cons]
      refine ⟨by simp [List.mem_eraseDups], ih _ ?_ _ rfl⟩
      have hlen := List.length_filter_le (fun b => !b == k) ks
      rw [← hn, List.length_cons]
      omega

theorem eraseDups_of_nodup {κ : Type} [BEq κ] [LawfulBEq κ] {ks : List κ} (h : ks.Nodup) :
    ks.eraseDups = ks := by
  induction ks with
  | nil => rfl
  | cons k ks ih =>
    obtain ⟨hk, hks⟩ := List.nodup_cons.1 h
    have hfilter : ks.filter (fun b => !b == k) = ks := by
      refine List.filter_eq_self.2 fun b hb => ?_
      simpa using ne_of_mem_of_not_mem hb hk
    rw [List.eraseDups_cons, hfilter, ih hks]

theorem eraseDups_append_of_subset {κ : Type} [BEq κ] [LawfulBEq κ] {ks ls : List κ}
    (h : ls ⊆ ks) : (ks ++ ls).eraseDups = ks.eraseDups := by
  have hnil : ls.removeAll ks = [] := by
    refine List.filter_eq_nil_iff.2 fun l hl => ?_
    simpa using h hl
  rw [List.eraseDups_append, hnil, List.eraseDups_nil, List.append_nil]

theorem eraseDups_concat {κ : Type} [BEq κ] [LawfulBEq κ] (ks : List κ) (k : κ)
    [Decidable (k ∈ ks)] :
    (ks ++ [k]).eraseDups = if k ∈ ks then ks.eraseDups else ks.eraseDups ++ [k] := by
  split_ifs with hmem
  · exact eraseDups_append_of_subset (by simpa using hmem)
  · have hnew : [k].removeAll ks = [k] := List.filter_eq_self.2 (by simpa using hmem)
    rw [List.eraseDups_append, hnew, eraseDups_of_nodup (List.nodup_singleton _)]

theorem eraseDups_append_eraseDups {κ : Type} [BEq κ] [LawfulBEq κ] (ks ls : List κ) :
    (ks.eraseDups ++ ls.eraseDups).eraseDups = (ks ++ ls).eraseDups := by
  classical
  induction ls using List.reverseRecOn with
  | nil => simp [eraseDups_of_nodup (nodup_eraseDups ks)]
  | append_singleton ls l ih =>
    rw [eraseDups_concat ls, ← List.append_assoc, eraseDups_concat (ks ++ ls), ← ih]
    by_cases hl : l ∈ ls
    · rw [if_pos hl, if_pos (List.mem_append_right _ hl)]
    · rw [if_neg hl, ← List.append_assoc, eraseDups_concat]
      simp only [List.mem_append, List.mem_eraseDups]

theorem eraseDups_map {ι κ : Type} [DecidableEq ι] [DecidableEq κ] {f : ι → κ}
    (hf : Function.Injective f) (is : List ι) : (is.map f).eraseDups = is.eraseDups.map f := by
  induction is using List.reverseRecOn with
  | nil => rfl
  | append_singleton is i ih =>
    rw [List.map_append, List.map_singleton, eraseDups_concat, eraseDups_concat, ih]
    simp only [List.mem_map_of_injective hf]
    split_ifs
    · rfl
    · rw [List.map_append, List.map_singleton]

theorem perm_eraseDups {κ : Type} [BEq κ] [LawfulBEq κ] {ks ls : List κ} (h : ks.Perm ls) :
    ks.eraseDups.Perm ls.eraseDups := by
  rw [List.perm_ext_iff_of_nodup (nodup_eraseDups ks) (nodup_eraseDups ls)]
  intro k
  rw [List.mem_eraseDups, List.mem_eraseDups, h.mem_iff]

/-! ### Collecting names -/

/-- Names are collected once each, where they come first, without those that were seen. -/
theorem freshNames_eq (seen ns : List String) :
    freshNames seen ns = (ns.filter fun n => !seen.contains n).eraseDups := by
  -- The set of names that were seen grows along the list.
  induction ns generalizing seen with
  | nil => rfl
  | cons n ns ih =>
    rw [freshNames]
    by_cases hn : seen.contains n = true
    · rw [if_pos hn, ih, List.filter_cons_of_neg (by simpa using hn)]
    · have hsplit : (ns.filter fun k => !(n :: seen).contains k) =
          (ns.filter fun k => !seen.contains k).filter fun k => !k == n := by
        rw [List.filter_filter]
        refine List.filter_congr fun k _ => ?_
        rw [List.contains_cons, Bool.not_or]
      rw [if_neg hn, ih, List.filter_cons_of_pos (by simpa using hn), List.eraseDups_cons, hsplit]

theorem mem_freshNames {seen ns : List String} {n : String} :
    n ∈ freshNames seen ns ↔ n ∈ ns ∧ n ∉ seen := by
  rw [freshNames_eq, List.mem_eraseDups, List.mem_filter]
  simp

/-- Imports are collected as their names are. -/
theorem firstByName_map {toImport : String → Import} (hname : ∀ n, (toImport n).name = n)
    (seen ns : List String) :
    firstByName seen (ns.map toImport) = (freshNames seen ns).map toImport := by
  induction ns generalizing seen with
  | nil => rfl
  | cons n ns ih =>
    rw [List.map_cons, firstByName, freshNames, hname]
    split_ifs
    · exact ih seen
    · rw [List.map_cons, ih]

section Keyed

variable {α κ : Type} {key : α → κ} {same : α → α → Bool} {a : α} {as bs : List α}

/-! ### Putting a value in its place -/

theorem mem_replaceOrAppend {x : α} {as : List α} (hx : x ∈ replaceOrAppend same a as) :
    x = a ∨ x ∈ as := by
  induction as with
  | nil => exact Or.inl (List.mem_singleton.1 hx)
  | cons b bs ih =>
    rw [replaceOrAppend] at hx
    split_ifs at hx
    · rcases List.mem_cons.1 hx with rfl | hx
      · exact Or.inl rfl
      · exact Or.inr (List.mem_cons_of_mem _ hx)
    · rcases List.mem_cons.1 hx with rfl | hx
      · exact Or.inr (List.mem_cons_self ..)
      · exact (ih hx).imp_right (List.mem_cons_of_mem _)

theorem replaceOrAppend_of_notMem (h : ∀ b, same b a = true ↔ key b = key a)
    (hk : key a ∉ as.map key) : replaceOrAppend same a as = as ++ [a] := by
  induction as with
  | nil => rfl
  | cons b bs ih =>
    rw [List.map_cons, List.mem_cons, not_or] at hk
    rw [replaceOrAppend, if_neg fun hs => hk.1 ((h b).1 hs).symm, ih hk.2, List.cons_append]

/-- Lists whose elements correspond keep corresponding, if what corresponds is told apart alike. -/
theorem forall₂_replaceOrAppend {r : α → α → Prop}
    (hr : ∀ a b c d, r a b → r c d → (key c = key a ↔ key d = key b)) {b : α}
    (ha : ∀ c, same c a = true ↔ key c = key a) (hb : ∀ c, same c b = true ↔ key c = key b)
    (hab : r a b) (h : List.Forall₂ r as bs) :
    List.Forall₂ r (replaceOrAppend same a as) (replaceOrAppend same b bs) := by
  induction h with
  | nil => exact .cons hab .nil
  | @cons c d cs ds hcd hrest ih =>
    rw [replaceOrAppend, replaceOrAppend]
    by_cases hc : key c = key a
    · have hd : key d = key b := (hr _ _ _ _ hab hcd).1 hc
      rw [if_pos ((ha c).2 hc), if_pos ((hb d).2 hd)]
      exact .cons hab hrest
    · have hd : key d ≠ key b := fun hd => hc ((hr _ _ _ _ hab hcd).2 hd)
      rw [if_neg fun hs => hc ((ha c).1 hs), if_neg fun hs => hd ((hb d).1 hs)]
      exact .cons hcd ih

section Keys

variable [DecidableEq κ]

/-- A known key keeps its place, a new one comes last. -/
theorem map_replaceOrAppend (h : ∀ b, same b a = true ↔ key b = key a) (as : List α) :
    (replaceOrAppend same a as).map key =
      if key a ∈ as.map key then as.map key else as.map key ++ [key a] := by
  induction as with
  | nil => rfl
  | cons b bs ih =>
    rw [replaceOrAppend]
    by_cases hb : key b = key a
    · rw [if_pos ((h b).2 hb)]
      simp [hb]
    · rw [if_neg fun hs => hb ((h b).1 hs), List.map_cons, List.map_cons, ih]
      by_cases hm : key a ∈ bs.map key
      · rw [if_pos hm, if_pos (List.mem_cons_of_mem _ hm)]
      · have hm' : key a ∉ key b :: bs.map key := fun hin =>
          (List.mem_cons.1 hin).elim (fun he => hb he.symm) hm
        rw [if_neg hm, if_neg hm', List.cons_append]

/-- The value is found under its key, and under the other keys nothing changes. -/
theorem find?_replaceOrAppend (h : ∀ b, same b a = true ↔ key b = key a) (k : κ) (as : List α) :
    (replaceOrAppend same a as).find? (fun b => key b = k) =
      if key a = k then some a else as.find? fun b => key b = k := by
  induction as with
  | nil => by_cases hk : key a = k <;> simp [replaceOrAppend, hk]
  | cons b bs ih =>
    rw [replaceOrAppend]
    by_cases hb : key b = key a
    · rw [if_pos ((h b).2 hb), List.find?_cons, List.find?_cons, hb]
      by_cases hk : key a = k <;> simp [hk]
    · rw [if_neg fun hs => hb ((h b).1 hs), List.find?_cons, List.find?_cons, ih]
      by_cases hk : key b = k
      · have hak : key a ≠ k := fun hak => hb (hk.trans hak.symm)
        simp [hk, hak]
      · simp [hk]

end Keys

/-! ### Writing one value after the other -/

/-- The values written one after the other, each in its place. -/
def writeAll (same : α → α → Bool) (as : List α) : List α :=
  as.foldl (fun acc a => replaceOrAppend same a acc) []

/-- Every value of a list is told apart by its key. -/
def Tells (same : α → α → Bool) (key : α → κ) (as : List α) : Prop :=
  ∀ a ∈ as, ∀ b, same b a = true ↔ key b = key a

theorem Tells.append (ha : Tells same key as) (hb : Tells same key bs) :
    Tells same key (as ++ bs) := fun a h =>
  (List.mem_append.1 h).elim (ha a) (hb a)

theorem writeAll_concat (as : List α) (a : α) :
    writeAll same (as ++ [a]) = replaceOrAppend same a (writeAll same as) := by
  simp [writeAll]

theorem mem_of_mem_writeAll {x : α} (hx : x ∈ writeAll same as) : x ∈ as := by
  induction as using List.reverseRecOn with
  | nil => exact hx
  | append_singleton as a ih =>
    rw [writeAll_concat] at hx
    rcases mem_replaceOrAppend hx with rfl | hx
    · exact List.mem_append_right _ (List.mem_singleton_self _)
    · exact List.mem_append_left _ (ih hx)

/-- Values of different keys are all kept. -/
theorem writeAll_of_nodup (h : Tells same key as) (hnd : (as.map key).Nodup) :
    writeAll same as = as := by
  induction as using List.reverseRecOn with
  | nil => rfl
  | append_singleton as a ih =>
    rw [List.map_append, List.map_singleton, List.nodup_append] at hnd
    have hkey : key a ∉ as.map key := fun hmem =>
      hnd.2.2 _ hmem _ (List.mem_singleton_self _) rfl
    rw [writeAll_concat, ih (fun b hb => h b (by simp [hb])) hnd.1,
      replaceOrAppend_of_notMem (h a (by simp)) hkey]

theorem forall₂_writeAll {r : α → α → Prop}
    (hr : ∀ a b c d, r a b → r c d → (key c = key a ↔ key d = key b))
    (ha : Tells same key as) (hb : Tells same key bs) (h : List.Forall₂ r as bs) :
    List.Forall₂ r (writeAll same as) (writeAll same bs) := by
  have hfold : ∀ {as bs : List α}, List.Forall₂ r as bs → Tells same key as → Tells same key bs →
      ∀ {cs ds : List α}, List.Forall₂ r cs ds →
        List.Forall₂ r (as.foldl (fun acc a => replaceOrAppend same a acc) cs)
          (bs.foldl (fun acc b => replaceOrAppend same b acc) ds) := by
    intro as bs h ha hb
    induction h with
    | nil => exact id
    | cons hab _ ih =>
      intro cs ds hcd
      refine ih (fun a hmem => ha a (List.mem_cons_of_mem _ hmem))
        (fun b hmem => hb b (List.mem_cons_of_mem _ hmem)) ?_
      exact forall₂_replaceOrAppend hr (ha _ (List.mem_cons_self ..))
        (hb _ (List.mem_cons_self ..)) hab hcd
  exact hfold h ha hb .nil

variable [DecidableEq κ]

/-- Each key is there once, in the order in which the keys first came. -/
theorem map_writeAll (h : Tells same key as) :
    (writeAll same as).map key = (as.map key).eraseDups := by
  induction as using List.reverseRecOn with
  | nil => rfl
  | append_singleton as a ih =>
    have ha : ∀ b, same b a = true ↔ key b = key a := h a (by simp)
    rw [writeAll_concat, map_replaceOrAppend ha, ih fun b hb => h b (by simp [hb]), List.map_append,
      List.map_singleton, eraseDups_concat]
    simp only [List.mem_eraseDups]

theorem exists_mem_writeAll (h : Tells same key as) (ha : a ∈ as) :
    ∃ b ∈ writeAll same as, key b = key a := by
  rw [← List.mem_map, map_writeAll h, List.mem_eraseDups]
  exact List.mem_map_of_mem ha

theorem nodup_writeAll (h : Tells same key as) : ((writeAll same as).map key).Nodup := by
  rw [map_writeAll h]
  exact nodup_eraseDups _

/-- Under each key stands the value that was given last. -/
theorem find?_writeAll (h : Tells same key as) (k : κ) :
    (writeAll same as).find? (fun b => key b = k) = as.reverse.find? fun b => key b = k := by
  induction as using List.reverseRecOn with
  | nil => rfl
  | append_singleton as a ih =>
    rw [writeAll_concat, find?_replaceOrAppend (h a (by simp)), ih fun b hb => h b (by simp [hb]),
      List.reverse_append, List.reverse_singleton, List.singleton_append, List.find?_cons]
    by_cases hk : key a = k <;> simp [hk]

theorem mem_writeAll_iff (h : Tells same key as) {a : α} :
    a ∈ writeAll same as ↔ (as.reverse.find? fun b => key b = key a) = some a := by
  rw [← find?_writeAll h]
  refine ⟨fun ha => ?_, List.mem_of_find?_eq_some⟩
  cases hf : (writeAll same as).find? fun b => key b = key a with
  | none => exact absurd (List.find?_eq_none.1 hf a ha) (by simp)
  | some b =>
    have hkey : key b = key a := by simpa using List.find?_some hf
    rw [List.inj_on_of_nodup_map (nodup_writeAll h) (List.mem_of_find?_eq_some hf) ha hkey]

/-- A value is kept exactly if its key does not come again behind it. -/
theorem mem_writeAll_iff_last (h : Tells same key as) {a : α} :
    a ∈ writeAll same as ↔
      ∃ before after, as = before ++ a :: after ∧ key a ∉ after.map key := by
  rw [mem_writeAll_iff h, List.find?_eq_some_iff_append]
  constructor
  · rintro ⟨-, after, before, has, hlater⟩
    refine ⟨before.reverse, after.reverse, ?_, fun hmem => ?_⟩
    · simpa using List.reverse_eq_iff.1 has
    · obtain ⟨b, hb, hkey⟩ := List.mem_map.1 hmem
      simpa [hkey] using hlater b (List.mem_reverse.1 hb)
  · rintro ⟨before, after, rfl, hlater⟩
    refine ⟨by simp, after.reverse, before.reverse, by simp, fun b hb => ?_⟩
    have hne : key b ≠ key a := fun hkey =>
      hlater (hkey ▸ List.mem_map_of_mem (List.mem_reverse.1 hb))
    simpa using hne

/-- A value that is written is one of the last, or one of the first whose key does not come
again. -/
theorem mem_of_mem_writeAll_append (h : Tells same key (as ++ bs)) {a : α}
    (ha : a ∈ writeAll same (as ++ bs)) : a ∈ bs ∨ a ∈ as ∧ key a ∉ bs.map key := by
  rw [mem_writeAll_iff h, List.reverse_append, List.find?_append] at ha
  rcases Option.or_eq_some_iff.1 ha with hlast | ⟨hnone, hfirst⟩
  · exact Or.inl (List.mem_reverse.1 (List.mem_of_find?_eq_some hlast))
  · refine Or.inr ⟨List.mem_reverse.1 (List.mem_of_find?_eq_some hfirst), fun hkey => ?_⟩
    obtain ⟨b, hb, hba⟩ := List.mem_map.1 hkey
    simpa [hba] using List.find?_eq_none.1 hnone b (List.mem_reverse.2 hb)

/-- A value that is written is one of the first, or one of the last, which stands there whatever was
written before. -/
theorem mem_writeAll_append (h : Tells same key (as ++ bs)) {a : α}
    (ha : a ∈ writeAll same (as ++ bs)) :
    a ∈ as ∨ ∀ cs, Tells same key (cs ++ bs) → a ∈ writeAll same (cs ++ bs) := by
  rw [mem_writeAll_iff h, List.reverse_append, List.find?_append] at ha
  rcases Option.or_eq_some_iff.1 ha with hlast | ⟨-, hfirst⟩
  · right
    intro cs hcs
    rw [mem_writeAll_iff hcs, List.reverse_append, List.find?_append, hlast]
    rfl
  · left
    exact List.mem_reverse.1 (List.mem_of_find?_eq_some hfirst)

/-- Lists with the same keys, each once, and the same value under each key are the same. -/
theorem eq_of_keys (hkeys : as.map key = bs.map key) (hnd : (as.map key).Nodup)
    (hfind : ∀ k, as.find? (fun b => key b = k) = bs.find? fun b => key b = k) : as = bs := by
  induction as generalizing bs with
  | nil => exact (List.map_eq_nil_iff.1 hkeys.symm).symm
  | cons a as ih =>
    cases bs with
    | nil => cases hkeys
    | cons b bs =>
      obtain ⟨hab, htail⟩ := List.cons.inj hkeys
      have hfirst : a = b := by simpa [← hab] using hfind (key a)
      subst hfirst
      obtain ⟨ha, hnd'⟩ := List.nodup_cons.1 hnd
      rw [ih htail hnd' fun k => ?_]
      by_cases hk : key a = k
      · -- The first key is in neither rest.
        have hnot : ∀ cs : List α, key a ∉ cs.map key → cs.find? (fun b => key b = k) = none := by
          intro cs hcs
          refine List.find?_eq_none.2 fun c hc => ?_
          have hne : key c ≠ key a := fun heq => hcs (heq ▸ List.mem_map_of_mem hc)
          simpa [← hk] using hne
        rw [hnot as ha, hnot bs (htail ▸ ha)]
      · simpa [hk] using hfind k

/-- Values may be written in two goes. -/
theorem writeAll_writeAll_append (h : Tells same key as) :
    writeAll same (writeAll same as ++ bs) = writeAll same (as ++ bs) := by
  have hself : writeAll same (writeAll same as) = writeAll same as :=
    writeAll_of_nodup (fun a ha => h a (mem_of_mem_writeAll ha)) (nodup_writeAll h)
  unfold writeAll at hself ⊢
  rw [List.foldl_append, List.foldl_append, hself]

/-- Writing the same values once more changes nothing. -/
theorem writeAll_append_self (ha : Tells same key as) (hb : Tells same key bs) :
    writeAll same (as ++ bs ++ bs) = writeAll same (as ++ bs) := by
  have hab := ha.append hb
  have habb := hab.append hb
  refine eq_of_keys ?_ (nodup_writeAll habb) fun k => ?_
  · rw [map_writeAll habb, map_writeAll hab, List.map_append, eraseDups_append_of_subset]
    rw [List.map_append]
    exact List.subset_append_right _ _
  · rw [find?_writeAll habb, find?_writeAll hab]
    simp only [List.reverse_append, List.find?_append]
    cases bs.reverse.find? fun b => decide (key b = k) <;> simp

end Keyed

end Draft

end ApiScaffold
