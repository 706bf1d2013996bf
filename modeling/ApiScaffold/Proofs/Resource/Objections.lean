import ApiScaffold.Proofs.Resource.Check

/-!
# What a check does not object to

A check that is put together from others objects to nothing that its parts do not object to.

* `Checked.Spares o c`: no problem that was found is of the kind `o`;
* `Spares.and`, `Spares.andThen`, …: it is kept by each combinator, so that a check of a record
  spares what the checks of its fields spare (`Import.check_spares`, `Field.check_spares`);
* `Model.check_draft_spares`: the data of a model whose imports have pairwise different names is
  never refused for duplicate imports, whatever else is wrong with it.
-/

namespace ApiScaffold

open Draft Check

/-- None of the problems that were found is an objection of the given kind. -/
def Checked.Spares {α : Type} (o : Objection → Prop) (c : Checked α) : Prop :=
  ∀ ps, c = .error ps → ∀ p ∈ ps, ¬ o p.objection

/-- The objection is one to duplicate imports. -/
def Objection.IsDuplication (o : Objection) : Prop := ∃ names, o = .duplicateImports names

namespace Checked.Spares

variable {α β : Type} {o : Objection → Prop}

theorem ok (a : α) : Checked.Spares o (.ok a) := nofun

theorem object {x : Objection} (hx : ¬ o x) : (Checked.object (α := α) x).Spares o := by
  intro ps hps p hp
  obtain rfl := Except.error.inj hps
  rw [List.mem_singleton.1 hp]
  exact hx

theorem under {c : Checked α} (h : c.Spares o) (step : Step) : (c.under step).Spares o := by
  intro ps hps p hp
  cases c with
  | ok a => cases hps
  | error qs =>
    obtain rfl := Except.error.inj hps
    obtain ⟨q, hq, rfl⟩ := List.mem_map.1 hp
    exact h qs rfl q hq

theorem and {f : Checked (α → β)} {c : Checked α} (hf : f.Spares o) (hc : c.Spares o) :
    (f.and c).Spares o := by
  intro ps hps p hp
  cases f with
  | ok g =>
    cases c with
    | ok a => cases hps
    | error qs =>
      obtain rfl := Except.error.inj hps
      exact hc qs rfl p hp
  | error rs =>
    cases c with
    | ok a =>
      obtain rfl := Except.error.inj hps
      exact hf rs rfl p hp
    | error qs =>
      obtain rfl := Except.error.inj hps
      rcases List.mem_append.1 hp with hp | hp
      · exact hf rs rfl p hp
      · exact hc qs rfl p hp

theorem withProblems {c : Checked α} {qs : List Problem} (hc : c.Spares o)
    (hqs : ∀ q ∈ qs, ¬ o q.objection) : (c.withProblems qs).Spares o := by
  intro ps hps p hp
  cases c with
  | ok a =>
    rw [Checked.withProblems] at hps
    split_ifs at hps
    obtain rfl := Except.error.inj hps
    exact hqs p hp
  | error rs =>
    obtain rfl := Except.error.inj hps
    rcases List.mem_append.1 hp with hp | hp
    · exact hc rs rfl p hp
    · exact hqs p hp

theorem andThen {c : Checked α} {f : α → Checked β} (hc : c.Spares o)
    (hf : ∀ a, c = .ok a → (f a).Spares o) : (c.andThen f).Spares o := by
  cases c with
  | ok a => exact hf a rfl
  | error ps =>
    intro qs hqs
    obtain rfl := Except.error.inj hqs
    exact hc ps rfl

end Checked.Spares

/-! ### Checks that do not object to duplicate imports -/

namespace Check

variable {α : Type}

/-- No value is refused for duplicate imports. -/
def SparesImports (check : Check α) : Prop :=
  ∀ v, (check v).Spares Objection.IsDuplication

theorem anyText_spares : SparesImports anyText := by
  intro v
  unfold anyText
  split
  · exact .ok _
  · split
    · exact .ok _
    · exact .object nofun
  · exact .object nofun

theorem someText_spares : SparesImports someText := by
  intro v
  refine (anyText_spares v).andThen fun s _ => ?_
  split_ifs
  · exact .object nofun
  · exact .ok _

theorem SparesImports.orNull {check : Check α} (h : SparesImports check) :
    SparesImports (orNull check) := by
  intro v
  unfold Check.orNull
  split
  · exact .ok _
  · exact (h v).andThen fun a _ => .ok _

theorem truth_spares : SparesImports truth := by
  have hint : ∀ n, (truthOfInt n).Spares Objection.IsDuplication := by
    intro n
    unfold truthOfInt
    split_ifs
    · exact .ok _
    · exact .ok _
    · exact .object nofun
    · exact .object nofun
  have htext : ∀ s, (truthOfText s).Spares Objection.IsDuplication := by
    intro s
    unfold truthOfText
    dsimp only
    split_ifs
    · exact .ok _
    · exact .ok _
    · exact .object nofun
  intro v
  unfold truth
  split
  · exact .ok _
  · exact hint _
  · split
    · exact hint _
    · exact .object nofun
  · exact htext _
  · split
    · exact htext _
    · exact .object nofun
  · exact .object nofun

theorem SparesImports.itemsFrom {check : Check α} (h : SparesImports check) (i : ℕ)
    (vs : List Value) : (itemsFrom check i vs).Spares Objection.IsDuplication := by
  induction vs generalizing i with
  | nil => exact .ok _
  | cons v vs ih => exact (((h v).under _).andThen fun a _ => .ok _).and (ih (i + 1))

theorem SparesImports.listOf {check : Check α} (h : SparesImports check) :
    SparesImports (listOf check) := by
  intro v
  unfold Check.listOf
  split
  · exact h.itemsFrom 0 _
  · exact .object nofun

theorem spares_mapping {kind : String} {check : Entries → Checked α}
    (h : ∀ es, (check es).Spares Objection.IsDuplication) : SparesImports (mapping kind check) := by
  intro v
  unfold mapping
  split
  · exact h _
  · exact .object nofun

theorem SparesImports.required {check : Check α} (h : SparesImports check) (name : String)
    (es : Entries) : (required name check es).Spares Objection.IsDuplication := by
  unfold Check.required
  apply Checked.Spares.under
  split
  · exact h _
  · exact .object nofun

theorem SparesImports.optional {check : Check α} (h : SparesImports check) (name : String)
    (default : α) (es : Entries) :
    (optional name default check es).Spares Objection.IsDuplication := by
  unfold Check.optional
  split
  · exact (h _).under _
  · exact .ok _

theorem strayKeys_spares (names : List String) (es : Entries) :
    ∀ q ∈ strayKeys names es, ¬ q.objection.IsDuplication := by
  intro q hq
  obtain ⟨e, -, he⟩ := List.mem_filterMap.1 hq
  unfold strayKey? at he
  split at he
  · split_ifs at he
    obtain rfl := Option.some.inj he
    nofun
  · obtain rfl := Option.some.inj he
    nofun

end Check

theorem Import.check_spares : SparesImports Import.check :=
  spares_mapping fun es =>
    (((Checked.Spares.ok _).and (someText_spares.required _ es)).and
      (someText_spares.required _ es)).withProblems (strayKeys_spares _ es)

theorem Field.check_spares : SparesImports Field.check :=
  spares_mapping fun es =>
    (((((((((Checked.Spares.ok _).and (someText_spares.required _ es)).and
      (someText_spares.required _ es)).and
      (truth_spares.optional _ _ es)).and
      (anyText_spares.optional _ _ es)).and
      (anyText_spares.orNull.optional _ _ es)).and
      (anyText_spares.orNull.optional _ _ es)).and
      (truth_spares.optional _ _ es)).and
      (anyText_spares.orNull.optional _ _ es)).withProblems (strayKeys_spares _ es)

/-- Imports of pairwise different names are not refused as duplicates, even where one of them is
refused. -/
theorem Import.checkAll_data_spares {is : List Import} (h : (is.map (·.name)).Nodup) :
    (Import.checkAll (.list (is.map Import.data))).Spares Objection.IsDuplication := by
  refine (Import.check_spares.listOf _).andThen fun js hjs => ?_
  obtain ⟨-, rfl⟩ := (forall₂_data fun _ _ => Import.check_data).1 (listOf_list.1 hjs)
  rw [if_pos (Import.duplicates_isEmpty.2 h)]
  exact .ok _

/-- **A draft whose imports are pairwise different is not refused for duplicate imports.** -/
theorem Model.check_draft_spares {d : ModelDraft} (h : (d.imports.map (·.name)).Nodup) :
    (Model.check d.data).Spares Objection.IsDuplication := by
  refine ((((Checked.Spares.ok _).and (someText_spares.required _ _)).and
    (anyText_spares.optional _ _ _)).and (Field.check_spares.listOf.required _ _)).and ?_
    |>.withProblems (strayKeys_spares _ _)
  exact (Import.checkAll_data_spares h).under _

end ApiScaffold
