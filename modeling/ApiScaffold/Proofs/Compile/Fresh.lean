import ApiScaffold.Proofs.Compile.Agreement
import ApiScaffold.Proofs.Naming

/-!
# What a document leaves in fresh stores

A document that compiles leaves resources of pairwise different names in stores that were empty: a
model for each schema, a service and a controller for each group of its operations.

* `fresh_models`, `fresh_services`, `fresh_controllers`: the resources in the stores, each with what
  it was made of;
* `Scheme.Makes.known_or_new`, `Scheme.Makes.exists_operation`: their operations stem from
  operations of the document;
* `isAlphanum_of_mem_groupName`: groups are named by letters and digits.
-/

namespace ApiScaffold

open Draft

variable {settings : Settings} {doc : Value}

/-! ### Models -/

theorem compileSchemas_of_ok {schemas : Entries} {store : Store Model}
    (h : (compileSchemas settings schemas store).fault = none) :
    ∃ models, List.Forall₂ (fun e m => compileModel settings e.1 e.2 = .ok m) schemas models ∧
      (compileSchemas settings schemas store).store = store.insertAll (·.name) models := by
  induction schemas generalizing store with
  | nil => exact ⟨[], .nil, rfl⟩
  | cons entry rest ih =>
    obtain ⟨k, schema⟩ := entry
    rw [compileSchemas] at h ⊢
    cases hm : compileModel settings k schema with
    | error e =>
      rw [hm] at h
      cases h
    | ok m =>
      rw [hm] at h
      obtain ⟨models, hmodels, hstore⟩ := ih h
      exact ⟨m :: models, .cons hm hmodels, hstore⟩

theorem map_eq_ok {α β : Type} {f : α → β} {x : Except Fault α} {b : β}
    (h : x.map f = .ok b) : ∃ a, x = .ok a ∧ f a = b := by
  cases x with
  | error e => cases h
  | ok a => exact ⟨a, rfl, Except.ok.inj h⟩

/-- A schema that compiles has a draft, made of its properties, that the check accepts. -/
theorem exists_draft_of_compileModel {key : Scalar} {schema : Value} {m : Model}
    (h : compileModel settings key schema = .ok m) :
    ∃ name props fields, textOf (.scalar key) = .ok name ∧
      entriesOf? (schema.field? "properties") = some props ∧
      fieldDrafts ("components.schemas." ++ name) props = .ok fields ∧
      Model.check (ModelDraft.data
        ⟨name, descriptionOf schema, fields, modelImports settings name fields⟩) = .ok m := by
  rw [compileModel] at h
  cases hkey : textOf (.scalar key) with
  | error e =>
    rw [hkey] at h
    cases h
  | ok name =>
    simp only [hkey] at h
    cases hdraft : modelDraft settings name schema with
    | error e =>
      rw [hdraft] at h
      cases h
    | ok d =>
      rw [hdraft] at h
      unfold modelDraft at hdraft
      dsimp only at hdraft
      split_ifs at hdraft
      split at hdraft
      · cases hdraft
      · next props hprops =>
        obtain ⟨fields, hfields, rfl⟩ := map_eq_ok hdraft
        exact ⟨name, props, fields, rfl, hprops, hfields, validate_eq_ok.1 h⟩

/-- A model has the name under which its schema stands. -/
theorem name_of_compileModel {key : Scalar} {schema : Value} {m : Model}
    (h : compileModel settings key schema = .ok m) :
    textOf (.scalar key) = .ok m.name ∧ m.name ≠ "" := by
  obtain ⟨name, props, fields, hkey, -, -, hcheck⟩ := exists_draft_of_compileModel h
  obtain ⟨hname, hne⟩ := Model.name_of_check_draft hcheck
  exact ⟨hname ▸ hkey, hne⟩

/-- The schemas of a document that compiles, and the models that are made of them. -/
theorem models_of_compileDocument (compiled : (compileDocument settings doc .empty).fault = none) :
    ∃ schemas models, schemasOf doc = .ok schemas ∧
      List.Forall₂ (fun e m => compileModel settings e.1 e.2 = .ok m) schemas models ∧
      (compileDocument settings doc .empty).store.models =
        Store.empty.insertAll (·.name) models := by
  obtain ⟨hfault, -, -, hstore⟩ := stages_of_compileDocument compiled
  have hmodels := congrArg Stores.models hstore
  replace hfault : (compileModels settings doc .empty).fault = none := hfault
  replace hmodels : (compileDocument settings doc .empty).store.models =
    (compileModels settings doc .empty).store := hmodels
  rw [compileModels] at hfault hmodels
  cases hschemas : schemasOf doc with
  | error e =>
    rw [hschemas] at hfault
    cases hfault
  | ok schemas =>
    rw [hschemas] at hfault hmodels
    obtain ⟨ms, hms, hstored⟩ := compileSchemas_of_ok hfault
    exact ⟨schemas, ms, rfl, hms, hmodels.trans hstored⟩

/-- The models of a document have different names, which are those of its schemas. -/
theorem fresh_models (h : (compileDocument settings doc .empty).fault = none) :
    let models := (compileDocument settings doc .empty).store.models.values
    (models.map (·.name)).Nodup ∧ ∀ m ∈ models, m.name ≠ "" ∧
      ∃ schemas, schemasOf doc = .ok schemas ∧
        ∃ e ∈ schemas, textOf (.scalar e.1) = .ok m.name := by
  obtain ⟨schemas, ms, hschemas, hms, hstore⟩ := models_of_compileDocument h
  rw [hstore]
  refine ⟨Store.nodup_values_insertAll_empty ms, fun m hm => ?_⟩
  obtain ⟨e, he, hem⟩ := exists_of_forall₂_right hms (Store.mem_of_mem_values_insertAll_empty hm)
  obtain ⟨hkey, hne⟩ := name_of_compileModel hem
  exact ⟨hne, schemas, hschemas, e, he, hkey⟩

/-! ### Services and controllers -/

/-- What a document makes of the empty store: resources of different names, each of a group. -/
theorem Scheme.Runs.fresh {α : Type} {k : Scheme α} {after : Store α}
    (h : k.Runs .empty doc after) :
    (after.values.map k.name).Nodup ∧ ∀ a ∈ after.values,
      ∃ groups, groupOperations doc = .ok groups ∧ ∃ g ∈ groups, k.Makes .empty g a := by
  obtain ⟨groups, as, hgroups, has, rfl⟩ := h
  refine ⟨Store.nodup_values_insertAll_empty as, fun a ha => ?_⟩
  obtain ⟨g, hg, hga⟩ := exists_of_forall₂_right has (Store.mem_of_mem_values_insertAll_empty ha)
  exact ⟨groups, hgroups, g, hg, hga⟩

theorem fresh_services (h : (compileDocument settings doc .empty).fault = none) :
    let services := (compileDocument settings doc .empty).store.services.values
    (services.map (·.name)).Nodup ∧ ∀ s ∈ services, ∃ groups, groupOperations doc = .ok groups ∧
      ∃ g ∈ groups, (serviceScheme settings).Makes .empty g s :=
  (runs_of_compileDocument h).1.fresh

theorem fresh_controllers (h : (compileDocument settings doc .empty).fault = none) :
    let controllers := (compileDocument settings doc .empty).store.controllers.values
    (controllers.map (·.name)).Nodup ∧ ∀ c ∈ controllers,
      ∃ groups, groupOperations doc = .ok groups ∧
        ∃ g ∈ groups, (controllerScheme settings).Makes .empty g c :=
  (runs_of_compileDocument h).2.fresh

/-- An operation that a merge leaves was stored, or is one of the group's. -/
theorem MergesTo.known_or_new {known ms : List Method} {g : Group} (h : MergesTo known g ms)
    {m : Method} (hm : m ∈ ms) : m ∈ known ∨ ∃ d ∈ g.operations, Method.check d.data = .ok m := by
  obtain ⟨d, hd, hdm⟩ := exists_of_forall₂_right h.2 hm
  rcases List.mem_append.1 (mem_of_mem_writeAll hd) with hd | hd
  · obtain ⟨k, hk, rfl⟩ := List.mem_map.1 hd
    rw [MethodDraft.data_ofMethod] at hdm
    obtain ⟨-, rfl⟩ := Method.check_data.1 hdm
    exact Or.inl hk
  · exact Or.inr ⟨d, hd, hdm⟩

/-- The operations that a group makes of a store are stored, or stem from operations of the document
that belong to the resource. -/
theorem Scheme.Makes.known_or_new {α : Type} {k : Scheme α} {store : Store α} {groups : List Group}
    (hgroups : groupOperations doc = .ok groups) {g : Group} (hg : g ∈ groups) {a : α}
    (h : k.Makes store g a) {m : Method} (hm : m ∈ k.methods a) :
    (∃ b, (g.name, b) ∈ store.entries ∧ m ∈ k.methods b) ∨
      ∃ o ∈ operationsOf doc, o.resource = g.name ∧
        ∃ d, o.Compiles doc d ∧ Method.check d.data = .ok m := by
  obtain ⟨-, ms, hms, -, rfl⟩ := h
  rw [k.methods_build] at hm
  rcases hms.known_or_new hm with hm | ⟨d, hd, hdm⟩
  · cases hfind : store.find? g.name with
    | none =>
      rw [hfind] at hm
      exact (List.not_mem_nil hm).elim
    | some b =>
      rw [hfind] at hm
      exact Or.inl ⟨b, Store.mem_of_find? hfind, hm⟩
  · obtain ⟨o, ho, hod⟩ := exists_of_forall₂_right (forall₂_operations hgroups hg) hd
    obtain ⟨ho, hresource⟩ := List.mem_filter.1 ho
    exact Or.inr ⟨o, ho, of_decide_eq_true hresource, d, hod, hdm⟩

/-- The operations that a group makes of nothing stem from operations of the document. -/
theorem Scheme.Makes.exists_operation {α : Type} {k : Scheme α} {groups : List Group}
    (hgroups : groupOperations doc = .ok groups) {g : Group} (hg : g ∈ groups) {a : α}
    (h : k.Makes .empty g a) {m : Method} (hm : m ∈ k.methods a) :
    ∃ o ∈ operationsOf doc, ∃ d, o.Compiles doc d ∧ Method.check d.data = .ok m := by
  rcases h.known_or_new hgroups hg hm with ⟨b, hb, -⟩ | ⟨o, ho, -, hd⟩
  · exact (List.not_mem_nil hb).elim
  · exact ⟨o, ho, hd⟩

/-- Groups are named by letters and digits. -/
theorem isAlphanum_of_mem_groupName {groups : List Group} (h : groupOperations doc = .ok groups)
    {g : Group} (hg : g ∈ groups) {c : Char} (hc : c ∈ g.name.toList) : c.isAlphanum = true := by
  obtain ⟨hne, hpaths⟩ := mem_groupOperations h hg
  obtain ⟨p, ps, hps⟩ := List.exists_cons_of_ne_nil hne
  obtain ⟨-, hname⟩ := hpaths p (hps ▸ List.mem_cons_self)
  rw [← hname, resourceOf, String.toList_ofList] at hc
  exact Naming.isAlphanum_of_mem_resourceName hc

end ApiScaffold
