import ApiScaffold.Proofs.Compile.Misshapen
import ApiScaffold.Proofs.Service.Again
import ApiScaffold.Proofs.Text.Split

/-!
# Imports and the models they name

A reference is read in two ways: to follow it, its segments are decoded, and to name the class that
it leads to, its last segment is taken as it stands.

* `getLast?_keys?` compares the two: the last key is what the last segment denotes;
* `documentReferences` lists what a document refers to as the schema of a property, of the items of
  an array or of a body, and `LeadsToSchema` says that a reference leads to an entry of the schemas;
* `importsStored_of_references`: every import of a model, and of the operations of a service or
  controller, stems from one of them;
* `imports_stored`: in fresh stores every import denotes a stored model, and names it if no last
  segment is encoded.
-/

namespace ApiScaffold

open Draft

/-- The name that the segment of a reference denotes. -/
def denoted (segment : String) : String := String.ofList (Reference.unescape segment.toList)

/-- The last segment of a reference, as it stands. -/
def lastSegment (ref : String) : String := String.ofList (Reference.target ref.toList)

/-- **The two ways to read a reference:** the last of its keys is what its last segment denotes. -/
theorem getLast?_keys? {ref : String} {ks : List String} (h : Reference.keys? ref = some ks) :
    ks.getLast? = some (denoted (lastSegment ref)) := by
  unfold Reference.keys? at h
  split at h
  · next rest hrest =>
    obtain rfl := Option.some.inj h
    have htarget : Reference.target ref.toList = Text.takeSuffixWhile (· != '/') rest := by
      rw [hrest]
      exact Text.takeSuffixWhile_append_of_not (c := '/') (by decide) ['#'] rest
    rw [List.getLast?_map, Text.getLast?_splitOn, denoted, lastSegment, String.toList_ofList,
      htarget]
    rfl
  · cases h

/-! ### The references of a document -/

/-- The text of the reference of a value. -/
def referenceOf? (v : Value) : Option String :=
  match v.field? "$ref" with
  | some (.text ref) => some ref
  | _ => none

/-- What the type of a property refers to: its own reference, and that of its items. -/
def propertyReferences (prop : Value) : List String :=
  (referenceOf? prop).toList ++ ((prop.field? "items").bind referenceOf?).toList

/-- What the properties of a schema refer to. -/
def schemaReferences (schema : Value) : List String :=
  ((entriesOf? (schema.field? "properties")).getD []).flatMap fun e => propertyReferences e.2

/-- The schemas that a document refers to, in properties, items and bodies. -/
def documentReferences (doc : Value) : List String :=
  (((schemasOf doc).toOption).getD []).flatMap (fun e => schemaReferences e.2) ++
    (operationsOf doc).filterMap (Operation.bodyReference? doc)

/-- The reference leads to an entry of the document's schemas. -/
def LeadsToSchema (doc : Value) (ref : String) : Prop :=
  ∃ key v, Reference.keys? ref = some ["components", "schemas", key] ∧
    Reference.resolve doc ref = .ok v

instance (doc : Value) (ref : String) : Decidable (LeadsToSchema doc ref) :=
  match hkeys : Reference.keys? ref, hresolve : Reference.resolve doc ref with
  | some [a, b, key], .ok v =>
    decidable_of_iff (a = "components" ∧ b = "schemas") <| by
      simp [LeadsToSchema, hkeys, hresolve]
  | none, _ => isFalse fun ⟨_, _, h, _⟩ => by simp [hkeys] at h
  | some [], _ => isFalse fun ⟨_, _, h, _⟩ => by simp [hkeys] at h
  | some [_], _ => isFalse fun ⟨_, _, h, _⟩ => by simp [hkeys] at h
  | some [_, _], _ => isFalse fun ⟨_, _, h, _⟩ => by simp [hkeys] at h
  | some (_ :: _ :: _ :: _ :: _), _ => isFalse fun ⟨_, _, h, _⟩ => by simp [hkeys] at h
  | some _, .error _ => isFalse fun ⟨_, _, _, h⟩ => by simp [hresolve] at h

/-- Every schema that the document refers to is an entry of its schemas. -/
def LeadsToSchemas (doc : Value) : Prop := ∀ ref ∈ documentReferences doc, LeadsToSchema doc ref

instance (doc : Value) : Decidable (LeadsToSchemas doc) :=
  inferInstanceAs (Decidable (∀ ref ∈ documentReferences doc, LeadsToSchema doc ref))

variable {settings : Settings} {doc : Value}

/-! ### Imports of models -/

theorem className_eq_ok {v : Value} {n : String} (h : Reference.className v = .ok n) :
    ∃ ref, v = .text ref ∧ n = lastSegment ref := by
  unfold Reference.className at h
  split at h
  · next ref => exact ⟨ref, rfl, (Except.ok.inj h).symm⟩
  · cases h

/-- The class that a shape refers to. -/
def Draft.Shape.target? (s : Shape) : Option String :=
  FieldDraft.target? ⟨"", false, .null, .null, s.type, s.ref, s.topLevel, s.enumValues⟩

theorem target?_plain (v : Value) : Shape.target? (.plain v) = none := rfl

theorem target?_union (t : String) : Shape.target? (.union t) = none := rfl

theorem target?_reference (n : String) : Shape.target? (.reference n) = some n := rfl

theorem eq_of_target?_references {n t : String} (h : Shape.target? (.references n) = some t) :
    t = n := by
  simp only [Shape.target?, FieldDraft.target?, Shape.references] at h
  split_ifs at h with hne hfalse
  · exact (Option.some.inj h).symm
  · exact hfalse.elim

/-- An array refers to the class of its items. -/
theorem exists_reference_of_arrayShape {items declared : Value} {s : Shape}
    (h : arrayShape items declared = .ok s) {t : String} (ht : s.target? = some t) :
    ∃ ref, referenceOf? items = some ref ∧ t = lastSegment ref := by
  unfold arrayShape at h
  split at h
  · next w hw =>
    obtain ⟨n, hn, rfl⟩ := map_eq_ok h
    obtain ⟨ref, rfl, rfl⟩ := className_eq_ok hn
    exact ⟨ref, by rw [referenceOf?, hw], eq_of_target?_references ht⟩
  · split at h
    · obtain ⟨u, -, rfl⟩ := map_eq_ok h
      rw [target?_union] at ht
      cases ht
    · split at h
      · split at h
        · cases h
        · obtain ⟨u, -, rfl⟩ := map_eq_ok h
          rw [target?_plain] at ht
          cases ht
      · obtain ⟨u, -, rfl⟩ := map_eq_ok h
        rw [target?_plain] at ht
        cases ht

/-- A property refers to the class of its reference or of its items. -/
theorem exists_reference_of_shapeOf {prop : Value} {s : Shape} (h : shapeOf prop = .ok s)
    {t : String} (ht : s.target? = some t) :
    ∃ ref ∈ propertyReferences prop, t = lastSegment ref := by
  unfold propertyReferences
  unfold shapeOf at h
  split at h
  · next w hw =>
    obtain ⟨n, hn, rfl⟩ := map_eq_ok h
    obtain ⟨ref, rfl, rfl⟩ := className_eq_ok hn
    rw [target?_reference] at ht
    exact ⟨ref, by simp [referenceOf?, hw], (Option.some.inj ht).symm⟩
  · split at h
    · obtain ⟨u, -, rfl⟩ := map_eq_ok h
      rw [target?_union] at ht
      cases ht
    · split at h
      · next items hitems =>
        obtain ⟨ref, href, rfl⟩ := exists_reference_of_arrayShape h ht
        exact ⟨ref, by simp [hitems, href], rfl⟩
      · obtain ⟨u, -, rfl⟩ := map_eq_ok h
        rw [target?_plain] at ht
        cases ht

theorem exists_property_of_fieldDrafts {location : String} {props : List (Scalar × Value)}
    {fields : List FieldDraft} (h : fieldDrafts location props = .ok fields) {f : FieldDraft}
    (hf : f ∈ fields) : ∃ e ∈ props, ∃ name, fieldDraft name e.2 = .ok f := by
  induction props generalizing fields with
  | nil =>
    cases h
    cases hf
  | cons e props ih =>
    rw [fieldDrafts_cons] at h
    cases hstep : propertyStep location e with
    | error _ =>
      rw [hstep] at h
      cases h
    | ok g =>
      rw [hstep] at h
      obtain ⟨gs, hgs, rfl⟩ := map_eq_ok h
      rcases List.mem_cons.1 hf with rfl | hf
      · unfold propertyStep at hstep
        cases hname : textOf (.scalar e.1) with
        | error _ =>
          rw [hname] at hstep
          cases hstep
        | ok name =>
          rw [hname, Except.bind] at hstep
          split_ifs at hstep
          exact ⟨e, List.mem_cons_self, name, hstep⟩
      · obtain ⟨e', he', hdraft⟩ := ih hgs hf
        exact ⟨e', List.mem_cons_of_mem _ he', hdraft⟩

/-- The check keeps the imports of a model, which are sound. -/
theorem Model.imports_of_check_draft {d : ModelDraft} {m : Model}
    (h : Model.check d.data = .ok m) : Import.AllSound d.imports ∧ m.imports = d.imports := by
  rw [ModelDraft.data, Value.record, check_dict, Check.required_record rfl,
    Check.optional_record rfl, Check.required_record rfl, Check.optional_record rfl,
    Import.checkAll_data] at h
  exact h.2.2.2.1

/-- Every import of a model stems from a reference of its schema. -/
theorem exists_reference_of_compileModel {key : Scalar} {schema : Value} {m : Model}
    (h : compileModel settings key schema = .ok m) {i : Import} (hi : i ∈ m.imports) :
    ∃ ref ∈ schemaReferences schema, i.name = lastSegment ref := by
  obtain ⟨name, props, fields, -, hprops, hfields, hcheck⟩ := exists_draft_of_compileModel h
  rw [(Model.imports_of_check_draft hcheck).2] at hi
  obtain ⟨n, hn, rfl⟩ := List.mem_map.1 hi
  obtain ⟨f, hf, htarget⟩ := List.mem_filterMap.1 (mem_freshNames.1 hn).1
  obtain ⟨e, he, fieldName, hfield⟩ := exists_property_of_fieldDrafts hfields hf
  obtain ⟨s, hs, rfl⟩ := map_eq_ok hfield
  obtain ⟨ref, href, hname⟩ := exists_reference_of_shapeOf hs (t := n) htarget
  refine ⟨ref, ?_, hname⟩
  rw [schemaReferences, hprops]
  exact List.mem_flatMap.2 ⟨e, he, href⟩

/-! ### Imports of operations -/

/-- Every import that operations need stems from the reference of a body. -/
theorem Scheme.Makes.exists_reference {α : Type} {k : Scheme α} {groups : List Group}
    (hgroups : groupOperations doc = .ok groups) {g : Group} (hg : g ∈ groups) {a : α}
    (h : k.Makes .empty g a) {i : Import} (hi : i ∈ importsOf settings (k.methods a)) :
    ∃ ref ∈ documentReferences doc, i.name = lastSegment ref := by
  obtain ⟨m, hm, b, hb, rfl⟩ := mem_importsOf hi
  obtain ⟨o, ho, d, hod, hdm⟩ := h.exists_operation hgroups hg hm
  obtain ⟨ref, href, htype⟩ := exists_bodyReference_of_check hod hdm hb
  exact ⟨ref, List.mem_append_right _ (List.mem_filterMap.2 ⟨o, ho, href⟩), htype⟩

/-! ### What the imports denote -/

/-- Every import, a controller's own service apart, has a name that stands for that of a stored
model. -/
structure ImportsStored (settings : Settings) (stands : String → String) (stores : Stores) :
    Prop where
  models : ∀ m ∈ stores.models.values, ∀ i ∈ m.imports,
    stands i.name ∈ stores.models.values.map (·.name)
  services : ∀ s ∈ stores.services.values, ∀ i ∈ s.imports,
    stands i.name ∈ stores.models.values.map (·.name)
  controllers : ∀ c ∈ stores.controllers.values, ∀ i ∈ c.imports,
    i ≠ serviceImport settings c.name → stands i.name ∈ stores.models.values.map (·.name)

/-- What a reference into the schemas leads to. -/
theorem find?_of_descend {schemas : Entries} (hschemas : schemasOf doc = .ok schemas)
    {key : String} {v : Value}
    (h : Reference.descend ["components", "schemas", key] doc = some v) :
    Entries.find? (.text key) schemas = some v := by
  simp only [Reference.descend] at h
  split at h
  · next c hc =>
    split at h
    · next s hs =>
      split at h
      · next w hw =>
        obtain rfl := Option.some.inj h
        unfold schemasOf at hschemas
        split_ifs at hschemas
        rw [hc] at hschemas
        split at hschemas
        · cases hschemas
        · next components hcomponents =>
          rw [← field?_of_entriesOf? hcomponents, hs, Option.bind_some] at hschemas
          split at hschemas
          · next es hes =>
            obtain rfl := Except.ok.inj hschemas
            rwa [Value.field?, hes, Option.bind_some] at hw
          · cases hschemas
      · cases h
    · cases h
  · cases h

/-- **A reference into the schemas denotes a stored model by its last segment.** -/
theorem denoted_mem_of_leadsToSchema
    (compiled : (compileDocument settings doc .empty).fault = none) {ref : String}
    (h : LeadsToSchema doc ref) :
    denoted (lastSegment ref) ∈
      (compileDocument settings doc .empty).store.models.values.map (·.name) := by
  obtain ⟨key, v, hkeys, hresolve⟩ := h
  obtain ⟨ks, hks, hdescend⟩ := Reference.resolve_eq_ok.1 hresolve
  obtain rfl := Option.some.inj (hkeys.symm.trans hks)
  obtain ⟨schemas, models, hschemas, hmodels, hstore⟩ := models_of_compileDocument compiled
  obtain ⟨⟨k, w⟩, he, hsame, rfl⟩ := exists_of_find? (find?_of_descend hschemas hdescend)
  obtain rfl := Scalar.same_text_iff.1 hsame
  obtain ⟨m, hm, hem⟩ := exists_of_forall₂_left hmodels he
  have hname : m.name = key := (Except.ok.inj (name_of_compileModel hem).1).symm
  have hlast : key = denoted (lastSegment ref) := by
    simpa using getLast?_keys? hkeys
  rw [hstore, Store.map_name_values_insertAll_empty, Store.names_insertAll_empty,
    List.mem_eraseDups, ← hlast, ← hname]
  exact List.mem_map_of_mem hm

/-- Every import, a controller's own service apart, stems from a reference of the document. -/
theorem importsStored_of_references
    (compiled : (compileDocument settings doc .empty).fault = none) {stands : String → String}
    (h : ∀ ref ∈ documentReferences doc, stands (lastSegment ref) ∈
      (compileDocument settings doc .empty).store.models.values.map (·.name)) :
    ImportsStored settings stands (compileDocument settings doc .empty).store where
  models m hm i hi := by
    obtain ⟨schemas, models, hschemas, hmodels, hstore⟩ := models_of_compileDocument compiled
    rw [hstore] at hm
    obtain ⟨e, he, hem⟩ :=
      exists_of_forall₂_right hmodels (Store.mem_of_mem_values_insertAll_empty hm)
    obtain ⟨ref, href, hname⟩ := exists_reference_of_compileModel hem hi
    have hmem : ref ∈ documentReferences doc := by
      rw [documentReferences, hschemas]
      exact List.mem_append_left _ (List.mem_flatMap.2 ⟨e, he, href⟩)
    rw [hname]
    exact h ref hmem
  services s hs i hi := by
    obtain ⟨groups, hgroups, g, hg, hmakes⟩ := (fresh_services compiled).2 s hs
    have himports : s.imports = importsOf settings s.methods := by
      obtain ⟨-, ms, -, -, rfl⟩ := hmakes
      rfl
    rw [himports] at hi
    obtain ⟨ref, href, hname⟩ := hmakes.exists_reference hgroups hg hi
    rw [hname]
    exact h ref href
  controllers c hc i hi hother := by
    obtain ⟨groups, hgroups, g, hg, hmakes⟩ := (fresh_controllers compiled).2 c hc
    have himports : c.imports = serviceImport settings c.name :: importsOf settings c.methods := by
      obtain ⟨-, ms, -, -, rfl⟩ := hmakes
      rfl
    rw [himports] at hi
    rcases List.mem_cons.1 hi with hi | hi
    · exact absurd hi hother
    · obtain ⟨ref, href, hname⟩ := hmakes.exists_reference hgroups hg hi
      rw [hname]
      exact h ref href

/-- **Imports stand for stored models.** If a document compiles into fresh stores and everything
that it refers to as a schema is an entry of its schemas, then what the name of an import denotes is
the name of a stored model; and where no last segment is encoded, the name of the import is. -/
theorem imports_stored (compiled : (compileDocument settings doc .empty).fault = none)
    (leads : LeadsToSchemas doc) :
    ImportsStored settings denoted (compileDocument settings doc .empty).store ∧
      ((∀ ref ∈ documentReferences doc, denoted (lastSegment ref) = lastSegment ref) →
        ImportsStored settings id (compileDocument settings doc .empty).store) := by
  have hdenoted := fun ref href => denoted_mem_of_leadsToSchema compiled (leads ref href)
  refine ⟨importsStored_of_references compiled hdenoted, fun hplain => ?_⟩
  refine importsStored_of_references compiled fun ref href => ?_
  have := hdenoted ref href
  rwa [hplain ref href] at this

/-- A document that refers to schemas in a property, in items and in a body. -/
def shelteredPets : Value := .record
  [("openapi", .text "3.0.3"),
    ("components", .record [("schemas", .record
      [("Pet", .record [("properties", .record
        [("owner", .record [("$ref", .text "#/components/schemas/pet.Owner")]),
          ("toys", .record [("items", .record [("$ref", .text "#/components/schemas/Toy")])])])]),
        ("pet.Owner", .record []), ("Toy", .record [])])]),
    ("paths", .record [("/pets", .record [("post", .record
      [("operationId", .text "addPet"),
        ("requestBody", .record [("content", .record [("application/json", .record
          [("schema", .record [("$ref", .text "#/components/schemas/Pet")])])])])])])])]

theorem imports_stored_shelteredPets :
    ((compileDocument {} shelteredPets .empty).fault = none ∧ LeadsToSchemas shelteredPets ∧
      ∀ ref ∈ documentReferences shelteredPets, denoted (lastSegment ref) = lastSegment ref) ∧
      ImportsStored {} id (compileDocument {} shelteredPets .empty).store := by
  have compiled : (compileDocument {} shelteredPets .empty).fault = none := by decide +kernel
  have leads : LeadsToSchemas shelteredPets := by decide +kernel
  have plain : ∀ ref ∈ documentReferences shelteredPets,
      denoted (lastSegment ref) = lastSegment ref := by decide +kernel
  exact ⟨⟨compiled, leads, plain⟩, (imports_stored compiled leads).2 plain⟩

/-- A document that refers to a schema whose name holds a tilde. -/
def tildeSchemas : Value := .record
  [("openapi", .text "3.0.3"),
    ("components", .record [("schemas", .record
      [("a~b", .record []),
        ("Pet", .record [("properties", .record
          [("tag", .record [("$ref", .text "#/components/schemas/a~0b")])])])])])]

theorem tildeSchemas_not_stored :
    (compileDocument {} tildeSchemas .empty).fault = none ∧ LeadsToSchemas tildeSchemas ∧
      ¬ ImportsStored {} id (compileDocument {} tildeSchemas .empty).store := by
  refine ⟨by decide +kernel, by decide +kernel, fun h => ?_⟩
  have missing : ∃ m ∈ (compileDocument {} tildeSchemas .empty).store.models.values,
      ∃ i ∈ m.imports, i.name = "a~0b" := by decide +kernel
  obtain ⟨m, hm, i, hi, hname⟩ := missing
  have hstored := h.models m hm i hi
  rw [hname] at hstored
  exact absurd hstored (by decide +kernel)

end ApiScaffold
