import ApiScaffold.Proofs.Resource.Check

/-!
# The laws of resources

The schema of a resource has laws beyond the shapes of its parts: nothing that names, types or
places something is empty, an operation has one body at most, imports have pairwise different names,
and a controller imports its service exactly once.

* `Model.Lawful`, `Service.Lawful` and `Controller.Lawful` are these laws;
* `Model.check_data`, `Service.check_data` and `Controller.check_data`: the data of a resource is
  read back as that resource, exactly if it is lawful;
* `Stable` says of a reader that it accepts what is lawful and nothing else, and reads what it has
  read once more, from its own data, as the same;
* `stable_resources`: the readers of models, services and controllers are stable.
-/

namespace ApiScaffold

open Checked Check

/-! ### Models -/

theorem Field.check_dict {es : Entries} {f : Field} :
    Field.check (.dict es) = .ok f ↔
      required "name" someText es = .ok f.name ∧ required "type" someText es = .ok f.type ∧
        optional "nullable" false truth es = .ok f.nullable ∧
        optional "description" "" anyText es = .ok f.description ∧
        optional "format" none (orNull anyText) es = .ok f.format ∧
        optional "ref" none (orNull anyText) es = .ok f.ref ∧
        optional "top_level" false truth es = .ok f.topLevel ∧
        optional "enum_values" none (orNull anyText) es = .ok f.enumValues ∧
        strayKeys ["name", "type", "nullable", "description", "format", "ref", "top_level",
          "enum_values"] es = [] := by
  obtain ⟨name, type, nullable, description, format, ref, topLevel, enumValues⟩ := f
  simp only [Field.check, mapping, Checked.withProblems_eq_ok, Checked.and_eq_ok, Except.ok.injEq,
    exists_and_left, exists_eq_left', ↓existsAndEq, and_true, and_assoc, Field.mk.injEq]

theorem truth_bool {b c : Bool} : truth (.bool b) = .ok c ↔ c = b := by
  simp [truth, eq_comm]

/-- Name and type are there. -/
def Field.Sound (f : Field) : Prop := f.name ≠ "" ∧ f.type ≠ ""

theorem Field.check_data {f g : Field} : Field.check f.data = .ok g ↔ f.Sound ∧ g = f := by
  obtain ⟨name, type, nullable, description, format, ref, topLevel, enumValues⟩ := g
  rw [Field.data, Value.record, check_dict, required_record rfl, required_record rfl,
    optional_record rfl, optional_record rfl, optional_record rfl, optional_record rfl,
    optional_record rfl, optional_record rfl, someText_text, someText_text, truth_bool, truth_bool,
    anyText_text, orNull_optionalText, orNull_optionalText, orNull_optionalText]
  constructor
  · rintro ⟨⟨hname, rfl⟩, ⟨htype, rfl⟩, rfl, rfl, rfl, rfl, rfl, rfl, -⟩
    exact ⟨⟨hname, htype⟩, rfl⟩
  · rintro ⟨⟨hname, htype⟩, rfl⟩
    exact ⟨⟨hname, rfl⟩, ⟨htype, rfl⟩, rfl, rfl, rfl, rfl, rfl, rfl, rfl⟩

theorem Field.sound_of_check {v : Value} {f : Field} (h : Field.check v = .ok f) : f.Sound := by
  obtain ⟨es, rfl, -⟩ := mapping_eq_ok.1 h
  obtain ⟨hname, htype, -⟩ := check_dict.1 h
  exact ⟨ne_of_required_someText hname, ne_of_required_someText htype⟩

/-- The laws of a model. -/
structure Model.Lawful (m : Model) : Prop where
  name : m.name ≠ ""
  fields : ∀ f ∈ m.fields, f.Sound
  imports : Import.AllSound m.imports

theorem Model.check_data {m n : Model} : Model.check m.data = .ok n ↔ m.Lawful ∧ n = m := by
  obtain ⟨name, description, fields, imports⟩ := n
  rw [Model.data, Value.record, check_dict, required_record rfl, optional_record rfl,
    required_record rfl, optional_record rfl, someText_text, anyText_text, listOf_list,
    forall₂_data fun _ _ => Field.check_data, Import.checkAll_data]
  constructor
  · rintro ⟨⟨hname, rfl⟩, rfl, ⟨hfields, rfl⟩, ⟨himports, rfl⟩, -⟩
    exact ⟨⟨hname, hfields, himports⟩, rfl⟩
  · rintro ⟨⟨hname, hfields, himports⟩, rfl⟩
    exact ⟨⟨hname, rfl⟩, rfl, ⟨hfields, rfl⟩, ⟨himports, rfl⟩, rfl⟩

/-- A list that has to be there holds sound items. -/
theorem Check.forall_of_required {α : Type} {name : String} {check : Check α} {sound : α → Prop}
    {es : Entries} {as : List α} (hcheck : ∀ v a, check v = .ok a → sound a)
    (h : required name (listOf check) es = .ok as) : ∀ a ∈ as, sound a := by
  obtain ⟨v, -, hv⟩ := required_eq_ok.1 h
  exact forall_of_listOf hcheck hv

/-- Imports may be left out. -/
theorem Import.allSound_of_optional {name : String} {es : Entries} {is : List Import}
    (h : optional name [] Import.checkAll es = .ok is) : AllSound is := by
  rcases optional_eq_ok.1 h with ⟨-, rfl⟩ | ⟨v, -, hv⟩
  · exact ⟨nofun, List.nodup_nil⟩
  · exact allSound_of_checkAll hv

theorem Model.lawful_of_check {v : Value} {m : Model} (h : Model.check v = .ok m) : m.Lawful := by
  obtain ⟨es, rfl, -⟩ := mapping_eq_ok.1 h
  obtain ⟨hname, -, hfields, himports, -⟩ := check_dict.1 h
  exact ⟨ne_of_required_someText hname,
    forall_of_required (fun _ _ => Field.sound_of_check) hfields,
    Import.allSound_of_optional himports⟩

/-! ### Services and controllers -/

theorem Draft.MethodDraft.data_comp_ofMethod : data ∘ ofMethod = Method.data :=
  funext data_ofMethod

/-- Operations are accepted from their own drafts if they are sound, as themselves. -/
theorem Draft.accepted_ofMethod {ms ns : List Method} :
    Accepted (ms.map MethodDraft.ofMethod) ns ↔ (∀ m ∈ ms, m.Sound) ∧ ns = ms := by
  rw [Accepted, List.forall₂_map_left_iff]
  simp only [MethodDraft.data_ofMethod]
  rw [← forall₂_data fun _ _ => Method.check_data, List.forall₂_map_left_iff]

/-- The laws of a service. -/
structure Service.Lawful (s : Service) : Prop where
  name : s.name ≠ ""
  methods : ∀ m ∈ s.methods, m.Sound
  imports : Import.AllSound s.imports

theorem Service.check_data {s t : Service} : Service.check s.data = .ok t ↔ s.Lawful ∧ t = s := by
  have hdata : s.data = ServiceDraft.data
      ⟨s.name, s.description, s.methods.map Draft.MethodDraft.ofMethod, s.imports⟩ := by
    simp [Service.data, ServiceDraft.data, Draft.MethodDraft.data_comp_ofMethod]
  rw [hdata, Service.check_draft, Draft.accepted_ofMethod]
  constructor
  · rintro ⟨hname, himports, ⟨hmethods, hsame⟩, ht⟩
    rw [hsame] at ht
    exact ⟨⟨hname, hmethods, himports⟩, ht⟩
  · rintro ⟨hs, rfl⟩
    exact ⟨hs.name, hs.imports, ⟨hs.methods, rfl⟩, rfl⟩

theorem Service.lawful_of_check {v : Value} {s : Service} (h : Service.check v = .ok s) :
    s.Lawful := by
  obtain ⟨es, rfl, -⟩ := mapping_eq_ok.1 h
  obtain ⟨hname, -, hmethods, himports, -⟩ := check_dict.1 h
  exact ⟨ne_of_required_someText hname,
    forall_of_required (fun _ _ => Method.sound_of_check) hmethods,
    Import.allSound_of_optional himports⟩

/-- The operations and the imports of an accepted service are sound. -/
theorem Service.sound_of_check {v : Value} {s : Service} (h : Service.check v = .ok s) :
    (∀ m ∈ s.methods, m.Sound) ∧ ∀ i ∈ s.imports, i.Sound :=
  ⟨(lawful_of_check h).methods, (lawful_of_check h).imports.1⟩

/-- The laws of a controller: those of a service, and that the service is imported exactly once. -/
structure Controller.Lawful (c : Controller) : Prop where
  name : c.name ≠ ""
  methods : ∀ m ∈ c.methods, m.Sound
  imports : Import.AllSound c.imports
  service : (c.imports.map (·.name)).count (c.name ++ "Service") = 1

theorem Controller.length_serviceImports (c : Controller) :
    c.serviceImports.length = (c.imports.map (·.name)).count (c.name ++ "Service") := by
  rw [List.count_eq_countP, List.countP_map, List.countP_eq_length_filter]
  rfl

theorem Controller.check_data {c d : Controller} :
    Controller.check c.data = .ok d ↔ c.Lawful ∧ d = c := by
  have hdata : c.data = ControllerDraft.data
      ⟨c.name, c.description, c.path, c.methods.map Draft.MethodDraft.ofMethod, c.imports⟩ := by
    simp [Controller.data, ControllerDraft.data, Draft.MethodDraft.data_comp_ofMethod]
  have hservice : (c.imports.filter fun i => i.name == c.name ++ "Service").length =
      (c.imports.map (·.name)).count (c.name ++ "Service") := c.length_serviceImports
  rw [hdata, Controller.check_draft, Draft.accepted_ofMethod, hservice]
  constructor
  · rintro ⟨hname, himports, hone, ⟨hmethods, hsame⟩, hd⟩
    rw [hsame] at hd
    exact ⟨⟨hname, hmethods, himports, hone⟩, hd⟩
  · rintro ⟨hc, rfl⟩
    exact ⟨hc.name, hc.imports, hc.service, ⟨hc.methods, rfl⟩, rfl⟩

theorem Controller.lawful_of_check {v : Value} {c : Controller} (h : Controller.check v = .ok c) :
    c.Lawful := by
  obtain ⟨es, rfl, -⟩ := mapping_eq_ok.1 h
  obtain ⟨hname, -, -, hmethods, himports, -, hservice⟩ := check_dict.1 h
  obtain ⟨w, -, hw⟩ := required_eq_ok.1 himports
  exact ⟨ne_of_required_someText hname,
    forall_of_required (fun _ _ => Method.sound_of_check) hmethods,
    Import.allSound_of_checkAll hw, c.length_serviceImports ▸ hservice⟩

/-! ### Reading once more -/

/-- What is read is lawful, and is read again from its own data, as the same; and whatever is lawful
can be read. -/
structure Stable {α : Type} (read : Value → Except Fault α) (data : α → Value)
    (Lawful : α → Prop) : Prop where
  lawful : ∀ v a, read v = .ok a → Lawful a
  again : ∀ v a, read v = .ok a → read (data a) = .ok a
  complete : ∀ a, Lawful a → ∃ v, read v = .ok a

theorem stable_validate {α : Type} {kind : Kind} {check : Check α} {data : α → Value}
    {Lawful : α → Prop} (hlawful : ∀ v a, check v = .ok a → Lawful a)
    (hdata : ∀ a b, check (data a) = .ok b ↔ Lawful a ∧ b = a) :
    Stable (validate kind check) data Lawful where
  lawful v a h := hlawful v a (validate_eq_ok.1 h)
  again v a h := validate_eq_ok.2 ((hdata a a).2 ⟨hlawful v a (validate_eq_ok.1 h), rfl⟩)
  complete a ha := ⟨data a, validate_eq_ok.2 ((hdata a a).2 ⟨ha, rfl⟩)⟩

/-- **Resources are read without loss.** A model, a service or a controller that is accepted obeys
its laws, and its data is accepted as the same; and nothing that obeys them is left out. -/
theorem stable_resources :
    Stable validateModel Model.data Model.Lawful ∧
      Stable validateService Service.data Service.Lawful ∧
      Stable validateController Controller.data Controller.Lawful :=
  ⟨stable_validate (fun _ _ => Model.lawful_of_check) fun _ _ => Model.check_data,
    stable_validate (fun _ _ => Service.lawful_of_check) fun _ _ => Service.check_data,
    stable_validate (fun _ _ => Controller.lawful_of_check) fun _ _ => Controller.check_data⟩

/-- The data of a controller in lax spellings: a name in bytes, a pair for a list, words for truth
values, and parts left out. -/
def laxController : Value := .record
  [("imports", .pair
      (.record [("path", .text "@/services/PetService"), ("name", .text "PetService")])
      (.record [("name", .text "Pet"), ("path", .text "@/models/Pet")])),
    ("name", .scalar (.bytes [80, 101, 116])),
    ("methods", .list [.record [("type", .text "post"), ("name", .text "addPet"),
      ("url", .text "/pets"), ("parameters", .record
        [("params", .list [.record [("location", .text "query"), ("name", .text "dry"),
            ("required", .text "YES")]]),
          ("body", .list [.record [("name", .text "pet"), ("type", .text "Pet")]])])]])]

/-- What it says. -/
def petController : Controller where
  name := "Pet"
  description := ""
  path := ""
  methods := [⟨.post, "addPet", "/pets", none,
    some ⟨some [⟨"query", "dry", true⟩], some [⟨"pet", "Pet"⟩]⟩⟩]
  imports := [⟨"PetService", "@/services/PetService"⟩, ⟨"Pet", "@/models/Pet"⟩]

theorem stable_resources_lax :
    validateController laxController = .ok petController ∧
      validateController petController.data = .ok petController ∧ petController.Lawful := by
  have accepted : validateController laxController = .ok petController := by decide +kernel
  obtain ⟨-, -, stable⟩ := stable_resources
  exact ⟨accepted, stable.again _ _ accepted, stable.lawful _ _ accepted⟩

end ApiScaffold
