import ApiScaffold.Proofs.Compile.ImportedModels
import ApiScaffold.Proofs.Resource.Laws
import ApiScaffold.Proofs.Resource.Objections

/-!
# Compiled models

A model is compiled property by property, and its imports are collected from its fields with a set
of names that were seen, which begins with the name of the model itself.

* `TakesOver` says that a field is what becomes of a property, `classOf?` is the class that a
  property refers to and `Field.target?` that of a field: they agree;
* `compileModel_takesOver`: the fields of a model are its properties one for one and in order, its
  imports are the classes of its fields, and no model is refused for duplicate imports.
-/

namespace ApiScaffold

open Draft Check

/-! ### Fields and properties -/

/-- The class that a field refers to, directly or as the element of an array. -/
def Field.target? (f : Field) : Option String := if f.topLevel then some f.type else f.ref

/-- The class that a property refers to, directly or as the element of an array. -/
def classOf? (prop : Value) : Option String :=
  if (prop.field? "$ref").isSome then (referenceOf? prop).map lastSegment
  else if (prop.field? "enum").isSome then none
  else ((prop.field? "items").bind referenceOf?).map lastSegment

/-- The field is what becomes of the property under its key. -/
structure TakesOver (entry : Scalar × Value) (f : Field) : Prop where
  name : textOf (.scalar entry.1) = .ok f.name
  nullable : f.nullable = isNullable entry.2
  description : anyText (descriptionOf entry.2) = .ok f.description
  format : orNull anyText ((entry.2.field? "format").getD .null) = .ok f.format
  shape : ∃ s, shapeOf entry.2 = .ok s ∧ someText s.type = .ok f.type ∧ f.ref = s.ref ∧
    f.topLevel = s.topLevel ∧ f.enumValues = s.enumValues
  refersTo : f.target? = classOf? entry.2

/-- The class of a shape, read as a field's class is. -/
def Draft.Shape.class? (s : Shape) : Option String :=
  if s.topLevel then some s.type.plain else s.ref

/-- What collects the imports sees the class of a shape, unless it is an element without a name. -/
theorem Draft.Shape.target?_eq {s : Shape} (h : s.topLevel = true → s.ref = none) :
    s.target? = if s.topLevel then some s.type.plain else s.ref.filter (· ≠ "") := by
  obtain ⟨type, ref, topLevel, enumValues⟩ := s
  rw [Shape.target?, FieldDraft.target?]
  cases topLevel with
  | true =>
    obtain rfl : ref = none := h rfl
    rfl
  | false =>
    cases ref with
    | none => rfl
    | some r =>
      by_cases hr : r = ""
      · simp [hr, Option.filter_some]
      · simp [hr, Option.filter_some]

/-- An array shows the class of its items, if they refer to one. -/
theorem class?_of_arrayShape {items declared : Value} {s : Shape}
    (h : arrayShape items declared = .ok s) :
    s.class? = (referenceOf? items).map lastSegment ∧ s.topLevel = false := by
  unfold arrayShape at h
  unfold referenceOf?
  cases href : items.field? "$ref" with
  | some w =>
    rw [href] at h
    obtain ⟨n, hn, rfl⟩ := map_eq_ok h
    obtain ⟨ref, rfl, rfl⟩ := className_eq_ok hn
    exact ⟨rfl, rfl⟩
  | none =>
    rw [href] at h
    dsimp only at h
    split at h
    · obtain ⟨u, -, rfl⟩ := map_eq_ok h
      exact ⟨rfl, rfl⟩
    · split at h
      · split at h
        · cases h
        · obtain ⟨u, -, rfl⟩ := map_eq_ok h
          exact ⟨rfl, rfl⟩
      · obtain ⟨u, -, rfl⟩ := map_eq_ok h
        exact ⟨rfl, rfl⟩

/-- A shape shows the class of its property; that of a reference is the whole shape. -/
theorem class?_of_shapeOf {prop : Value} {s : Shape} (h : shapeOf prop = .ok s) :
    s.class? = classOf? prop ∧ (s.topLevel = true → s.ref = none ∧ ∃ n, s.type = .text n) := by
  unfold shapeOf at h
  unfold classOf?
  cases href : prop.field? "$ref" with
  | some w =>
    rw [href] at h
    obtain ⟨n, hn, rfl⟩ := map_eq_ok h
    obtain ⟨ref, rfl, rfl⟩ := className_eq_ok hn
    refine ⟨?_, fun _ => ⟨rfl, _, rfl⟩⟩
    rw [if_pos (by rfl), referenceOf?, href]
    rfl
  | none =>
    rw [href] at h
    rw [if_neg (by simp)]
    cases henum : prop.field? "enum" with
    | some values =>
      rw [henum] at h
      obtain ⟨u, -, rfl⟩ := map_eq_ok h
      exact ⟨rfl, fun htop => absurd htop Bool.false_ne_true⟩
    | none =>
      rw [henum] at h
      rw [if_neg (by simp)]
      cases hitems : prop.field? "items" with
      | some items =>
        rw [hitems] at h
        obtain ⟨hclass, htop⟩ := class?_of_arrayShape h
        exact ⟨hclass, fun hs => absurd hs (by simp [htop])⟩
      | none =>
        rw [hitems] at h
        obtain ⟨u, -, rfl⟩ := map_eq_ok h
        exact ⟨rfl, fun htop => absurd htop Bool.false_ne_true⟩

/-! ### What the check makes of drafts -/

/-- A property is accepted exactly if it has a name and each part of its draft is. -/
theorem Field.check_draft {d : FieldDraft} {f : Field} :
    Field.check d.data = .ok f ↔
      (d.name ≠ "" ∧ f.name = d.name) ∧ someText d.type = .ok f.type ∧ f.nullable = d.nullable ∧
        anyText d.description = .ok f.description ∧ orNull anyText d.format = .ok f.format ∧
        f.ref = d.ref ∧ f.topLevel = d.topLevel ∧ f.enumValues = d.enumValues := by
  rw [FieldDraft.data, Value.record, check_dict, required_record rfl, required_record rfl,
    optional_record rfl, optional_record rfl, optional_record rfl, optional_record rfl,
    optional_record rfl, optional_record rfl, someText_text, truth_bool, truth_bool,
    orNull_optionalText, orNull_optionalText]
  exact and_congr_right fun _ => and_congr_right fun _ => and_congr_right fun _ =>
    and_congr_right fun _ => and_congr_right fun _ => and_congr_right fun _ =>
    and_congr_right fun _ => and_iff_left rfl

/-- An accepted field takes over its property, and its class is what the imports are collected
from. -/
theorem takesOver_of_check {entry : Scalar × Value} {location : String} {d : FieldDraft} {f : Field}
    (hd : propertyStep location entry = .ok d) (hf : Field.check d.data = .ok f) :
    TakesOver entry f ∧ d.target? = f.target?.filter (· ≠ "") := by
  unfold propertyStep at hd
  cases hname : textOf (.scalar entry.1) with
  | error e =>
    rw [hname] at hd
    cases hd
  | ok name =>
    rw [hname, Except.bind] at hd
    split_ifs at hd
    obtain ⟨s, hs, rfl⟩ := map_eq_ok hd
    obtain ⟨⟨-, hfname⟩, htype, hnullable, hdescription, hformat, href, htop, henum⟩ :=
      Field.check_draft.1 hf
    obtain ⟨hclass, hreference⟩ := class?_of_shapeOf hs
    dsimp only at hfname htype hnullable hdescription hformat href htop henum
    -- Of a reference the type is a text, which the check takes as it stands.
    have htext : s.topLevel = true → f.type = s.type.plain ∧ f.type ≠ "" := by
      intro hs'
      obtain ⟨-, n, hn⟩ := hreference hs'
      rw [hn] at htype
      obtain ⟨hne, hft⟩ := someText_text.1 htype
      rw [hn]
      exact ⟨hft, hft ▸ hne⟩
    have htarget : f.target? = s.class? := by
      rw [Field.target?, Shape.class?, htop, href]
      split_ifs with hs'
      · rw [(htext hs').1]
      · rfl
    refine ⟨⟨hfname ▸ hname, hnullable, hdescription, hformat, ⟨s, hs, htype, href, htop, henum⟩,
      htarget.trans hclass⟩, ?_⟩
    refine (Shape.target?_eq (s := s) fun hs' => (hreference hs').1).trans ?_
    rw [htarget, Shape.class?]
    split_ifs with hs'
    · obtain ⟨hplain, hne⟩ := htext hs'
      rw [Option.filter_some, if_pos (by simpa [hplain] using hne)]
    · rfl

/-- Accepted fields take over the properties one for one. -/
theorem forall₂_takesOver {location : String} {props : List (Scalar × Value)}
    {ds : List FieldDraft} {fs : List Field} (hds : fieldDrafts location props = .ok ds)
    (hfs : List.Forall₂ (fun d f => Field.check d.data = .ok f) ds fs) :
    List.Forall₂ TakesOver props fs ∧
      ds.filterMap FieldDraft.target? = (fs.filterMap Field.target?).filter (· ≠ "") := by
  induction props generalizing ds fs with
  | nil =>
    cases hds
    cases hfs
    exact ⟨.nil, rfl⟩
  | cons entry props ih =>
    rw [fieldDrafts_cons] at hds
    cases hstep : propertyStep location entry with
    | error e =>
      rw [hstep] at hds
      cases hds
    | ok d =>
      rw [hstep] at hds
      obtain ⟨ds', hds', rfl⟩ := map_eq_ok hds
      cases hfs with
      | cons hf hfs' =>
        obtain ⟨hover, htarget⟩ := takesOver_of_check hstep hf
        obtain ⟨hovers, htargets⟩ := ih hds' hfs'
        refine ⟨.cons hover hovers, ?_⟩
        rw [List.filterMap_cons, List.filterMap_cons, htarget, htargets]
        cases Field.target? _ with
        | none => rfl
        | some n => by_cases hn : n = "" <;> simp [hn, Option.filter_some]

/-! ### Models -/

/-- The classes that the fields of a model refer to, the model apart, each once and where it comes
first. -/
def Model.classes (m : Model) : List String :=
  ((m.fields.filterMap Field.target?).filter fun n => n ≠ "" ∧ n ≠ m.name).eraseDups

theorem Model.mem_classes {m : Model} {n : String} :
    n ∈ m.classes ↔ n ≠ "" ∧ n ≠ m.name ∧ ∃ f ∈ m.fields, f.target? = some n := by
  rw [Model.classes, List.mem_eraseDups, List.mem_filter, List.mem_filterMap, decide_eq_true_eq]
  exact ⟨fun ⟨hf, hne, hm⟩ => ⟨hne, hm, hf⟩, fun ⟨hne, hm, hf⟩ => ⟨hf, hne, hm⟩⟩

theorem modelImports_nodup (settings : Settings) (name : String) (fields : List FieldDraft) :
    ((modelImports settings name fields).map (·.name)).Nodup := by
  have hnames : (modelImports settings name fields).map (·.name) =
      freshNames [name] (fields.filterMap FieldDraft.target?) := by
    simp [modelImports, Function.comp_def]
  rw [hnames, freshNames_eq]
  exact nodup_eraseDups _

/-- The fields of an accepted draft are accepted one by one. -/
theorem Model.fields_of_check_draft {d : ModelDraft} {m : Model} (h : Model.check d.data = .ok m) :
    List.Forall₂ (fun d f => Field.check (FieldDraft.data d) = .ok f) d.fields m.fields := by
  rw [ModelDraft.data, Value.record, check_dict, required_record rfl, optional_record rfl,
    required_record rfl, optional_record rfl, listOf_list, List.forall₂_map_left_iff] at h
  exact h.2.2.1

/-- No draft of a model is refused for duplicate imports. -/
theorem modelDraft_spares {settings : Settings} {name : String} {schema : Value} {d : ModelDraft}
    (h : modelDraft settings name schema = .ok d) :
    (Model.check d.data).Spares Objection.IsDuplication := by
  unfold modelDraft at h
  dsimp only at h
  split_ifs at h
  split at h
  · cases h
  · obtain ⟨fields, -, rfl⟩ := map_eq_ok h
    exact Model.check_draft_spares (modelImports_nodup settings name fields)

/-- What a validation that fails reports is what its check found. -/
theorem check_eq_error_of_validate {α : Type} {kind kind' : Kind} {check : Check α} {data : Value}
    {name : String} {problems : List Problem}
    (h : validate kind check data = .error (.invalidNode kind' name problems)) :
    check data = .error problems := by
  unfold validate at h
  split at h
  · cases h
  · next ps hps =>
    split at h
    · cases h
      exact hps
    · cases h

/-! ### Faults in front of the check -/

/-- The computation does not end in a refusal by a check. -/
def Unrefused {α : Type} (x : Except Fault α) : Prop :=
  ∀ kind name problems, x ≠ .error (.invalidNode kind name problems)

theorem Unrefused.ok {α : Type} (a : α) : Unrefused (.ok a) := by
  intro kind name problems h
  cases h

theorem Unrefused.spec {α : Type} (cause : SpecCause) (location : String) :
    Unrefused (.error (.spec cause location) : Except Fault α) := by
  intro kind name problems h
  cases h

theorem Unrefused.misuse {α : Type} (m : Misuse) :
    Unrefused (.error (.misuse m) : Except Fault α) := by
  intro kind name problems h
  cases h

theorem Unrefused.map {α β : Type} {x : Except Fault α} (h : Unrefused x) (f : α → β) :
    Unrefused (x.map f) := by
  intro kind name problems hx
  cases x with
  | ok a => cases hx
  | error e => exact h kind name problems (congrArg _ (Except.error.inj hx))

/-- A fault that is passed on is no refusal either. -/
theorem Unrefused.error {α β : Type} {x : Except Fault α} (h : Unrefused x) {e : Fault}
    (he : x = .error e) : Unrefused (.error e : Except Fault β) :=
  fun kind name problems hx => h kind name problems (he.trans (congrArg _ (Except.error.inj hx)))

theorem unrefused_textOf (v : Value) : Unrefused (textOf v) := by
  unfold textOf
  split
  · exact .ok _
  · exact .misuse _

theorem unrefused_className (v : Value) : Unrefused (Reference.className v) := by
  unfold Reference.className
  split
  · exact .ok _
  · exact .misuse _

theorem unrefused_renameType (v : Value) : Unrefused (renameType v) := by
  unfold renameType
  split_ifs
  · exact .ok _
  · exact .misuse _
  · split
    · exact .ok _
    · exact .ok _

theorem unrefused_literalTexts (vs : List Value) : Unrefused (literalTexts vs) := by
  induction vs with
  | nil => exact .ok _
  | cons v vs ih =>
    rw [literalTexts]
    split
    · next e he =>
      have hv : Unrefused (literalText v) := by
        unfold literalText
        split
        · exact .ok _
        · exact unrefused_textOf _
      exact hv.error he
    · exact ih.map _

theorem unrefused_literalUnion (v : Value) : Unrefused (literalUnion v) := by
  unfold literalUnion
  split
  · exact (unrefused_literalTexts _).map _
  · exact .misuse _

theorem unrefused_arrayShape (items declared : Value) : Unrefused (arrayShape items declared) := by
  unfold arrayShape
  split
  · exact (unrefused_className _).map _
  · split
    · exact (unrefused_literalUnion _).map _
    · split
      · split
        · next e he => exact (unrefused_renameType _).error he
        · exact (unrefused_textOf _).map _
      · exact (unrefused_renameType _).map _

theorem unrefused_shapeOf (prop : Value) : Unrefused (shapeOf prop) := by
  unfold shapeOf
  split
  · exact (unrefused_className _).map _
  · split
    · exact (unrefused_literalUnion _).map _
    · split
      · exact unrefused_arrayShape _ _
      · exact (unrefused_renameType _).map _

theorem unrefused_fieldDrafts (location : String) (props : List (Scalar × Value)) :
    Unrefused (fieldDrafts location props) := by
  induction props with
  | nil => exact .ok _
  | cons e props ih =>
    rw [fieldDrafts]
    split
    · next x hx => exact (unrefused_textOf _).error hx
    · split_ifs
      · exact .spec _ _
      · split
        · next x hx => exact ((unrefused_shapeOf _).map _).error hx
        · exact ih.map _

theorem unrefused_modelDraft (settings : Settings) (name : String) (schema : Value) :
    Unrefused (modelDraft settings name schema) := by
  unfold modelDraft
  dsimp only
  split_ifs
  · exact .spec _ _
  · exact .spec _ _
  · split
    · exact .spec _ _
    · exact (unrefused_fieldDrafts _ _).map _

/-! ### Schemas -/

variable {settings : Settings} {key : Scalar} {schema : Value}

/-- **Compiled models take over their schemas.** The fields of a model are the properties of its
schema, one for one and in order. Its imports are the classes that its fields refer to, directly or
as elements, without the empty name and the model's own, each once and in the order of first use.
And a schema that is refused is not refused for duplicate imports. -/
theorem compileModel_takesOver :
    (∀ m, compileModel settings key schema = .ok m →
      textOf (.scalar key) = .ok m.name ∧
      (∃ props, entriesOf? (schema.field? "properties") = some props ∧
        List.Forall₂ TakesOver props m.fields) ∧
      m.imports = m.classes.map (fun n => ⟨n, settings.modelImportPath n⟩) ∧
      m.classes.Nodup ∧
      ∀ n, n ∈ m.classes ↔ n ≠ "" ∧ n ≠ m.name ∧ ∃ f ∈ m.fields, f.target? = some n) ∧
    ∀ kind name problems,
      compileModel settings key schema = .error (.invalidNode kind name problems) →
        ∀ p ∈ problems, ∀ names, p.objection ≠ .duplicateImports names := by
  constructor
  · intro m h
    obtain ⟨name, props, fields, hkey, hprops, hfields, hcheck⟩ := exists_draft_of_compileModel h
    obtain ⟨hover, htargets⟩ := forall₂_takesOver hfields (Model.fields_of_check_draft hcheck)
    have hname : m.name = name := (Model.name_of_check_draft hcheck).1
    refine ⟨hname ▸ hkey, ⟨props, hprops, hover⟩, ?_, nodup_eraseDups _,
      fun n => Model.mem_classes⟩
    have hclasses : freshNames [name] (fields.filterMap FieldDraft.target?) = m.classes := by
      rw [htargets, freshNames_eq, List.filter_filter, Model.classes, hname]
      congr 1
      refine List.filter_congr fun n _ => ?_
      simp [and_comm]
    rw [(Model.imports_of_check_draft hcheck).2, modelImports, hclasses]
  · intro kind name problems h p hp names hobjection
    unfold compileModel at h
    split at h
    · next e he => exact ((unrefused_textOf _).error he kind name problems h).elim
    · split at h
      · next e he => exact ((unrefused_modelDraft _ _ _).error he kind name problems h).elim
      · next d hd =>
        have herror := check_eq_error_of_validate h
        exact modelDraft_spares hd problems herror p hp ⟨names, hobjection⟩

/-- A schema that refers twice to one class, to the elements of an array, and to itself. -/
def familySchema : Value := .record
  [("properties", .record
    [("owner", .record [("$ref", .text "#/components/schemas/Owner")]),
      ("name", .record [("type", .text "string")]),
      ("parent", .record [("$ref", .text "#/components/schemas/Pet")]),
      ("tags", .record [("type", .text "array"),
        ("items", .record [("$ref", .text "#/components/schemas/Tag")])]),
      ("sitter", .record [("$ref", .text "#/components/schemas/Owner")])])]

/-- A schema with a reference that names no class. -/
def namelessSchema : Value := .record
  [("properties", .record
    [("owner", .record [("$ref", .text "#/components/schemas/")]),
      ("sitter", .record [("$ref", .text "#/components/schemas/")])])]

theorem compileModel_takesOver_family :
    (∃ m, compileModel {} (.text "Pet") familySchema = .ok m ∧
      m.imports = [⟨"Owner", "@/models/Owner"⟩, ⟨"Tag", "@/models/Tag"⟩]) ∧
    ∃ problems, compileModel {} (.text "Pet") namelessSchema =
        .error (.invalidNode .model "Pet" problems) ∧
      problems.length = 3 ∧ ∀ p ∈ problems, ∀ names, p.objection ≠ .duplicateImports names := by
  constructor
  · have hclasses : (compileModel {} (.text "Pet") familySchema).toOption.map Model.classes =
        some ["Owner", "Tag"] := by decide +kernel
    cases hm : compileModel {} (.text "Pet") familySchema with
    | error e =>
      rw [hm] at hclasses
      cases hclasses
    | ok m =>
      rw [hm] at hclasses
      refine ⟨m, rfl, ?_⟩
      rw [(compileModel_takesOver.1 m hm).2.2.1, Option.some.inj hclasses]
      decide
  · have hproblems : compileModel {} (.text "Pet") namelessSchema =
        .error (.invalidNode .model "Pet"
          [⟨.emptyText, [.key "fields", .index 0, .key "type"]⟩,
            ⟨.emptyText, [.key "fields", .index 1, .key "type"]⟩,
            ⟨.emptyText, [.key "imports", .index 0, .key "name"]⟩]) := by decide +kernel
    exact ⟨_, hproblems, rfl, compileModel_takesOver.2 _ _ _ hproblems⟩

end ApiScaffold
