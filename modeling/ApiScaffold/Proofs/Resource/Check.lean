import ApiScaffold.Compile
import ApiScaffold.Proofs.Keyed

/-!
# What a check accepts

A check that succeeds has read every part of the data, and nothing was left over.

* `Checked.and_eq_ok`, `Checked.withProblems_eq_ok`, `Check.required_eq_ok`, …: each combinator
  succeeds exactly if its parts do, so that a check of a record is the list of its fields
  (`Import.check_dict`, `Method.check_dict`, …);
* `Import.check_data`, `Method.check_data`, …: data that was written from a resource is read back as
  that resource, exactly if it is `Sound`, and what a check accepts is sound
  (`Method.sound_of_check`): accepted once, its data is accepted again;
* `Method.check_draft`: what is accepted of the draft of an operation;
* `Service.check_draft`, `Controller.check_draft`: when a draft is accepted, and as what.
-/

namespace ApiScaffold

open Draft

/-! ### Combinators -/

namespace Checked

variable {α β : Type}

theorem and_eq_ok {f : Checked (α → β)} {c : Checked α} {b : β} :
    f.and c = .ok b ↔ ∃ g a, f = .ok g ∧ c = .ok a ∧ g a = b := by
  cases f <;> cases c <;> simp [Checked.and]

theorem under_eq_ok {step : Step} {c : Checked α} {a : α} : c.under step = .ok a ↔ c = .ok a := by
  cases c <;> simp [under]

theorem withProblems_eq_ok {qs : List Problem} {c : Checked α} {a : α} :
    c.withProblems qs = .ok a ↔ c = .ok a ∧ qs = [] := by
  cases c with
  | error ps => simp [withProblems]
  | ok b => cases qs <;> simp [withProblems]

theorem andThen_eq_ok {c : Checked α} {f : α → Checked β} {b : β} :
    c.andThen f = .ok b ↔ ∃ a, c = .ok a ∧ f a = .ok b := by
  cases c <;> simp [andThen]

@[simp] theorem object_ne_ok {o : Objection} {a : α} : (object o : Checked α) ≠ .ok a := nofun

end Checked

namespace Check

open Checked

variable {α : Type}

theorem someText_eq_ok {v : Value} {t : String} :
    someText v = .ok t ↔ anyText v = .ok t ∧ t ≠ "" := by
  rw [someText, andThen_eq_ok]
  constructor
  · rintro ⟨s, hs, ht⟩
    split_ifs at ht with hempty
    · exact (object_ne_ok ht).elim
    · obtain rfl := Except.ok.inj ht
      exact ⟨hs, hempty⟩
  · rintro ⟨ht, hne⟩
    exact ⟨t, ht, if_neg hne⟩

theorem anyText_text {s t : String} : anyText (.text s) = .ok t ↔ t = s := by
  simp [anyText, eq_comm]

theorem someText_text {s t : String} : someText (.text s) = .ok t ↔ s ≠ "" ∧ t = s := by
  rw [someText_eq_ok, anyText_text]
  constructor
  · rintro ⟨rfl, hne⟩
    exact ⟨hne, rfl⟩
  · rintro ⟨hne, rfl⟩
    exact ⟨rfl, hne⟩

/-- The items of a list are accepted one by one. -/
theorem itemsFrom_eq_ok {check : Check α} {i : ℕ} {vs : List Value} {as : List α} :
    itemsFrom check i vs = .ok as ↔ List.Forall₂ (fun v a => check v = .ok a) vs as := by
  -- The number of an item shows in problems only.
  induction vs generalizing i as with
  | nil => cases as <;> simp [itemsFrom]
  | cons v vs ih =>
    rw [itemsFrom, and_eq_ok, List.forall₂_cons_left_iff]
    constructor
    · rintro ⟨g, bs, hg, hbs, rfl⟩
      obtain ⟨a, ha, hga⟩ := andThen_eq_ok.1 hg
      refine ⟨a, bs, under_eq_ok.1 ha, ih.1 hbs, ?_⟩
      rw [← Except.ok.inj hga]
    · rintro ⟨a, bs, ha, hbs, rfl⟩
      exact ⟨(a :: ·), bs, andThen_eq_ok.2 ⟨a, under_eq_ok.2 ha, rfl⟩, ih.2 hbs, rfl⟩

theorem listOf_list {check : Check α} {vs : List Value} {as : List α} :
    listOf check (.list vs) = .ok as ↔ List.Forall₂ (fun v a => check v = .ok a) vs as :=
  itemsFrom_eq_ok

theorem listOf_eq_ok {check : Check α} {v : Value} {as : List α} :
    listOf check v = .ok as ↔
      ∃ vs, listItems? v = some vs ∧ List.Forall₂ (fun v a => check v = .ok a) vs as := by
  unfold listOf
  cases listItems? v <;> simp [itemsFrom_eq_ok]

/-- What a check promises of every value holds for each item of a list that it accepts. -/
theorem forall_of_listOf {check : Check α} {sound : α → Prop}
    (hcheck : ∀ v a, check v = .ok a → sound a) {v : Value} {as : List α}
    (h : listOf check v = .ok as) : ∀ a ∈ as, sound a := by
  intro a ha
  obtain ⟨vs, -, hall⟩ := listOf_eq_ok.1 h
  obtain ⟨u, -, hu⟩ := exists_of_forall₂_right hall ha
  exact hcheck u a hu

theorem atMostOne_eq_ok {check : Check α} {v : Value} {as : List α} :
    atMostOne check v = .ok as ↔ ∃ vs, listItems? v = some vs ∧ vs.length ≤ 1 ∧
      List.Forall₂ (fun v a => check v = .ok a) vs as := by
  unfold atMostOne
  cases listItems? v with
  | none => simp
  | some vs =>
    by_cases hlen : 1 < vs.length
    · simp [hlen, hlen.not_ge]
    · simp [hlen, not_lt.1 hlen, itemsFrom_eq_ok]

theorem atMostOne_list {check : Check α} {vs : List Value} {as : List α} :
    atMostOne check (.list vs) = .ok as ↔
      vs.length ≤ 1 ∧ List.Forall₂ (fun v a => check v = .ok a) vs as := by
  simp [atMostOne_eq_ok, listItems?]

theorem orNull_eq_ok {check : Check α} {v : Value} {a : Option α} :
    orNull check v = .ok a ↔
      (v = .null ∧ a = none) ∨ v ≠ .null ∧ ∃ b, check v = .ok b ∧ a = some b := by
  unfold orNull
  split
  · simp [@eq_comm _ none a]
  · rename_i hne
    simp [andThen_eq_ok, @eq_comm _ _ a, show v ≠ .null from hne]

theorem mapping_eq_ok {kind : String} {check : Entries → Checked α} {v : Value} {a : α} :
    mapping kind check v = .ok a ↔ ∃ es, v = .dict es ∧ check es = .ok a := by
  cases v <;> simp [mapping]

theorem required_eq_ok {name : String} {check : Check α} {es : Entries} {a : α} :
    required name check es = .ok a ↔
      ∃ v, Entries.find? (.text name) es = some v ∧ check v = .ok a := by
  rw [required, under_eq_ok]
  cases Entries.find? (.text name) es <;> simp

theorem ne_of_required_someText {name s : String} {es : Entries}
    (h : required name someText es = .ok s) : s ≠ "" := by
  obtain ⟨v, -, hv⟩ := required_eq_ok.1 h
  exact (someText_eq_ok.1 hv).2

theorem optional_eq_ok {name : String} {default : α} {check : Check α} {es : Entries} {a : α} :
    optional name default check es = .ok a ↔
      (Entries.find? (.text name) es = none ∧ a = default) ∨
        ∃ v, Entries.find? (.text name) es = some v ∧ check v = .ok a := by
  rw [optional]
  cases Entries.find? (.text name) es <;> simp [under_eq_ok, @eq_comm _ default a]

theorem orNull_null {check : Check α} {a : Option α} : orNull check .null = .ok a ↔ a = none := by
  simp [orNull_eq_ok]

theorem orNull_of_ne {check : Check α} {v : Value} {a : Option α} (hv : v ≠ .null) :
    orNull check v = .ok a ↔ ∃ b, check v = .ok b ∧ a = some b := by
  simp [orNull_eq_ok, hv]

theorem orNull_optionalText {s t : Option String} :
    orNull anyText (optionalText s) = .ok t ↔ t = s := by
  cases s with
  | none => exact orNull_null
  | some s => simp [optionalText, orNull_of_ne, anyText_text]

/-- Data that may be absent is read back exactly if what is there is. -/
theorem orNull_data {check : Check α} {data : α → Value} {sound : α → Prop}
    (hne : ∀ a, data a ≠ .null) (hdata : ∀ a b, check (data a) = .ok b ↔ sound a ∧ b = a)
    {a b : Option α} :
    orNull check ((a.map data).getD .null) = .ok b ↔ (∀ c, a = some c → sound c) ∧ b = a := by
  cases a with
  | none => simp [orNull_null]
  | some a =>
    rw [Option.map_some, Option.getD_some, orNull_of_ne (hne a)]
    simp [hdata]

/-- A key of a record is looked up among its fields. -/
theorem find?_fields (fields : List (String × Value)) (name : String) :
    Entries.find? (.text name) (fields.map fun f => (Scalar.text f.1, f.2)) =
      fields.lookup name :=
  Value.field?_record fields name

/-- A field of a record is read by its check. -/
theorem required_record {name : String} {check : Check α} {fields : List (String × Value)}
    {v : Value} {a : α} (hv : fields.lookup name = some v) :
    required name check (fields.map fun f => (Scalar.text f.1, f.2)) = .ok a ↔ check v = .ok a := by
  simp [required_eq_ok, find?_fields, hv]

theorem optional_record {name : String} {default : α} {check : Check α}
    {fields : List (String × Value)} {v : Value} {a : α} (hv : fields.lookup name = some v) :
    optional name default check (fields.map fun f => (Scalar.text f.1, f.2)) = .ok a ↔
      check v = .ok a := by
  simp [optional_eq_ok, find?_fields, hv]

/-- Items written one by one are read back exactly if each of them is. -/
theorem forall₂_data {check : Check α} {data : α → Value} {sound : α → Prop}
    (hdata : ∀ a b, check (data a) = .ok b ↔ sound a ∧ b = a) {as bs : List α} :
    List.Forall₂ (fun v b => check v = .ok b) (as.map data) bs ↔ (∀ a ∈ as, sound a) ∧ bs = as := by
  rw [List.forall₂_map_left_iff]
  simp only [hdata, List.forall₂_and_left]
  refine and_congr_right fun _ => ?_
  rw [← List.forall₂_eq_eq_eq]
  exact ⟨fun h => .flip h, fun h => .flip h⟩

end Check

open Checked Check

theorem validate_eq_ok {α : Type} {kind : Kind} {check : Check α} {data : Value} {a : α} :
    validate kind check data = .ok a ↔ check data = .ok a := by
  unfold validate
  cases check data with
  | ok b => simp
  | error ps => cases data <;> simp

/-! ### Imports and bodies -/

/-- Name and path are there. -/
def Import.Sound (i : Import) : Prop := i.name ≠ "" ∧ i.path ≠ ""

theorem Import.check_dict {es : Entries} {i : Import} :
    Import.check (.dict es) = .ok i ↔
      required "name" someText es = .ok i.name ∧ required "path" someText es = .ok i.path ∧
        strayKeys ["name", "path"] es = [] := by
  obtain ⟨name, path⟩ := i
  simp [Import.check, mapping, withProblems_eq_ok, and_eq_ok, and_assoc]

theorem Import.check_data {i j : Import} : Import.check i.data = .ok j ↔ i.Sound ∧ j = i := by
  obtain ⟨name, path⟩ := j
  rw [Import.data, Value.record, check_dict, required_record rfl, required_record rfl,
    someText_text, someText_text]
  constructor
  · rintro ⟨⟨hname, rfl⟩, ⟨hpath, rfl⟩, -⟩
    exact ⟨⟨hname, hpath⟩, rfl⟩
  · rintro ⟨⟨hname, hpath⟩, rfl⟩
    exact ⟨⟨hname, rfl⟩, ⟨hpath, rfl⟩, rfl⟩

/-- Sound imports of pairwise different names. -/
def Import.AllSound (is : List Import) : Prop := (∀ i ∈ is, i.Sound) ∧ (is.map (·.name)).Nodup

/-- Import names have no duplicates exactly if they are pairwise different. -/
theorem Import.duplicates_isEmpty {is : List Import} :
    (Import.duplicates is).isEmpty = true ↔ (is.map (·.name)).Nodup := by
  have hmem : ∀ n, n ∈ Import.duplicates is ↔ 1 < (is.map (·.name)).count n := by
    intro n
    unfold Import.duplicates
    rw [List.mem_mergeSort, List.mem_eraseDups, List.mem_filter, decide_eq_true_eq]
    refine ⟨And.right, fun h => ⟨List.count_pos_iff.1 (by omega), h⟩⟩
  rw [List.isEmpty_iff, List.eq_nil_iff_forall_not_mem, List.nodup_iff_count_le_one]
  simp only [hmem, not_lt]

theorem Import.checkAll_data {is js : List Import} :
    Import.checkAll (.list (is.map Import.data)) = .ok js ↔ AllSound is ∧ js = is := by
  rw [Import.checkAll, andThen_eq_ok]
  simp only [listOf_list, forall₂_data fun _ _ => Import.check_data]
  constructor
  · rintro ⟨ks, ⟨hsound, rfl⟩, hjs⟩
    split_ifs at hjs with hd
    · exact ⟨⟨hsound, duplicates_isEmpty.1 hd⟩, (Except.ok.inj hjs).symm⟩
    · exact (object_ne_ok hjs).elim
  · rintro ⟨⟨hsound, hnodup⟩, rfl⟩
    exact ⟨js, ⟨hsound, rfl⟩, if_pos (duplicates_isEmpty.2 hnodup)⟩

/-- Name and type are there. -/
def BodyParam.Sound (b : BodyParam) : Prop := b.name ≠ "" ∧ b.type ≠ ""

theorem BodyParam.check_dict {es : Entries} {b : BodyParam} :
    BodyParam.check (.dict es) = .ok b ↔
      required "name" someText es = .ok b.name ∧ required "type" someText es = .ok b.type ∧
        strayKeys ["name", "type"] es = [] := by
  obtain ⟨name, type⟩ := b
  simp [BodyParam.check, mapping, withProblems_eq_ok, and_eq_ok, and_assoc]

theorem BodyParam.check_data {b c : BodyParam} :
    BodyParam.check b.data = .ok c ↔ b.Sound ∧ c = b := by
  obtain ⟨name, type⟩ := c
  rw [BodyParam.data, Value.record, check_dict, required_record rfl, required_record rfl,
    someText_text, someText_text]
  constructor
  · rintro ⟨⟨hname, rfl⟩, ⟨htype, rfl⟩, -⟩
    exact ⟨⟨hname, htype⟩, rfl⟩
  · rintro ⟨⟨hname, htype⟩, rfl⟩
    exact ⟨⟨hname, rfl⟩, ⟨htype, rfl⟩, rfl⟩

/-! ### Operations -/

/-- Location and name are there. -/
def Parameter.Sound (p : Parameter) : Prop := p.location ≠ "" ∧ p.name ≠ ""

theorem Parameter.check_dict {es : Entries} {p : Parameter} :
    Parameter.check (.dict es) = .ok p ↔
      Check.required "location" someText es = .ok p.location ∧
        Check.required "name" someText es = .ok p.name ∧
        optional "required" false truth es = .ok p.required ∧
        strayKeys ["location", "name", "required"] es = [] := by
  obtain ⟨location, name, _ | _⟩ := p <;>
    simp [Parameter.check, mapping, withProblems_eq_ok, and_eq_ok, and_assoc]

theorem Parameter.check_data {p q : Parameter} :
    Parameter.check p.data = .ok q ↔ p.Sound ∧ q = p := by
  obtain ⟨location, name, required⟩ := q
  rw [Parameter.data, Value.record, check_dict, required_record rfl, required_record rfl,
    optional_record rfl, someText_text, someText_text]
  constructor
  · rintro ⟨⟨hlocation, rfl⟩, ⟨hname, rfl⟩, hrequired, -⟩
    obtain rfl : p.required = required := Except.ok.inj hrequired
    exact ⟨⟨hlocation, hname⟩, rfl⟩
  · rintro ⟨⟨hlocation, hname⟩, rfl⟩
    exact ⟨⟨hlocation, rfl⟩, ⟨hname, rfl⟩, rfl, rfl⟩

/-- Every parameter is sound, and there is at most one body. -/
structure MethodParameters.Sound (p : MethodParameters) : Prop where
  params : ∀ ps, p.params = some ps → ∀ q ∈ ps, q.Sound
  body : ∀ bs, p.body = some bs → bs.length ≤ 1 ∧ ∀ b ∈ bs, b.Sound

theorem MethodParameters.check_dict {es : Entries} {p : MethodParameters} :
    MethodParameters.check (.dict es) = .ok p ↔
      optional "params" none (orNull (listOf Parameter.check)) es = .ok p.params ∧
        optional "body" none (orNull (atMostOne BodyParam.check)) es = .ok p.body ∧
        strayKeys ["params", "body"] es = [] := by
  obtain ⟨params, body⟩ := p
  simp [MethodParameters.check, mapping, withProblems_eq_ok, and_eq_ok, and_assoc]

theorem MethodParameters.data_eq (p : MethodParameters) :
    p.data = .record
      [("params", (p.params.map fun ps => .list (ps.map Parameter.data)).getD .null),
        ("body", (p.body.map fun bs => .list (bs.map BodyParam.data)).getD .null)] := by
  rw [data]
  cases p.params <;> cases p.body <;> rfl

theorem MethodParameters.check_data {p q : MethodParameters} :
    MethodParameters.check p.data = .ok q ↔ p.Sound ∧ q = p := by
  obtain ⟨params, body⟩ := q
  have hparams : ∀ ps qs, listOf Parameter.check (.list (ps.map Parameter.data)) = .ok qs ↔
      (∀ r ∈ ps, r.Sound) ∧ qs = ps := fun ps qs =>
    listOf_list.trans (forall₂_data fun _ _ => Parameter.check_data)
  have hbody : ∀ bs cs, atMostOne BodyParam.check (.list (bs.map BodyParam.data)) = .ok cs ↔
      (bs.length ≤ 1 ∧ ∀ b ∈ bs, b.Sound) ∧ cs = bs := by
    intro bs cs
    rw [atMostOne_list, forall₂_data fun _ _ => BodyParam.check_data, List.length_map, and_assoc]
  rw [data_eq, Value.record, check_dict, optional_record rfl, optional_record rfl,
    orNull_data (by rintro _ ⟨⟩) hparams, orNull_data (by rintro _ ⟨⟩) hbody]
  constructor
  · rintro ⟨⟨hp, rfl⟩, ⟨hb, rfl⟩, -⟩
    exact ⟨⟨hp, hb⟩, rfl⟩
  · rintro ⟨⟨hp, hb⟩, rfl⟩
    exact ⟨⟨hp, rfl⟩, ⟨hb, rfl⟩, rfl⟩

theorem Verb.check_name {v w : Verb} : Verb.check (.text v.name) = .ok w ↔ w = v := by
  cases v <;> cases w <;> decide

/-- Name and place are there, and what the operation takes is sound. -/
structure Method.Sound (m : Method) : Prop where
  name : m.name ≠ ""
  url : m.url ≠ ""
  parameters : ∀ p, m.parameters = some p → p.Sound

theorem Method.check_dict {es : Entries} {m : Method} :
    Method.check (.dict es) = .ok m ↔
      required "type" Verb.check es = .ok m.verb ∧ required "name" someText es = .ok m.name ∧
        required "url" someText es = .ok m.url ∧
        optional "content_type" none (orNull anyText) es = .ok m.contentType ∧
        optional "parameters" none (orNull MethodParameters.check) es = .ok m.parameters ∧
        strayKeys ["type", "name", "url", "content_type", "parameters"] es = [] := by
  obtain ⟨verb, name, url, contentType, parameters⟩ := m
  simp [Method.check, mapping, withProblems_eq_ok, and_eq_ok, and_assoc]

theorem Method.data_eq (m : Method) :
    m.data = .record [("type", .text m.verb.name), ("name", .text m.name), ("url", .text m.url),
      ("content_type", optionalText m.contentType),
      ("parameters", (m.parameters.map MethodParameters.data).getD .null)] := by
  rw [data]
  cases m.parameters <;> rfl

theorem Method.check_data {m n : Method} : Method.check m.data = .ok n ↔ m.Sound ∧ n = m := by
  obtain ⟨verb, name, url, contentType, parameters⟩ := n
  rw [data_eq, Value.record, check_dict, required_record rfl, required_record rfl,
    required_record rfl, optional_record rfl, optional_record rfl, Verb.check_name, someText_text,
    someText_text, orNull_optionalText, orNull_data (by rintro _ ⟨⟩) fun _ _ =>
      MethodParameters.check_data]
  constructor
  · rintro ⟨rfl, ⟨hname, rfl⟩, ⟨hurl, rfl⟩, rfl, ⟨hp, rfl⟩, -⟩
    exact ⟨⟨hname, hurl, hp⟩, rfl⟩
  · rintro ⟨⟨hname, hurl, hp⟩, rfl⟩
    exact ⟨rfl, ⟨hname, rfl⟩, ⟨hurl, rfl⟩, rfl, ⟨hp, rfl⟩, rfl⟩

/-! ### What is accepted is sound -/

theorem Import.sound_of_check {v : Value} {i : Import} (h : Import.check v = .ok i) : i.Sound := by
  obtain ⟨es, rfl, -⟩ := mapping_eq_ok.1 h
  obtain ⟨hname, hpath, -⟩ := check_dict.1 h
  exact ⟨ne_of_required_someText hname, ne_of_required_someText hpath⟩

/-- Imports that are accepted together are sound, and of pairwise different names. -/
theorem Import.allSound_of_checkAll {v : Value} {is : List Import}
    (h : Import.checkAll v = .ok is) : AllSound is := by
  obtain ⟨js, hjs, his⟩ := andThen_eq_ok.1 h
  split_ifs at his with hnodup
  · obtain rfl := Except.ok.inj his
    exact ⟨forall_of_listOf (fun _ _ => sound_of_check) hjs, duplicates_isEmpty.1 hnodup⟩
  · exact (object_ne_ok his).elim

theorem BodyParam.sound_of_check {v : Value} {b : BodyParam} (h : BodyParam.check v = .ok b) :
    b.Sound := by
  obtain ⟨es, rfl, -⟩ := mapping_eq_ok.1 h
  obtain ⟨hname, htype, -⟩ := check_dict.1 h
  exact ⟨ne_of_required_someText hname, ne_of_required_someText htype⟩

theorem Parameter.sound_of_check {v : Value} {p : Parameter} (h : Parameter.check v = .ok p) :
    p.Sound := by
  obtain ⟨es, rfl, -⟩ := mapping_eq_ok.1 h
  obtain ⟨hlocation, hname, -⟩ := check_dict.1 h
  exact ⟨ne_of_required_someText hlocation, ne_of_required_someText hname⟩

/-- What stands in an optional field that may be null was accepted by its check. -/
theorem Check.exists_of_optional_orNull {α : Type} {name : String} {check : Check α} {es : Entries}
    {a : α} (h : optional name none (orNull check) es = .ok (some a)) : ∃ v, check v = .ok a := by
  rcases optional_eq_ok.1 h with ⟨-, hnone⟩ | ⟨v, -, hv⟩
  · cases hnone
  · rcases orNull_eq_ok.1 hv with ⟨-, hnone⟩ | ⟨-, b, hb, hab⟩
    · cases hnone
    · exact ⟨v, Option.some.inj hab ▸ hb⟩

theorem MethodParameters.sound_of_check {v : Value} {p : MethodParameters}
    (h : MethodParameters.check v = .ok p) : p.Sound := by
  obtain ⟨es, rfl, -⟩ := mapping_eq_ok.1 h
  obtain ⟨hparams, hbody, -⟩ := check_dict.1 h
  refine ⟨fun ps hps q hq => ?_, fun bs hbs => ?_⟩
  · rw [hps] at hparams
    obtain ⟨w, hw⟩ := exists_of_optional_orNull hparams
    exact forall_of_listOf (fun _ _ => Parameter.sound_of_check) hw q hq
  · rw [hbs] at hbody
    obtain ⟨w, hw⟩ := exists_of_optional_orNull hbody
    obtain ⟨vs, -, hlen, hall⟩ := atMostOne_eq_ok.1 hw
    refine ⟨hall.length_eq ▸ hlen, fun b hb => ?_⟩
    obtain ⟨u, -, hu⟩ := exists_of_forall₂_right hall hb
    exact BodyParam.sound_of_check hu

theorem Method.sound_of_check {v : Value} {m : Method} (h : Method.check v = .ok m) : m.Sound := by
  obtain ⟨es, rfl, -⟩ := mapping_eq_ok.1 h
  obtain ⟨-, hname, hurl, -, hparameters, -⟩ := check_dict.1 h
  refine ⟨ne_of_required_someText hname, ne_of_required_someText hurl, fun p hp => ?_⟩
  rw [hp] at hparameters
  obtain ⟨w, hw⟩ := exists_of_optional_orNull hparameters
  exact MethodParameters.sound_of_check hw

/-- An accepted operation is accepted again, as the same. -/
theorem Method.check_data_of_check {v : Value} {m : Method} (h : Method.check v = .ok m) :
    Method.check m.data = .ok m :=
  check_data.2 ⟨sound_of_check h, rfl⟩

theorem Method.sound_bodies {m : Method} (h : m.Sound) :
    m.bodies.length ≤ 1 ∧ ∀ b ∈ m.bodies, b.Sound := by
  unfold Method.bodies
  cases hp : m.parameters with
  | none => simp
  | some p =>
    cases hb : p.body with
    | none => simp [hb]
    | some bs => simpa [hb] using (h.parameters p hp).body bs hb

/-! ### Drafts of operations -/

namespace Draft

theorem ParametersDraft.data_eq (p : ParametersDraft) :
    p.data = .record
      [("params", (p.params.map fun ps => .list (ps.map ParameterDraft.data)).getD .null),
        ("body", (p.body.map fun bs => .list (bs.map BodyParam.data)).getD .null)] := by
  rw [data]
  cases p.params <;> cases p.body <;> rfl

theorem MethodDraft.data_eq (d : MethodDraft) :
    d.data = .record [("type", .text d.verb.name), ("name", d.name), ("url", .text d.url),
      ("content_type", d.contentType),
      ("parameters", (d.parameters.map ParametersDraft.data).getD .null)] := by
  rw [data]
  cases d.parameters <;> rfl

theorem ParametersDraft.data_ofParameters (p : MethodParameters) :
    (ParametersDraft.ofParameters p).data = p.data := by
  have hparam : ParameterDraft.data ∘ ParameterDraft.ofParameter = Parameter.data := rfl
  rw [data_eq, MethodParameters.data_eq, ofParameters]
  cases p.params <;> simp [hparam]

/-- The draft of an operation has the operation's data. -/
theorem MethodDraft.data_ofMethod (m : Method) : (MethodDraft.ofMethod m).data = m.data := by
  rw [data_eq, Method.data_eq, ofMethod]
  cases m.parameters <;> simp [ParametersDraft.data_ofParameters]

end Draft

/-- What an operation takes is accepted with the body of its draft. -/
theorem MethodParameters.body_of_check_draft {p : ParametersDraft} {q : MethodParameters}
    (h : MethodParameters.check p.data = .ok q) : q.body = p.body := by
  rw [ParametersDraft.data_eq, Value.record, check_dict, optional_record rfl, optional_record rfl]
    at h
  obtain ⟨-, hbody, -⟩ := h
  cases hp : p.body with
  | none =>
    rw [hp] at hbody
    exact orNull_null.1 hbody
  | some bs =>
    rw [hp, Option.map_some, Option.getD_some] at hbody
    obtain ⟨cs, hcs, hq⟩ := (orNull_of_ne (by rintro ⟨⟩)).1 hbody
    obtain ⟨-, hall⟩ := atMostOne_list.1 hcs
    rw [hq, ((forall₂_data fun _ _ => BodyParam.check_data).1 hall).2]

/-- An operation is accepted exactly if each part of its draft is. -/
theorem Method.check_draft {d : MethodDraft} {m : Method} :
    Method.check d.data = .ok m ↔
      m.verb = d.verb ∧ someText d.name = .ok m.name ∧ (d.url ≠ "" ∧ m.url = d.url) ∧
        orNull anyText d.contentType = .ok m.contentType ∧
        orNull MethodParameters.check ((d.parameters.map ParametersDraft.data).getD .null) =
          .ok m.parameters := by
  rw [MethodDraft.data_eq, Value.record, check_dict, required_record rfl, required_record rfl,
    required_record rfl, optional_record rfl, optional_record rfl, Verb.check_name, someText_text]
  refine and_congr_right fun _ => and_congr_right fun _ => and_congr_right fun _ =>
    and_congr_right fun _ => and_iff_left rfl

/-- An accepted operation has the text of its draft's name. -/
theorem Method.name_of_check_draft {d : MethodDraft} {m : Method}
    (h : Method.check d.data = .ok m) : anyText d.name = .ok m.name :=
  (someText_eq_ok.1 (check_draft.1 h).2.1).1

/-- An accepted operation has the bodies of its draft, of which there is at most one. -/
theorem Method.bodies_of_check_draft {d : MethodDraft} {m : Method}
    (h : Method.check d.data = .ok m) : m.bodies = d.bodies ∧ d.bodies.length ≤ 1 := by
  have hbodies : m.bodies = d.bodies := by
    obtain ⟨-, -, -, -, hparameters⟩ := check_draft.1 h
    rw [Method.bodies, MethodDraft.bodies]
    cases hd : d.parameters with
    | none =>
      rw [hd] at hparameters
      rw [orNull_null.1 hparameters]
      rfl
    | some p =>
      rw [hd, Option.map_some, Option.getD_some] at hparameters
      obtain ⟨q, hq, hm⟩ := (orNull_of_ne (by rintro ⟨⟩)).1 hparameters
      rw [hm, Option.bind_some, Option.bind_some, MethodParameters.body_of_check_draft hq]
  exact ⟨hbodies, hbodies ▸ (sound_bodies (sound_of_check h)).1⟩

/-! ### Models -/

theorem Model.check_dict {es : Entries} {m : Model} :
    Model.check (.dict es) = .ok m ↔
      required "name" someText es = .ok m.name ∧
        optional "description" "" anyText es = .ok m.description ∧
        required "fields" (listOf Field.check) es = .ok m.fields ∧
        optional "imports" [] Import.checkAll es = .ok m.imports ∧
        strayKeys ["name", "description", "fields", "imports"] es = [] := by
  obtain ⟨name, description, fields, imports⟩ := m
  simp [Model.check, mapping, withProblems_eq_ok, and_eq_ok, and_assoc]

/-- An accepted model has the name of its draft. -/
theorem Model.name_of_check_draft {d : ModelDraft} {m : Model} (h : Model.check d.data = .ok m) :
    m.name = d.name ∧ m.name ≠ "" := by
  rw [ModelDraft.data, Value.record, check_dict, required_record rfl, someText_text] at h
  obtain ⟨⟨hne, hname⟩, -⟩ := h
  exact ⟨hname, hname ▸ hne⟩

/-! ### Services and controllers -/

/-- Operations and what the check made of them. -/
abbrev Draft.Accepted (ds : List MethodDraft) (ms : List Method) : Prop :=
  List.Forall₂ (fun d m => Method.check (MethodDraft.data d) = .ok m) ds ms

theorem Service.check_dict {es : Entries} {s : Service} :
    Service.check (.dict es) = .ok s ↔
      required "name" someText es = .ok s.name ∧
        optional "description" "" anyText es = .ok s.description ∧
        required "methods" (listOf Method.check) es = .ok s.methods ∧
        optional "imports" [] Import.checkAll es = .ok s.imports ∧
        strayKeys ["name", "description", "methods", "imports"] es = [] := by
  obtain ⟨name, description, methods, imports⟩ := s
  simp [Service.check, mapping, withProblems_eq_ok, and_eq_ok, and_assoc]

/-- A service is accepted exactly if it has a name, its imports are sound and all its operations are
accepted; it is what its draft says. -/
theorem Service.check_draft {d : ServiceDraft} {s : Service} :
    Service.check d.data = .ok s ↔
      d.name ≠ "" ∧ Import.AllSound d.imports ∧ Accepted d.methods s.methods ∧
        s = ⟨d.name, d.description, s.methods, d.imports⟩ := by
  obtain ⟨name, description, methods, imports⟩ := s
  rw [ServiceDraft.data, Value.record, check_dict, required_record rfl, optional_record rfl,
    required_record rfl, optional_record rfl, someText_text, anyText_text, listOf_list,
    List.forall₂_map_left_iff, Import.checkAll_data]
  constructor
  · rintro ⟨⟨hname, rfl⟩, rfl, hms, ⟨himports, rfl⟩, -⟩
    exact ⟨hname, himports, hms, rfl⟩
  · rintro ⟨hname, himports, hms, heq⟩
    obtain ⟨rfl, rfl, -, rfl⟩ := Service.mk.inj heq
    exact ⟨⟨hname, rfl⟩, rfl, hms, ⟨himports, rfl⟩, rfl⟩

theorem Controller.check_dict {es : Entries} {c : Controller} :
    Controller.check (.dict es) = .ok c ↔
      required "name" someText es = .ok c.name ∧
        optional "description" "" anyText es = .ok c.description ∧
        optional "path" "" anyText es = .ok c.path ∧
        required "methods" (listOf Method.check) es = .ok c.methods ∧
        required "imports" Import.checkAll es = .ok c.imports ∧
        strayKeys ["name", "description", "path", "methods", "imports"] es = [] ∧
        c.serviceImports.length = 1 := by
  have hservice : ∀ b : Controller,
      Controller.checkService b = .ok c ↔ b = c ∧ c.serviceImports.length = 1 := by
    intro b
    rw [checkService]
    split_ifs with hone
    · refine ⟨fun h => ?_, fun h => congrArg _ h.1⟩
      obtain rfl := Except.ok.inj h
      exact ⟨rfl, hone⟩
    · refine ⟨fun h => (object_ne_ok h).elim, ?_⟩
      rintro ⟨rfl, h⟩
      exact absurd h hone
  obtain ⟨name, description, path, methods, imports⟩ := c
  simp [Controller.check, mapping, withProblems_eq_ok, and_eq_ok, andThen_eq_ok, hservice,
    and_assoc]

/-- A controller is accepted exactly if it has a name, its imports are sound and one of them is its
service, and all its operations are accepted; it is what its draft says. -/
theorem Controller.check_draft {d : ControllerDraft} {c : Controller} :
    Controller.check d.data = .ok c ↔
      d.name ≠ "" ∧ Import.AllSound d.imports ∧
        (d.imports.filter fun i => i.name == d.name ++ "Service").length = 1 ∧
        Accepted d.methods c.methods ∧
        c = ⟨d.name, d.description, d.path, c.methods, d.imports⟩ := by
  obtain ⟨name, description, path, methods, imports⟩ := c
  rw [ControllerDraft.data, Value.record, check_dict, required_record rfl, optional_record rfl,
    optional_record rfl, required_record rfl, required_record rfl, someText_text, anyText_text,
    anyText_text, listOf_list, List.forall₂_map_left_iff, Import.checkAll_data]
  constructor
  · rintro ⟨⟨hname, rfl⟩, rfl, rfl, hms, ⟨himports, rfl⟩, -, hone⟩
    exact ⟨hname, himports, hone, hms, rfl⟩
  · rintro ⟨hname, himports, hone, hms, heq⟩
    obtain ⟨rfl, rfl, rfl, -, rfl⟩ := Controller.mk.inj heq
    exact ⟨⟨hname, rfl⟩, rfl, rfl, hms, ⟨himports, rfl⟩, rfl, hone⟩

end ApiScaffold
