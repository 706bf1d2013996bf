import ApiScaffold.Proofs.Compile.Misshapen
import ApiScaffold.Proofs.Compile.Agreement

/-!
# Announced faults

A document of the right version is compiled, or comes to a fault that says what is wrong with it,
unless one of its parts is misshapen; and a document with a misshapen part is never compiled.

* `Misshapen` lists the parts of a document that are misused;
* `failsOn_compileModels`, `failsOn_compileGroups`: each stage fails on the parts that it reads;
* `announced_of_compileDocument`: the faults of a whole compilation;
* `listedComponents_unannounced`: a document whose fault nobody announces.
-/

namespace ApiScaffold

open Draft

/-- The store that a compilation leaves, or the fault that it came to. -/
def Compiled.result {σ : Type} (c : Compiled σ) : Except Fault σ :=
  match c.fault with
  | none => .ok c.store
  | some e => .error e

theorem Compiled.result_eq_error {σ : Type} {c : Compiled σ} {e : Fault} :
    c.result = .error e ↔ c.fault = some e := by
  unfold result
  cases c.fault <;> simp

theorem Compiled.fault_of_result {σ : Type} {c : Compiled σ} {s : σ} (h : c.result = .ok s) :
    c.fault = none := by
  unfold result at h
  cases hf : c.fault with
  | none => rfl
  | some e => simp [hf] at h

/-- Only the fault of a compilation counts, not what it leaves. -/
theorem FailsOn.of_fault_eq {σ τ : Type} {hazard : Prop} {c : Compiled σ} {d : Compiled τ}
    (hc : FailsOn hazard c.result) (h : d.fault = c.fault) : FailsOn hazard d.result := by
  unfold Compiled.result at hc ⊢
  rw [h]
  cases hf : c.fault with
  | none =>
    rw [hf] at hc
    cases hc with
    | ok safe => exact .ok safe
  | some e =>
    rw [hf] at hc
    cases hc with
    | announced h => exact .announced h
    | misused h => exact .misused h

/-- The check of a resource comes to announced faults only. -/
theorem failsOn_validate {α : Type} (kind : Kind) (check : Check α)
    (fields : List (String × Value)) : FailsOn False (validate kind check (.record fields)) := by
  unfold validate
  cases check (.record fields) with
  | ok a => exact .ok not_false
  | error problems => exact .announced (.resource _ _ _)

/-! ### Models -/

theorem failsOn_compileModel (settings : Settings) (entry : Scalar × Value) :
    FailsOn (MisshapenSchema entry) (compileModel settings entry.1 entry.2) := by
  rw [misshapenSchema_iff]
  refine (failsOn_textOf (.scalar entry.1)).after (fun e he => by rw [compileModel, he])
    fun name hname => ?_
  rw [compileModel, hname]
  dsimp only
  refine ((failsOn_modelDraft settings name entry.2).after (q := False) (fun e he => by rw [he])
    fun d hd => ?_).congr (by simp)
  rw [hd]
  exact failsOn_validate _ _ _

theorem failsOn_compileSchemas (settings : Settings) (schemas : Entries) (store : Store Model) :
    FailsOn (∃ entry ∈ schemas, MisshapenSchema entry)
      (compileSchemas settings schemas store).result := by
  induction schemas generalizing store with
  | nil => exact .ok (by simp)
  | cons entry schemas ih =>
    rw [List.exists_mem_cons_iff, compileSchemas]
    refine (failsOn_compileModel settings entry).after (fun e he => by rw [he]; rfl) fun m hm => ?_
    rw [hm]
    exact ih (store.insert m.name m)

theorem failsOn_schemasOf {doc : Value} (hdoc : doc.entries?.isSome = true) :
    FailsOn (entriesOf? (doc.field? "components") = none) (schemasOf doc) := by
  unfold schemasOf
  rw [if_neg (by simpa using Option.isSome_iff_ne_none.1 hdoc)]
  cases entriesOf? (doc.field? "components") with
  | none => exact .misused rfl
  | some components =>
    dsimp only
    cases (Entries.find? (.text "schemas") components).bind Value.entries? with
    | none => exact .announced (.spec _ _)
    | some schemas => exact .ok (by simp)

theorem failsOn_compileModels (settings : Settings) {doc : Value}
    (hdoc : doc.entries?.isSome = true) (store : Store Model) :
    FailsOn (entriesOf? (doc.field? "components") = none ∨
        ∃ schemas, schemasOf doc = .ok schemas ∧ ∃ entry ∈ schemas, MisshapenSchema entry)
      (compileModels settings doc store).result := by
  unfold compileModels
  refine (failsOn_schemasOf hdoc).after (fun e he => by rw [he]; rfl) fun schemas hschemas => ?_
  rw [hschemas]
  exact (failsOn_compileSchemas settings schemas store).congr (by simp)

/-! ### Groups -/

/-- A key of the paths is misused: it has no text though its item counts, or an operation under it
is misused. -/
def MisshapenPath (doc : Value) (entry : Scalar × Value) : Prop :=
  (entry.2.isTruthy = true ∧ (Value.scalar entry.1).written? = none) ∨
    ∃ o ∈ operationsUnder entry, MisshapenOperation doc o.data

theorem failsOn_operationStep (doc : Value) (path : String) (entry : Scalar × Value) :
    FailsOn (∃ v, verbOf? entry.1 = some v ∧ MisshapenOperation doc entry.2)
      (operationStep doc path entry) := by
  unfold operationStep
  cases verbOf? entry.1 with
  | none => exact .ok (by simp)
  | some verb => exact ((failsOn_methodDraft doc path verb entry.2).map _).congr (by simp)

theorem failsOn_pathDraft (doc : Value) (path : String) (item : Entries) :
    FailsOn (∃ o ∈ operationsIn path item, MisshapenOperation doc o.data)
      (pathDraft doc path item) := by
  have hmethods := FailsOn.loop (methodDrafts doc path) rfl (methodDrafts_cons doc path)
    (failsOn_operationStep doc path) item
  rw [pathDraft_eq]
  split_ifs
  · exact .announced (.spec _ _)
  · refine (hmethods.map _).congr ?_
    simp only [mem_operationsIn]
    constructor
    · rintro ⟨e, he, v, hv, h⟩
      exact ⟨_, ⟨e, he, v, hv, rfl⟩, h⟩
    · rintro ⟨-, ⟨e, he, v, hv, rfl⟩, h⟩
      exact ⟨e, he, v, hv, h⟩

theorem failsOn_pathStep (doc : Value) (entry : Scalar × Value) :
    FailsOn (MisshapenPath doc entry) (pathStep doc entry) := by
  unfold MisshapenPath pathStep
  cases ht : entry.2.isTruthy with
  | false => exact .ok (by simp [operationsUnder_of_absent ht])
  | true =>
    simp only [Bool.not_true, Bool.false_eq_true, if_false, true_and]
    refine (failsOn_textOf (.scalar entry.1)).after (fun e he => by rw [he]) fun path hpath => ?_
    unfold operationsUnder
    rw [hpath]
    cases entry.2.entries? with
    | none => exact .announced (.spec _ _)
    | some item =>
      dsimp only
      exact (failsOn_pathDraft doc path item).map _

theorem failsOn_groupOperations {doc : Value} (hdoc : doc.entries?.isSome = true) :
    FailsOn (∃ paths, entriesOf? (doc.field? "paths") = some paths ∧
        ∃ entry ∈ paths, MisshapenPath doc entry) (groupOperations doc) := by
  unfold groupOperations
  rw [if_neg (by simpa using Option.isSome_iff_ne_none.1 hdoc)]
  cases entriesOf? (doc.field? "paths") with
  | none => exact .announced (.spec _ _)
  | some paths =>
    have hpaths := FailsOn.loop (pathDrafts doc) rfl (pathDrafts_cons doc)
      (failsOn_pathStep doc) paths
    dsimp only
    exact (hpaths.map gather).congr (by simp)

/-- Merged operations cannot be told apart if one of them has no scalar for a name. -/
theorem failsOn_mergePaths (merged : String → Event) (ps : List PathDraft) (known : List Method) :
    FailsOn (∃ d ∈ ps.flatMap (·.methods), hasScalarName d = false)
      (mergePaths merged ps (known.map MethodDraft.ofMethod)).result := by
  by_cases hps : ps = []
  · subst hps
    exact .ok (by simp)
  · rw [mergePaths_eq merged hps, mergeMethods, List.all_append, all_hasScalarName_ofMethod,
      Bool.true_and]
    split_ifs with hall
    · refine .ok ?_
      rintro ⟨d, hd, hno⟩
      simpa [hno] using List.all_eq_true.1 hall d hd
    · obtain ⟨d, hd, hno⟩ := List.all_eq_false.1 (Bool.eq_false_iff.2 hall)
      exact .misused ⟨d, hd, by simpa using hno⟩

/-- A resource that the check makes of the merged operations of a group fails on their names
only. -/
theorem failsOn_of_merged {α : Type} {merged : String → Event} {g : Group} {known : List Method}
    {kind : Kind} {check : Check α} {fields : List MethodDraft → List (String × Value)}
    {x : Except Fault α}
    (hx : x = (mergePaths merged g.paths (known.map MethodDraft.ofMethod)).result.bind fun out =>
      validate kind check (.record (fields out))) :
    FailsOn (∃ d ∈ g.operations, hasScalarName d = false) x := by
  have hboth := (failsOn_mergePaths merged g.paths known).after (x := x) (q := False)
    (fun e he => by rw [hx, he]; rfl) fun out hout => by
      rw [hx, hout]
      exact failsOn_validate kind check (fields out)
  exact hboth.congr (by rw [or_false, Group.operations])

/-- The identifier of an operation is misused: it is there, and cannot be told from others. -/
def Operation.Misnamed (o : Operation) : Prop :=
  ∃ name, Value.present? (o.data.field? "operationId") = some name ∧ ∀ s, name ≠ .scalar s

/-- The operations of the groups have misused identifiers exactly if those of the document have. -/
theorem exists_misnamed_iff {doc : Value} {groups : List Group}
    (h : groupOperations doc = .ok groups) :
    (∃ g ∈ groups, ∃ d ∈ g.operations, hasScalarName d = false) ↔
      ∃ o ∈ operationsOf doc, o.Misnamed := by
  have hname : ∀ {o : Operation} {d : MethodDraft}, o.Compiles doc d →
      (hasScalarName d = false ↔ o.Misnamed) := by
    intro o d hod
    obtain ⟨name, t, ps, hname, -, -, rfl⟩ := methodDraft_eq_ok.1 hod
    unfold Operation.Misnamed hasScalarName
    cases name <;> simp [hname]
  constructor
  · rintro ⟨g, hg, d, hd, hno⟩
    obtain ⟨o, ho, hod⟩ := exists_of_forall₂_right (forall₂_operations h hg) hd
    exact ⟨o, List.mem_of_mem_filter ho, (hname hod).1 hno⟩
  · rintro ⟨o, ho, hno⟩
    obtain ⟨g, hg, hgroup⟩ := exists_group_of_operation h ho
    obtain ⟨d, hd, hod⟩ := exists_of_forall₂_left (forall₂_operations h hg)
      (List.mem_filter.2 ⟨ho, decide_eq_true hgroup.symm⟩)
    exact ⟨g, hg, d, hd, (hname hod).2 hno⟩

theorem result_compileGroups {α : Type} (name : α → String) (stored : α → Event)
    (compile : Group → Traced α) (doc : Value) (store : Store α) :
    (compileGroups name stored compile doc store).result =
      ((groupOperations doc).bind fun groups => (traceEach compile groups).result).map
        (store.insertAll name) := by
  rw [compileGroups, ← result_groups]
  cases hr : (do let groups ← groupOperations doc; traceEach compile groups : Traced _).result with
  | error e =>
    rw [storeAll_of_error hr]
    rfl
  | ok as =>
    rw [storeAll_of_ok hr]
    rfl

theorem failsOn_compileGroups {α : Type} (name : α → String) (stored : α → Event)
    {compile : Group → Traced α}
    (hcompile : ∀ g, FailsOn (∃ d ∈ g.operations, hasScalarName d = false) (compile g).result)
    {doc : Value} (hdoc : doc.entries?.isSome = true) (store : Store α) :
    FailsOn ((∃ paths, entriesOf? (doc.field? "paths") = some paths ∧
        ∃ entry ∈ paths, MisshapenPath doc entry) ∨ ∃ o ∈ operationsOf doc, o.Misnamed)
      (compileGroups name stored compile doc store).result := by
  rw [result_compileGroups]
  refine FailsOn.map ((failsOn_groupOperations hdoc).after (fun e he => by rw [he]; rfl)
    fun groups hgroups => ?_) _
  rw [hgroups]
  have hgs := FailsOn.loop (fun groups => (traceEach compile groups).result) rfl
    (traceEach_cons compile) hcompile groups
  exact hgs.congr (exists_misnamed_iff hgroups)

/-! ### Documents -/

/-- A part of a document is misused. -/
@[mk_iff]
inductive Misshapen (doc : Value) : Prop
  | components (no : entriesOf? (doc.field? "components") = none)
  | schema (schemas : Entries) (hschemas : schemasOf doc = .ok schemas) (entry : Scalar × Value)
      (hentry : entry ∈ schemas) (no : MisshapenSchema entry)
  | path (paths : Entries) (hpaths : entriesOf? (doc.field? "paths") = some paths)
      (entry : Scalar × Value) (hentry : entry ∈ paths) (no : MisshapenPath doc entry)
  | name (o : Operation) (ho : o ∈ operationsOf doc) (no : o.Misnamed)

theorem failsOn_compileDocument (settings : Settings) {doc : Value}
    (hdoc : doc.entries?.isSome = true) (stores : Stores) :
    FailsOn (Misshapen doc) (compileDocument settings doc stores).result := by
  have hfault := fault_compileDocument settings doc stores
  have hservices : FailsOn _ (compileServices settings doc stores.services).result :=
    failsOn_compileGroups _ _ (fun _ => failsOn_of_merged (result_compileService ..)) hdoc _
  have hcontrollers : FailsOn _ (compileControllers settings doc stores.controllers).result :=
    failsOn_compileGroups _ _ (fun _ => failsOn_of_merged (result_compileController ..)) hdoc _
  have hmodels := failsOn_compileModels settings hdoc stores.models
  -- Each stage is reached only where the ones before it came to no fault.
  refine FailsOn.congr (hmodels.after (fun e he => ?_) fun _ hm =>
    hservices.after (fun e he => ?_) fun _ hs => hcontrollers.of_fault_eq ?_) ?_
  · rw [Compiled.result_eq_error, hfault, Compiled.result_eq_error.1 he, Option.some_or]
  · rw [Compiled.result_eq_error, hfault, Compiled.fault_of_result hm,
      Compiled.result_eq_error.1 he, Option.none_or, Option.some_or]
  · rw [hfault, Compiled.fault_of_result hm, Compiled.fault_of_result hs, Option.none_or,
      Option.none_or]
  · rw [misshapen_iff]
    grind

theorem isMapping_of_checkVersion {doc : Value} {location : String}
    (h : checkVersion doc location = .ok ()) : doc.entries?.isSome = true := by
  unfold checkVersion at h
  split_ifs at h with hnone
  exact Option.isSome_iff_ne_none.2 (by simpa using hnone)

/-- **Faults are announced unless the document is misshapen.** A document of the right version with
a misshapen part never compiles. One without compiles, or comes to a fault that says what is wrong
with the document. This holds under any settings and for any stores. -/
theorem announced_of_compileDocument {doc : Value} {location : String}
    (hdoc : checkVersion doc location = .ok ()) (settings : Settings) (stores : Stores) :
    (Misshapen doc → (compileDocument settings doc stores).fault ≠ none) ∧
      (¬ Misshapen doc → ∀ e, (compileDocument settings doc stores).fault = some e →
        e.Announced ∧ e.message ≠ "") := by
  have hfails := failsOn_compileDocument settings (isMapping_of_checkVersion hdoc) stores
  unfold Compiled.result at hfails
  refine ⟨fun hbad hnone => ?_, fun hsound e he => ?_⟩
  · rw [hnone] at hfails
    cases hfails with
    | ok safe => exact safe hbad
  · rw [he] at hfails
    cases hfails with
    | announced h => exact ⟨h, h.message_ne_empty⟩
    | misused h => exact (hsound h).elim

/-- A document with one operation. -/
def listedPets : Value := .record
  [("openapi", .text "3.0.3"),
    ("components", .record [("schemas", .record [("Pet", .record [])])]),
    ("paths", .record [("/pets", .record [("get", .record [("operationId", .text "listPets")])])])]

/-- Stores with a service whose only operation has an empty name. -/
def namelessStores : Stores :=
  { Stores.empty with
    services := Store.empty.insert "Pet" ⟨"Pet", "", [⟨.post, "", "/pets", none, none⟩], []⟩ }

/-- The fault of the empty name. -/
def emptyNameFault : Fault :=
  .invalidNode .service "Pet" [⟨.emptyText, [.key "methods", .index 0, .key "name"]⟩]

theorem announced_of_compileDocument_listedPets :
    checkVersion listedPets "" = .ok () ∧ (compileDocument {} listedPets .empty).fault = none ∧
      ¬ Misshapen listedPets ∧
      (compileDocument {} listedPets namelessStores).fault = some emptyNameFault ∧
      emptyNameFault.Announced ∧ emptyNameFault.message ≠ "" := by
  have hversion : checkVersion listedPets "" = .ok () := by decide +kernel
  have hempty : (compileDocument {} listedPets .empty).fault = none := by decide +kernel
  have hnameless : (compileDocument {} listedPets namelessStores).fault = some emptyNameFault := by
    decide +kernel
  have hsound : ¬ Misshapen listedPets := fun h =>
    (announced_of_compileDocument hversion {} .empty).1 h hempty
  exact ⟨hversion, hempty, hsound, hnameless,
    (announced_of_compileDocument hversion {} namelessStores).2 hsound _ hnameless⟩

/-- A document whose components are a list. -/
def listedComponents : Value := .record
  [("openapi", .text "3.0.3"), ("components", .list [.text "Pet"])]

/-- A document of the right version comes to a fault that nobody announces. -/
theorem listedComponents_unannounced :
    checkVersion listedComponents "" = .ok () ∧
      (compileDocument {} listedComponents .empty).fault = some (.misuse .noSuchPart) ∧
      ¬ (Fault.misuse .noSuchPart).Announced :=
  ⟨by decide +kernel, by decide +kernel, by rintro ⟨⟩⟩

end ApiScaffold
