import ApiScaffold.Compile
import Mathlib.Tactic

/-!
# What a fault leaves in the stores

A compilation may come to a fault at any path, any operation or any group of a document, after any
number of them went well.

* `StopsAt` says that a step of a loop comes to a fault and that every step before it succeeds;
  `PathFails` lists what may go wrong at a path, `Unfinished` what may go wrong with a document;
* `methodDrafts_error_iff`, `pathDrafts_error_iff`, `traceEach_error_iff`: the loops over
  operations, paths and groups come to a fault exactly so;
* `compileGroups_cases`: what is made of the groups of a document is stored as a whole, or the
  document is `Unfinished`;
* `compileSchemas_of_fault`: the loop over the schemas has stored what it compiled;
* `compileDocument_cases`: the stages of a document come one after the other, up to a fault;
* `fault_leaves_store`: services and controllers are stored all or none, models up to the fault.
-/

namespace ApiScaffold

open Draft

/-! ### Where a loop stops -/

section StopsAt

variable {α β : Type} {run : α → Except Fault β} {e : Fault}

/-- A step of a loop comes to a fault, and every step before it succeeds. -/
def StopsAt (run : α → Except Fault β) (as : List α) (e : Fault) : Prop :=
  ∃ before a after, as = before ++ a :: after ∧
    (∀ b ∈ before, ∃ r, run b = .ok r) ∧ run a = .error e

theorem not_stopsAt_nil : ¬ StopsAt run [] e := by
  rintro ⟨before, a, after, h, -⟩
  simp at h

/-- A loop stops at its first step, or succeeds there and stops later. -/
theorem stopsAt_cons {a : α} {as : List α} :
    StopsAt run (a :: as) e ↔ run a = .error e ∨ (∃ r, run a = .ok r) ∧ StopsAt run as e := by
  constructor
  · rintro ⟨before, b, after, heq, hbefore, hb⟩
    cases before with
    | nil =>
      obtain ⟨rfl, rfl⟩ := List.cons.inj heq
      exact Or.inl hb
    | cons c before =>
      obtain ⟨rfl, rfl⟩ := List.cons.inj heq
      exact Or.inr ⟨hbefore a (List.mem_cons_self ..), before, b, after, rfl,
        fun d hd => hbefore d (List.mem_cons_of_mem _ hd), hb⟩
  · rintro (ha | ⟨ha, before, b, after, rfl, hbefore, hb⟩)
    · exact ⟨[], a, as, rfl, fun _ h => (List.not_mem_nil h).elim, ha⟩
    · refine ⟨a :: before, b, after, rfl, ?_, hb⟩
      rintro c (_ | ⟨_, hc⟩)
      · exact ha
      · exact hbefore c hc

/-- A loop that gives up at the first fault of a step, and else glues the result of the step to that
of the rest, comes to a fault exactly where it stops. -/
theorem error_iff_stopsAt {γ : Type} (loop : List α → Except Fault γ) {glue : β → γ → γ} {c : γ}
    (hnil : loop [] = .ok c)
    (hcons : ∀ a as, loop (a :: as) = (run a).bind fun b => (loop as).map (glue b))
    {as : List α} : loop as = .error e ↔ StopsAt run as e := by
  induction as with
  | nil => simp [hnil, not_stopsAt_nil]
  | cons a as ih =>
    rw [hcons, stopsAt_cons, ← ih]
    cases run a with
    | error e' => simp [Except.bind]
    | ok b => cases loop as <;> simp [Except.bind, Except.map]

end StopsAt

/-! ### Operations and paths -/

/-- The operation under a key of a path item: `none` if the key is no verb. -/
def operationStep (doc : Value) (path : String) (entry : Scalar × Value) :
    Except Fault (Option MethodDraft) :=
  match verbOf? entry.1 with
  | none => .ok none
  | some verb => (methodDraft doc path verb entry.2).map some

theorem methodDrafts_cons (doc : Value) (path : String) (entry : Scalar × Value)
    (rest : List (Scalar × Value)) :
    methodDrafts doc path (entry :: rest) =
      (operationStep doc path entry).bind fun m =>
        (methodDrafts doc path rest).map (m.toList ++ ·) := by
  obtain ⟨k, operation⟩ := entry
  rw [methodDrafts, operationStep]
  cases verbOf? k with
  | none => cases methodDrafts doc path rest <;> rfl
  | some verb => dsimp only; cases methodDraft doc path verb operation <;> rfl

theorem methodDrafts_error_iff {doc : Value} {path : String} {item : List (Scalar × Value)}
    {e : Fault} :
    methodDrafts doc path item = .error e ↔ StopsAt (operationStep doc path) item e :=
  error_iff_stopsAt (methodDrafts doc path) rfl (methodDrafts_cons doc path)

/-- The operations under a key of the paths with the resource that they belong to: `none` if the
item is absent. -/
def pathStep (doc : Value) (entry : Scalar × Value) : Except Fault (Option (String × PathDraft)) :=
  if !entry.2.isTruthy then .ok none
  else
    match textOf (.scalar entry.1), entry.2.entries? with
    | .error e, _ => .error e
    | .ok path, none => .error (.spec .pathItemNotMapping path)
    | .ok path, some es => (pathDraft doc path es).map some

theorem pathDrafts_cons (doc : Value) (entry : Scalar × Value) (rest : List (Scalar × Value)) :
    pathDrafts doc (entry :: rest) =
      (pathStep doc entry).bind fun p => (pathDrafts doc rest).map (p.toList ++ ·) := by
  obtain ⟨k, item⟩ := entry
  rw [pathDrafts, pathStep]
  by_cases ht : item.isTruthy = true
  · simp only [ht, Bool.not_true, Bool.false_eq_true, if_false]
    cases textOf (.scalar k) with
    | error e => rfl
    | ok path =>
      cases item.entries? with
      | none => rfl
      | some es => dsimp only; cases pathDraft doc path es <;> rfl
  · simp only [ht]
    cases pathDrafts doc rest <;> rfl

/-- All that may go wrong under one key of the paths: the key has no text, the item is no mapping,
the path is the root, or one of its operations cannot be compiled. -/
inductive PathFails (doc : Value) (entry : Scalar × Value) (e : Fault) : Prop
  | key (no : textOf (.scalar entry.1) = .error e)
  | item (path : String) (has : textOf (.scalar entry.1) = .ok path)
      (no : entry.2.entries? = none) (found : e = .spec .pathItemNotMapping path)
  | root (path : String) (has : textOf (.scalar entry.1) = .ok path)
      (no : Naming.resourceName path.toList = []) (found : e = .spec .rootPath path)
  | operation (path : String) (has : textOf (.scalar entry.1) = .ok path) (item : Entries)
      (hasItem : entry.2.entries? = some item) (stops : StopsAt (operationStep doc path) item e)

theorem pathFails_of_error {doc : Value} {entry : Scalar × Value} {e : Fault}
    (h : pathStep doc entry = .error e) : PathFails doc entry e := by
  unfold pathStep at h
  split_ifs at h with ht
  -- The cases come in the order in which the path is looked at.
  cases hk : textOf (.scalar entry.1) with
  | error e' =>
    rw [hk] at h
    exact .key (hk.trans (by simpa using h))
  | ok path =>
    rw [hk] at h
    cases hi : entry.2.entries? with
    | none =>
      rw [hi] at h
      exact .item path hk hi (Except.error.inj h).symm
    | some item =>
      rw [hi] at h
      simp only [pathDraft] at h
      split_ifs at h with hroot
      · have hnil : Naming.resourceName path.toList = [] := by
          simpa using congrArg String.toList hroot
        exact .root path hk hnil (Except.error.inj h).symm
      · refine .operation path hk item hi (methodDrafts_error_iff.1 ?_)
        cases hms : methodDrafts doc path item with
        | error e' => simpa [hms, Except.map] using h
        | ok ms => simp [hms, Except.map] at h

theorem pathDrafts_error_iff {doc : Value} {paths : List (Scalar × Value)} {e : Fault} :
    pathDrafts doc paths = .error e ↔ StopsAt (pathStep doc) paths e :=
  error_iff_stopsAt (pathDrafts doc) rfl (pathDrafts_cons doc)

/-! ### Groups -/

namespace Traced

variable {α β : Type}

@[simp] theorem result_pure (a : α) : (pure a : Traced α).result = .ok a := rfl

@[simp] theorem result_liftM (r : Except Fault α) : (liftM r : Traced α).result = r := rfl

@[simp] theorem result_report (e : Event) : (report e).result = .ok () := rfl

@[simp] theorem result_bind (t : Traced α) (f : α → Traced β) :
    (t >>= f).result = t.result.bind fun a => (f a).result := by
  show (Traced.bind t f).result = _
  unfold Traced.bind
  cases t.result <;> rfl

end Traced

section Groups

variable {α β : Type}

theorem traceEach_cons (f : α → Traced β) (a : α) (as : List α) :
    (traceEach f (a :: as)).result =
      (f a).result.bind fun b => (traceEach f as).result.map (b :: ·) := by
  rw [traceEach, Traced.result_bind]
  cases (f a).result with
  | error e => rfl
  | ok b =>
    simp only [Traced.result_bind]
    cases (traceEach f as).result <;> rfl

/-- A loop succeeds with the results of its steps. -/
theorem traceEach_ok_iff {f : α → Traced β} {as : List α} {bs : List β} :
    (traceEach f as).result = .ok bs ↔ List.Forall₂ (fun a b => (f a).result = .ok b) as bs := by
  induction as generalizing bs with
  | nil => cases bs <;> simp [traceEach]
  | cons a as ih =>
    rw [traceEach_cons, List.forall₂_cons_left_iff]
    cases ha : (f a).result with
    | error e => simp [Except.bind]
    | ok b =>
      cases has : (traceEach f as).result with
      | error e => simp [Except.bind, Except.map, ← ih, has]
      | ok cs => simp [Except.bind, Except.map, ← ih, has, eq_comm]

theorem traceEach_error_iff {f : α → Traced β} {as : List α} {e : Fault} :
    (traceEach f as).result = .error e ↔ StopsAt (fun a => (f a).result) as e :=
  error_iff_stopsAt (fun as => (traceEach f as).result) rfl (traceEach_cons f)

/-- All that may go wrong when the groups of a document are compiled: the document or its paths are
no mapping, a path cannot be compiled, or a group cannot. -/
inductive Unfinished (compile : Group → Traced α) (doc : Value) (e : Fault) : Prop
  | document (no : doc.entries? = none) (found : e = .misuse .noSuchPart)
  | paths (no : entriesOf? (doc.field? "paths") = none) (found : e = .spec .pathsNotMapping "paths")
  | path (before after : Entries) (entry : Scalar × Value)
      (has : entriesOf? (doc.field? "paths") = some (before ++ entry :: after))
      (succeeds : ∀ b ∈ before, ∃ r, pathStep doc b = .ok r) (fails : PathFails doc entry e)
  | group (groups : List Group) (has : groupOperations doc = .ok groups)
      (stops : StopsAt (fun g => (compile g).result) groups e)

theorem unfinished_of_groupOperations {compile : Group → Traced α} {doc : Value} {e : Fault}
    (h : groupOperations doc = .error e) : Unfinished compile doc e := by
  unfold groupOperations at h
  cases hd : doc.entries? with
  | none =>
    rw [hd] at h
    exact .document hd (Except.error.inj h).symm
  | some es =>
    rw [hd] at h
    cases hp : entriesOf? (doc.field? "paths") with
    | none =>
      rw [hp] at h
      exact .paths hp (Except.error.inj h).symm
    | some paths =>
      rw [hp] at h
      have hstop : pathDrafts doc paths = .error e := by
        cases hps : pathDrafts doc paths with
        | error e' => simpa [hps, Except.map] using h
        | ok ps => simp [hps, Except.map] at h
      obtain ⟨before, entry, after, rfl, hbefore, hentry⟩ := pathDrafts_error_iff.1 hstop
      exact .path before after entry hp hbefore (pathFails_of_error hentry)

section StoreAll

variable {name : α → String} {stored : α → Event} {store : Store α} {made : Traced (List α)}

theorem storeAll_of_error {e : Fault} (h : made.result = .error e) :
    storeAll name stored store made = ⟨store, made.log, some e⟩ := by
  unfold storeAll
  rw [h]

theorem storeAll_of_ok {as : List α} (h : made.result = .ok as) :
    storeAll name stored store made =
      ⟨store.insertAll name as, made.log ++ as.map stored, none⟩ := by
  unfold storeAll
  rw [h]

end StoreAll

theorem result_groups (compile : Group → Traced α) (doc : Value) :
    (do let groups ← groupOperations doc; traceEach compile groups : Traced _).result =
      (groupOperations doc).bind fun groups => (traceEach compile groups).result := by
  simp

/-- A compilation of groups stores the results of all of them, or none. -/
theorem compileGroups_cases (name : α → String) (stored : α → Event) (compile : Group → Traced α)
    (doc : Value) (store : Store α) :
    (∃ groups as, groupOperations doc = .ok groups ∧
      List.Forall₂ (fun g a => (compile g).result = .ok a) groups as ∧
      (compileGroups name stored compile doc store).fault = none ∧
      (compileGroups name stored compile doc store).store = store.insertAll name as) ∨
    ∃ e, Unfinished compile doc e ∧
      (compileGroups name stored compile doc store).fault = some e ∧
      (compileGroups name stored compile doc store).store = store := by
  have hresult := result_groups compile doc
  unfold compileGroups
  cases hg : groupOperations doc with
  | error e =>
    rw [hg] at hresult
    rw [storeAll_of_error hresult]
    exact Or.inr ⟨e, unfinished_of_groupOperations hg, rfl, rfl⟩
  | ok groups =>
    rw [hg] at hresult
    cases hr : (traceEach compile groups).result with
    | error e =>
      rw [storeAll_of_error (hresult.trans hr)]
      exact Or.inr ⟨e, .group groups hg (traceEach_error_iff.1 hr), rfl, rfl⟩
    | ok as =>
      rw [storeAll_of_ok (hresult.trans hr)]
      exact Or.inl ⟨groups, as, rfl, traceEach_ok_iff.1 hr, rfl, rfl⟩

/-- A fault while groups are compiled leaves the store as it was. -/
theorem compileGroups_of_fault {name : α → String} {stored : α → Event}
    {compile : Group → Traced α} {doc : Value} {store : Store α} {e : Fault}
    (h : (compileGroups name stored compile doc store).fault = some e) :
    (compileGroups name stored compile doc store).store = store ∧ Unfinished compile doc e := by
  rcases compileGroups_cases name stored compile doc store with
    ⟨-, -, -, -, hnone, -⟩ | ⟨e', he', hsome, hstore⟩
  · rw [hnone] at h
    cases h
  · rw [hsome] at h
    cases h
    exact ⟨hstore, he'⟩

end Groups

/-! ### Models -/

/-- Where the schemas of a document stop: at one that does not compile, after models that do. -/
def SchemasStopAt (settings : Settings) (schemas : Entries) (models : List Model) (e : Fault) :
    Prop :=
  ∃ before k schema after, schemas = before ++ (k, schema) :: after ∧
    List.Forall₂ (fun entry m => compileModel settings entry.1 entry.2 = .ok m) before models ∧
    compileModel settings k schema = .error e

/-- The loop over the schemas has stored the models before the fault, in order. -/
theorem compileSchemas_of_fault {settings : Settings} {schemas : Entries} {store : Store Model}
    {e : Fault} (h : (compileSchemas settings schemas store).fault = some e) :
    ∃ models, SchemasStopAt settings schemas models e ∧
      (compileSchemas settings schemas store).store = store.insertAll (·.name) models := by
  induction schemas generalizing store with
  | nil => simp [compileSchemas] at h
  | cons entry rest ih =>
    obtain ⟨k, schema⟩ := entry
    rw [compileSchemas] at h ⊢
    cases hm : compileModel settings k schema with
    | error e' =>
      rw [hm] at h
      obtain rfl : e' = e := Option.some.inj h
      exact ⟨[], ⟨[], k, schema, rest, rfl, .nil, hm⟩, rfl⟩
    | ok m =>
      -- The model is in the store by the time the rest of the loop runs.
      rw [hm] at h
      obtain ⟨models, ⟨before, k', schema', after, rfl, hbefore, hk'⟩, hstore⟩ := ih h
      exact ⟨m :: models,
        ⟨(k, schema) :: before, k', schema', after, rfl, .cons hm hbefore, hk'⟩, hstore⟩

/-! ### Stages of a document -/

/-- How far the compilation of a document comes: it stops in its models, or in its services, or has
been through all three stages, and nothing of the stages behind a fault is stored. -/
theorem compileDocument_cases (settings : Settings) (doc : Value) (stores : Stores) :
    (∃ e, (compileModels settings doc stores.models).fault = some e ∧
      (compileDocument settings doc stores).fault = some e ∧
      (compileDocument settings doc stores).store =
        { stores with models := (compileModels settings doc stores.models).store }) ∨
    (∃ e, (compileModels settings doc stores.models).fault = none ∧
      (compileServices settings doc stores.services).fault = some e ∧
      (compileDocument settings doc stores).fault = some e ∧
      (compileDocument settings doc stores).store =
        { stores with
          models := (compileModels settings doc stores.models).store
          services := (compileServices settings doc stores.services).store }) ∨
    (compileModels settings doc stores.models).fault = none ∧
      (compileServices settings doc stores.services).fault = none ∧
      (compileDocument settings doc stores).fault =
        (compileControllers settings doc stores.controllers).fault ∧
      (compileDocument settings doc stores).store =
        ⟨(compileModels settings doc stores.models).store,
          (compileServices settings doc stores.services).store,
          (compileControllers settings doc stores.controllers).store⟩ := by
  cases hm : (compileModels settings doc stores.models).fault with
  | some e => exact Or.inl ⟨e, rfl, by simp [compileDocument, hm]⟩
  | none =>
    cases hs : (compileServices settings doc stores.services).fault with
    | some e => exact Or.inr (Or.inl ⟨e, rfl, rfl, by simp [compileDocument, hm, hs]⟩)
    | none =>
      refine Or.inr (Or.inr ⟨rfl, rfl, ?_⟩)
      cases hc : (compileControllers settings doc stores.controllers).fault <;>
        simp [compileDocument, hm, hs, hc]

/-- A compilation comes to the first fault of its stages. -/
theorem fault_compileDocument (settings : Settings) (doc : Value) (stores : Stores) :
    (compileDocument settings doc stores).fault =
      (compileModels settings doc stores.models).fault.or
        ((compileServices settings doc stores.services).fault.or
          (compileControllers settings doc stores.controllers).fault) := by
  rcases compileDocument_cases settings doc stores with
    ⟨e, hm, hd, -⟩ | ⟨e, hm, hs, hd, -⟩ | ⟨hm, hs, hd, -⟩
  · simp [hm, hd]
  · simp [hm, hs, hd]
  · simp [hm, hs, hd]

/-- A document that compiles has been compiled into each of the stores. -/
theorem stages_of_compileDocument {settings : Settings} {doc : Value} {stores : Stores}
    (h : (compileDocument settings doc stores).fault = none) :
    (compileModels settings doc stores.models).fault = none ∧
      (compileServices settings doc stores.services).fault = none ∧
      (compileControllers settings doc stores.controllers).fault = none ∧
      (compileDocument settings doc stores).store =
        ⟨(compileModels settings doc stores.models).store,
          (compileServices settings doc stores.services).store,
          (compileControllers settings doc stores.controllers).store⟩ := by
  rcases compileDocument_cases settings doc stores with
    ⟨e, -, hd, -⟩ | ⟨e, -, -, hd, -⟩ | ⟨hm, hs, hd, hstore⟩
  · rw [h] at hd
    cases hd
  · rw [h] at hd
    cases hd
  · exact ⟨hm, hs, hd.symm.trans h, hstore⟩

/-- Of the models of a document those in front of the first fault are stored. -/
theorem models_compileDocument (settings : Settings) (doc : Value) (stores : Stores) :
    (compileDocument settings doc stores).store.models =
      (compileModels settings doc stores.models).store := by
  rcases compileDocument_cases settings doc stores with
    ⟨e, -, -, hstore⟩ | ⟨e, -, -, -, hstore⟩ | ⟨-, -, -, hstore⟩
  all_goals rw [hstore]

/-! ### The stores after a fault -/

/-- **A fault leaves a store either as it was or with exactly the models before it.** The services
and the controllers of a document are stored all or none, wherever the fault lies; the models are
stored one after the other. -/
theorem fault_leaves_store (settings : Settings) (doc : Value) (models : Store Model)
    (services : Store Service) (controllers : Store Controller) (e : Fault) :
    ((compileServices settings doc services).fault = some e →
      (compileServices settings doc services).store = services ∧
        Unfinished (compileService settings services) doc e) ∧
    ((compileControllers settings doc controllers).fault = some e →
      (compileControllers settings doc controllers).store = controllers ∧
        Unfinished (compileController settings controllers) doc e) ∧
    ((compileModels settings doc models).fault = some e →
      (schemasOf doc = .error e ∧ (compileModels settings doc models).store = models) ∨
      ∃ schemas stored, schemasOf doc = .ok schemas ∧ SchemasStopAt settings schemas stored e ∧
        (compileModels settings doc models).store = models.insertAll (·.name) stored) := by
  refine ⟨compileGroups_of_fault, compileGroups_of_fault, fun h => ?_⟩
  unfold compileModels at h ⊢
  cases hs : schemasOf doc with
  | error e' =>
    rw [hs] at h
    obtain rfl : e' = e := Option.some.inj h
    exact Or.inl ⟨rfl, rfl⟩
  | ok schemas =>
    rw [hs] at h
    obtain ⟨stored, hstop, hstore⟩ := compileSchemas_of_fault h
    exact Or.inr ⟨schemas, stored, rfl, hstop, hstore⟩

/-- A document whose second schema and second path cannot be compiled. -/
def halfSound : Value := .record
  [("components", .record [("schemas", .record [("Pet", .record []), ("Toy", .int 5)])]),
    ("paths", .record
      [("/pets", .record [("get", .record [("operationId", .text "getPets")])]),
        ("/toys", .record [("get", .record [("operationId", .int 7)])])])]

/-- A store with one service. -/
def petServices : Store Service := Store.empty.insert "Pet" ⟨"Pet", "All about pets", [], []⟩

/-- The problem of a name that is no text. -/
def nameProblem : Problem := ⟨.notText, [.key "methods", .index 0, .key "name"]⟩

theorem fault_leaves_store_halfSound :
    ((compileServices {} halfSound petServices).fault =
        some (.invalidNode .service "Toy" [nameProblem]) ∧
      (compileServices {} halfSound petServices).store = petServices) ∧
    ((compileControllers {} halfSound .empty).fault =
        some (.invalidNode .controller "Toy" [nameProblem]) ∧
      (compileControllers {} halfSound .empty).store = .empty) ∧
    (compileModels {} halfSound .empty).fault =
        some (.spec .schemaNotMapping "components.schemas.Toy") ∧
      ∃ schemas stored, schemasOf halfSound = .ok schemas ∧
        SchemasStopAt {} schemas stored (.spec .schemaNotMapping "components.schemas.Toy") ∧
        (compileModels {} halfSound .empty).store = Store.empty.insertAll (·.name) stored := by
  have hs : (compileServices {} halfSound petServices).fault =
      some (.invalidNode .service "Toy" [nameProblem]) := by decide +kernel
  have hc : (compileControllers {} halfSound .empty).fault =
      some (.invalidNode .controller "Toy" [nameProblem]) := by decide +kernel
  have hm : (compileModels {} halfSound .empty).fault =
      some (.spec .schemaNotMapping "components.schemas.Toy") := by decide +kernel
  have hstored : ∃ schemas, schemasOf halfSound = .ok schemas := ⟨_, rfl⟩
  refine ⟨⟨hs, ?_⟩, ⟨hc, ?_⟩, hm, ?_⟩
  · exact ((fault_leaves_store {} halfSound .empty petServices .empty _).1 hs).1
  · exact ((fault_leaves_store {} halfSound .empty .empty .empty _).2.1 hc).1
  · rcases (fault_leaves_store {} halfSound .empty .empty .empty _).2.2 hm with h | h
    · obtain ⟨schemas, hschemas⟩ := hstored
      rw [hschemas] at h
      cases h.1
    · exact h

end ApiScaffold
