import ApiScaffold.Proofs.Compile.Fresh
import ApiScaffold.Proofs.Compile.Transfer
import ApiScaffold.Proofs.Project.Attempts
import ApiScaffold.Proofs.Service.History
import ApiScaffold.Proofs.TypeScript.ImportedNames

/-!
# Service files that are generated again

* `PlainNames` says of a document that the names it gives to operations and bodies can stand in a
  source text as they are;
* `spelled_of_mem_services`: so can those of the services that it leaves in fresh stores;
* `UpToDate` says of a file that it has what a service should have, and no other methods;
* `UpToDate.reconciling_eq`: such a file is left as it is, if no import is named like the keyword
  that import clauses may hold, and a new service file is one.
-/

namespace ApiScaffold

open Draft TypeScript ServiceFile

/-! ### The names of a document -/

/-- A word that is not the keyword `type`. -/
structure PlainName (n : String) : Prop where
  word : IsWord n.toList
  ne_nothing : n ≠ ""
  ne_type : n ≠ "type"

instance (n : String) : Decidable (PlainName n) :=
  decidable_of_iff (IsWord n.toList ∧ n ≠ "" ∧ n ≠ "type")
    ⟨fun ⟨hword, hnothing, htype⟩ => ⟨hword, hnothing, htype⟩,
      fun h => ⟨h.word, h.ne_nothing, h.ne_type⟩⟩

/-- The names of the schemas of a document. -/
def schemaNames (doc : Value) : List String :=
  match schemasOf doc with
  | .ok schemas => schemas.filterMap fun e => (textOf (.scalar e.1)).toOption
  | .error _ => []

/-- The name that an operation is given, if it can be one. -/
def Operation.name? (o : Operation) : Option String :=
  (o.data.field? "operationId").bind fun v => (Check.anyText v).toOption

/-- The reference of the schema of the body that an operation takes. -/
def Operation.bodyReference? (doc : Value) (o : Operation) : Option String :=
  match Reference.follow doc ((o.data.field? "requestBody").getD .null) with
  | .error _ => none
  | .ok request =>
    match entriesOf? (request.field? "content") with
    | some ((_, media) :: _) =>
      match (media.field? "schema").bind fun s => s.field? "$ref" with
      | some (.text ref) => some ref
      | _ => none
    | _ => none

/-- The names that a document gives to schemas are words and those that it gives to operations
identifiers, and the schemas of bodies are referred to by plain names. -/
structure PlainNames (doc : Value) : Prop where
  schemas : ∀ n ∈ schemaNames doc, IsWord n.toList
  operations : ∀ o ∈ operationsOf doc, ∀ n ∈ o.name?, Render.isIdentifier n.toList = true
  bodies : ∀ o ∈ operationsOf doc, ∀ ref ∈ o.bodyReference? doc,
    PlainName (String.ofList (Reference.target ref.toList))

instance (doc : Value) : Decidable (PlainNames doc) :=
  decidable_of_iff ((∀ n ∈ schemaNames doc, IsWord n.toList) ∧
      (∀ o ∈ operationsOf doc, ∀ n ∈ o.name?, Render.isIdentifier n.toList = true) ∧
      ∀ o ∈ operationsOf doc, ∀ ref ∈ o.bodyReference? doc,
        PlainName (String.ofList (Reference.target ref.toList)))
    ⟨fun ⟨hschemas, hoperations, hbodies⟩ => ⟨hschemas, hoperations, hbodies⟩,
      fun h => ⟨h.schemas, h.operations, h.bodies⟩⟩

/-- The settings hold nothing that ends a string literal. -/
structure Settings.Plain (settings : Settings) : Prop where
  modelsAlias : settings.modelsAlias.toList.all isPlainText = true
  extension : settings.extension.toList.all isPlainText = true
  frameworkModule : settings.frameworkModule.toList.all isPlainText = true

variable {settings : Settings} {doc : Value} {s : Service}

/-- A body is of the class that its schema refers to. -/
theorem bodyReference?_of_mem {o : Operation} {bs : List BodyParam}
    (h : bodyDraft doc ((o.data.field? "requestBody").getD .null) = .ok bs) {b : BodyParam}
    (hb : b ∈ bs) :
    ∃ ref, o.bodyReference? doc = some ref ∧
      b.type = String.ofList (Reference.target ref.toList) := by
  obtain ⟨r, content, hfollow, hcontent, hbody⟩ := bodyDraft_eq_ok.1 h
  unfold Operation.bodyReference?
  rw [hfollow]
  simp only [hcontent]
  cases content with
  | nil =>
    cases hbody
    cases hb
  | cons entry rest =>
    obtain ⟨key, media⟩ := entry
    rw [bodyOfContent] at hbody
    cases href : (media.field? "schema").bind fun s => s.field? "$ref" with
    | none =>
      rw [href] at hbody
      cases hbody
      cases hb
    | some v =>
      rw [href] at hbody
      unfold Reference.className at hbody
      dsimp only at hbody
      split at hbody
      · next ref =>
        cases hbody
        obtain rfl := List.mem_singleton.1 hb
        exact ⟨ref, by simp only [href], rfl⟩
      · cases hbody

/-- The bodies of a draft are those of its operation. -/
theorem bodies_of_compiles {o : Operation} {d : MethodDraft} (h : o.Compiles doc d) :
    ∃ bs, bodyDraft doc ((o.data.field? "requestBody").getD .null) = .ok bs ∧ d.bodies ⊆ bs := by
  obtain ⟨name, t, ps, -, -, hps, rfl⟩ := methodDraft_eq_ok.1 h
  obtain ⟨raws, params, body, -, -, hbody, rfl⟩ := parametersDraft_eq_ok.1 hps
  refine ⟨body, hbody, ?_⟩
  unfold MethodDraft.bodies nonEmpty?
  intro b hb
  split_ifs at hb <;> simp_all

/-- A body of an accepted operation is of the class that the document refers to. -/
theorem exists_bodyReference_of_check {o : Operation} {d : MethodDraft} {m : Method}
    (hod : o.Compiles doc d) (hdm : Method.check d.data = .ok m) {b : BodyParam}
    (hb : b ∈ m.bodies) :
    ∃ ref, o.bodyReference? doc = some ref ∧
      b.type = String.ofList (Reference.target ref.toList) := by
  obtain ⟨bs, hbs, hsub⟩ := bodies_of_compiles hod
  rw [(Method.bodies_of_check_draft hdm).1] at hb
  exact bodyReference?_of_mem hbs (hsub hb)

/-! ### The services of a document -/

/-- The operations of a service come from operations of the document. -/
theorem exists_operation_of_mem_methods
    (compiled : (compileDocument settings doc .empty).fault = none)
    (hs : s ∈ (compileDocument settings doc .empty).store.services.values) {m : Method}
    (hm : m ∈ s.methods) :
    ∃ o ∈ operationsOf doc, ∃ d, o.Compiles doc d ∧ Method.check d.data = .ok m := by
  obtain ⟨groups, hgroups, g, hg, hmakes⟩ := (fresh_services compiled).2 s hs
  exact hmakes.exists_operation hgroups hg hm

/-- The classes of bodies have plain names. -/
theorem plainName_of_mem_bodies (compiled : (compileDocument settings doc .empty).fault = none)
    (names : PlainNames doc)
    (hs : s ∈ (compileDocument settings doc .empty).store.services.values) {m : Method}
    (hm : m ∈ s.methods) {b : BodyParam} (hb : b ∈ m.bodies) : PlainName b.type := by
  obtain ⟨o, ho, d, hod, hdm⟩ := exists_operation_of_mem_methods compiled hs hm
  obtain ⟨ref, href, htype⟩ := exists_bodyReference_of_check hod hdm hb
  rw [htype]
  exact names.bodies o ho ref href

theorem imports_of_mem_services (compiled : (compileDocument settings doc .empty).fault = none)
    (hs : s ∈ (compileDocument settings doc .empty).store.services.values) {i : Import}
    (hi : i ∈ s.imports) :
    ∃ m ∈ s.methods, ∃ b ∈ m.bodies, i = modelImport settings b.type := by
  obtain ⟨groups, hgroups, g, hg, -, ms, -, -, rfl⟩ := (fresh_services compiled).2 s hs
  exact mem_importsOf hi

theorem plainName_of_mem_imports (compiled : (compileDocument settings doc .empty).fault = none)
    (names : PlainNames doc)
    (hs : s ∈ (compileDocument settings doc .empty).store.services.values) {i : Import}
    (hi : i ∈ s.imports) : PlainName i.name := by
  obtain ⟨m, hm, b, hb, rfl⟩ := imports_of_mem_services compiled hs hi
  exact plainName_of_mem_bodies compiled names hs hm hb

theorem isPlainText_of_word {w : List Char} (h : IsWord w) : w.all isPlainText = true :=
  List.all_eq_true.2 fun c hc =>
    isPlainText_of_isIdentifierChar (isIdentifierChar_of_isWordChar (h c hc))

/-- **The services of a document can stand in a source text as they are.** -/
theorem spelled_of_mem_services (compiled : (compileDocument settings doc .empty).fault = none)
    (names : PlainNames doc) (plain : settings.Plain)
    (hs : s ∈ (compileDocument settings doc .empty).store.services.values) :
    Spelled settings s where
  name := by
    obtain ⟨groups, hgroups, g, hg, hmakes⟩ := (fresh_services compiled).2 s hs
    have hname : s.name = g.name := hmakes.name_eq
    rw [hname]
    exact fun c hc => Naming.isWordChar_of_isAlphanum (isAlphanum_of_mem_groupName hgroups hg hc)
  methods m hm := by
    obtain ⟨o, ho, d, hod, hdm⟩ := exists_operation_of_mem_methods compiled hs hm
    refine names.operations o ho m.name ?_
    rw [Operation.name?, hod.of_operation.2.2, Option.bind_some, Method.name_of_check_draft hdm]
    rfl
  bodyTypes m hm t ht := by
    obtain ⟨b, hb, rfl⟩ := Option.map_eq_some_iff.1 ht
    exact (plainName_of_mem_bodies compiled names hs hm (List.mem_of_head? hb)).word
  importNames i hi := (plainName_of_mem_imports compiled names hs hi).word
  importPaths i hi := by
    obtain ⟨m, hm, b, hb, rfl⟩ := imports_of_mem_services compiled hs hi
    have hword : IsWord b.type.toList := (plainName_of_mem_bodies compiled names hs hm hb).word
    have hslash : "/".toList.all isPlainText = true := by decide
    simp only [modelImport, Settings.modelImportPath, String.toList_append, List.all_append,
      plain.modelsAlias, hslash, isPlainText_of_word hword, Bool.and_self]
  extension := plain.extension
  frameworkModule := plain.frameworkModule

/-! ### Files that are up to date -/

/-- The layout is that of a file with the class, the imports and the methods that the service should
have, and no other methods. -/
structure UpToDate (settings : Settings) (s : Service) (l : Layout) : Prop where
  sound : l.Sound
  className : l.className = classOf s
  imports : ∀ i ∈ s.imports, importOf settings i ∈ l.imports
  names : namesOf l.methods = operationNames s ++ ["register"]

/-- A new file is up to date. -/
theorem upToDate_newLayout (h : Spelled settings s) :
    UpToDate settings s (newLayout settings s) where
  sound := sound_newLayout h
  className := rfl
  imports _ hi := List.mem_append_left _ (List.mem_map_of_mem hi)
  names := by rw [newLayout, namesOf_raised, namesOf_membersOf]

namespace UpToDate

variable {l : Layout}

theorem findClass?_eq (h : UpToDate settings s l) :
    findClass? l.text (Naming.className s.name .service) = some l.classBody :=
  h.sound.findClass?_eq h.className

theorem removed_eq (h : UpToDate settings s l) : Reconcile.removed s l.classBody = [] := by
  rw [Reconcile.removed, List.filter_eq_nil_iff]
  intro m hm hremoved
  have hname : m.name ∈ namesOf l.methods := by
    rw [namesOf, ← map_name_membersAt]
    exact List.mem_map_of_mem hm
  rw [h.names, List.mem_append, List.mem_singleton] at hname
  simp only [Reconcile.isRemoved, Bool.and_eq_true, Bool.not_eq_true', List.contains_eq_mem,
    decide_eq_false_iff_not] at hremoved
  rcases hname with hname | hname
  · exact hremoved.1.2 hname
  · exact hremoved.2 (by rw [hname]; decide)

theorem added_eq (h : UpToDate settings s l) : Reconcile.added s l.classBody = [] := by
  rw [ServiceFile.added_eq, newcomers, List.filter_eq_nil_iff]
  intro m hm hadded
  have hname : m.name ∈ namesOf l.methods := by
    rw [h.names]
    exact List.mem_append_left _ (List.mem_map_of_mem hm)
  rw [namesOf] at hname
  simp [List.contains_eq_mem, hname] at hadded

theorem missingImports_eq (h : UpToDate settings s l)
    (himports : ∀ i ∈ s.imports, PlainName i.name) : Reconcile.missingImports s l.text = [] := by
  rw [Reconcile.missingImports, List.filter_eq_nil_iff]
  intro i hi hmissing
  have hname := himports i hi
  have hbound := h.sound.mem_importedNames (h.imports i hi) hname.word
    (by simpa [importOf] using hname.ne_nothing)
    fun htype => hname.ne_type (String.toList_injective htype)
  rw [importOf, String.ofList_toList] at hbound
  simp [List.contains_eq_mem, hbound] at hmissing

theorem edits_eq (h : UpToDate settings s l) (himports : ∀ i ∈ s.imports, PlainName i.name) :
    (Reconcile.changes settings s l.text l.classBody).edits = [] :=
  Reconcile.edits_eq_nil_iff.2 ⟨h.removed_eq, h.added_eq, h.missingImports_eq himports⟩

/-- **A file that is up to date is left as it is.** -/
theorem reconciling_eq (h : UpToDate settings s l) (himports : ∀ i ∈ s.imports, PlainName i.name)
    (path : DiskPath) :
    Attempt.ofReconciling settings path s l.text = .leave (.ok ⟨path, .reconciled, []⟩) := by
  rw [Attempt.ofReconciling]
  simp only [h.findClass?_eq, h.edits_eq himports]
  rfl

end UpToDate

/-- **A new service file needs nothing more.** -/
theorem reconciling_newLayout (h : Spelled settings s)
    (himports : ∀ i ∈ s.imports, PlainName i.name) (path : DiskPath) :
    Attempt.ofReconciling settings path s (newLayout settings s).text =
      .leave (.ok ⟨path, .reconciled, []⟩) :=
  (upToDate_newLayout h).reconciling_eq himports path

end ApiScaffold
