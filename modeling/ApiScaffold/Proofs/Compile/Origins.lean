import ApiScaffold.Proofs.Compile.Coherence
import ApiScaffold.Proofs.Compile.ImportedModels

/-!
# What stored resources stem from

A store outlives the document that it was filled from: an operation may have come with any document
that was compiled before, and may have been merged many times since.

* `StemsFrom`: an operation is the checked draft of an operation of some document of a run;
* `Branch.stemsFrom`: so is every operation that a run has stored;
* `compileAll`: the stores after documents that are compiled as a whole, one after the other;
* `exists_run_of_compileAll`: their services and controllers are those of a run;
* `exists_schema_of_compileAll`: their models are each made of a schema.
-/

namespace ApiScaffold

open Draft

/-! ### Operations -/

/-- An operation of a resource comes from a document that the run compiles for the target. -/
def StemsFrom (run : List Compilation) (target : Target) (name : String) (m : Method) : Prop :=
  ∃ k ∈ run, k.target = target ∧ ∃ o ∈ operationsOf k.doc, o.resource = name ∧
    ∃ d, o.Compiles k.doc d ∧ Method.check d.data = .ok m

section Origin

variable {run run' : List Compilation} {target : Target} {n : String} {m : Method}

theorem StemsFrom.mono (h : StemsFrom run target n m) (hsub : run ⊆ run') :
    StemsFrom run' target n m := by
  obtain ⟨k, hk, hm⟩ := h
  exact ⟨k, hsub hk, hm⟩

/-- The path of an operation belongs to its resource. -/
theorem StemsFrom.resourceOf_url (h : StemsFrom run target n m) : resourceOf m.url = n := by
  obtain ⟨k, -, -, o, -, rfl, d, hod, hdm⟩ := h
  rw [(Method.check_draft.1 hdm).2.2.1.2, hod.of_operation.2.1]
  rfl

theorem StemsFrom.sound (h : StemsFrom run target n m) : m.Sound := by
  obtain ⟨k, -, -, o, -, -, d, -, hdm⟩ := h
  exact Method.sound_of_check hdm

/-- The class of a body is the one that the operation's document refers to. -/
theorem StemsFrom.exists_bodyReference (h : StemsFrom run target n m) {b : BodyParam}
    (hb : b ∈ m.bodies) :
    ∃ k ∈ run, ∃ o ∈ operationsOf k.doc, ∃ ref, o.bodyReference? k.doc = some ref ∧
      b.type = lastSegment ref := by
  obtain ⟨k, hk, -, o, ho, -, d, hod, hdm⟩ := h
  obtain ⟨ref, href, htype⟩ := exists_bodyReference_of_check hod hdm hb
  exact ⟨k, hk, o, ho, ref, href, htype⟩

section Branch

variable {α : Type} {b : Branch α} {a : α} {e : String × α}

/-- Resources are named by letters and digits, at least one. -/
theorem Branch.MadeBy.isAlphanum_name (h : b.MadeBy run e) {d : Char} (hd : d ∈ e.1.toList) :
    d.isAlphanum = true := by
  obtain ⟨before, k, after, g, -, -, ⟨groups, hgroups, hg⟩, -, hname⟩ := h
  exact isAlphanum_of_mem_groupName hgroups hg (hname ▸ hd)

theorem Branch.MadeBy.name_ne (h : b.MadeBy run e) : e.1 ≠ "" := by
  obtain ⟨before, k, after, g, -, -, -, hmakes, hname⟩ := h
  exact hname ▸ hmakes.1

/-- **Every operation of what a run has stored stems from its documents.** -/
theorem Branch.stemsFrom (h : (n, a) ∈ (b.view (runAll run)).entries) (hm : m ∈ b.methods a) :
    StemsFrom run b.target n m := by
  -- The induction is on the length of the run: an operation may have been stored before.
  induction hlen : run.length using Nat.strong_induction_on generalizing run n a with
  | _ size ih =>
    obtain ⟨before, k, after, g, rfl, hk, ⟨groups, hgroups, hg⟩, hmakes, hn⟩ := b.madeBy h
    obtain rfl : n = g.name := hn
    have hstep := hmakes.known_or_new (m := m) hgroups hg
    rw [b.methods_scheme] at hstep
    rcases hstep hm with ⟨c, hc, hmc⟩ | ⟨o, ho, hro, hd⟩
    · have hless : before.length < size := by
        rw [← hlen, List.length_append, List.length_cons]
        omega
      exact (ih before.length hless hc hmc rfl).mono (List.subset_append_left _ _)
    · exact ⟨k, List.mem_append_right _ (List.mem_cons_self ..), hk, o, ho, hro, hd⟩

end Branch

/-- A stored service imports the classes of its bodies. -/
theorem imports_of_service {s : Service} (h : (n, s) ∈ (runAll run).services.entries) :
    s.name = n ∧ ∃ settings, s.imports = importsOf settings s.methods := by
  obtain ⟨before, k, after, g, -, -, -, ⟨-, ms, -, -, hs⟩, hn⟩ := serviceBranch.madeBy h
  obtain rfl : s = _ := hs
  exact ⟨hn.symm, k.settings, rfl⟩

/-- A stored controller imports its service and the classes of its bodies, none of which is named
like the service. -/
theorem imports_of_controller {c : Controller} (h : (n, c) ∈ (runAll run).controllers.entries) :
    c.name = n ∧ ∃ settings, c.imports = serviceImport settings n :: importsOf settings c.methods ∧
      Naming.className n .service ∉ (importsOf settings c.methods).map (·.name) := by
  obtain ⟨before, k, after, g, -, -, -, ⟨-, ms, -, hallows, hc⟩, hn⟩ := controllerBranch.madeBy h
  obtain rfl : c = _ := hc
  obtain rfl : n = g.name := hn
  exact ⟨rfl, k.settings, rfl, hallows⟩

end Origin

/-! ### Documents that are compiled as a whole -/

/-- The stores after documents, each compiled under its settings, one after the other and whether or
not they come to faults, empty at first. -/
def compileAll (calls : List (Settings × Value)) : Stores :=
  calls.foldl (fun stores call => (compileDocument call.1 call.2 stores).store) .empty

theorem compileAll_concat (calls : List (Settings × Value)) (settings : Settings) (doc : Value) :
    compileAll (calls ++ [(settings, doc)]) =
      (compileDocument settings doc (compileAll calls)).store := by
  simp [compileAll]

/-- After its models a document is compiled into the services and then into the controllers, up to
its first fault. -/
theorem exists_compilations (settings : Settings) (doc : Value) (stores : Stores) :
    ∃ ks : List Compilation, (∀ k ∈ ks, k.settings = settings ∧ k.doc = doc) ∧
      ∀ before : Stores, before.services = stores.services →
        before.controllers = stores.controllers →
        (ks.foldl (fun st k => k.apply st) before).services =
            (compileDocument settings doc stores).store.services ∧
          (ks.foldl (fun st k => k.apply st) before).controllers =
            (compileDocument settings doc stores).store.controllers := by
  rcases compileDocument_cases settings doc stores with
    ⟨e, -, -, hstore⟩ | ⟨e, -, -, -, hstore⟩ | ⟨-, -, -, hstore⟩
  · exact ⟨[], by simp, fun before hs hc => by simp [hstore, hs, hc]⟩
  · refine ⟨[⟨.services, settings, doc⟩], by simp, fun before hs hc => ?_⟩
    simp [hstore, Compilation.apply, hs, hc]
  · refine ⟨[⟨.services, settings, doc⟩, ⟨.controllers, settings, doc⟩], by simp,
      fun before hs hc => ?_⟩
    simp [hstore, Compilation.apply, hs, hc]

/-- **Services and controllers are those of a run** of the same documents. -/
theorem exists_run_of_compileAll (calls : List (Settings × Value)) :
    ∃ run : List Compilation, (∀ k ∈ run, (k.settings, k.doc) ∈ calls) ∧
      (runAll run).services = (compileAll calls).services ∧
      (runAll run).controllers = (compileAll calls).controllers := by
  induction calls using List.reverseRecOn with
  | nil => exact ⟨[], by simp, rfl, rfl⟩
  | append_singleton calls call ih =>
    obtain ⟨settings, doc⟩ := call
    obtain ⟨run, hrun, hservices, hcontrollers⟩ := ih
    obtain ⟨ks, hks, hstep⟩ := exists_compilations settings doc (compileAll calls)
    rw [compileAll_concat]
    refine ⟨run ++ ks, fun k hk => ?_, ?_⟩
    · rcases List.mem_append.1 hk with hk | hk
      · exact List.mem_append_left _ (hrun k hk)
      · obtain ⟨rfl, rfl⟩ := hks k hk
        exact List.mem_append_right _ (List.mem_singleton_self _)
    · rw [runAll, List.foldl_append]
      exact hstep _ hservices hcontrollers

/-! ### Models -/

/-- A model that schemas leave was stored, or is made of one of them. -/
theorem mem_compileSchemas {settings : Settings} {schemas : Entries} {store : Store Model}
    {e : String × Model} (h : e ∈ (compileSchemas settings schemas store).store.entries) :
    e ∈ store.entries ∨ ∃ schema ∈ schemas, compileModel settings schema.1 schema.2 = .ok e.2 := by
  induction schemas generalizing store with
  | nil => exact Or.inl h
  | cons schema schemas ih =>
    obtain ⟨key, value⟩ := schema
    rw [compileSchemas] at h
    cases hmodel : compileModel settings key value with
    | error fault =>
      rw [hmodel] at h
      exact Or.inl h
    | ok m =>
      rw [hmodel] at h
      rcases ih h with h | ⟨schema, hschema, hmade⟩
      · rcases Store.mem_put h with rfl | h
        · exact Or.inr ⟨_, List.mem_cons_self, hmodel⟩
        · exact Or.inl h
      · exact Or.inr ⟨schema, List.mem_cons_of_mem _ hschema, hmade⟩

/-- **Every stored model is made of a schema** of one of the documents. -/
theorem exists_schema_of_compileAll {calls : List (Settings × Value)} {e : String × Model}
    (h : e ∈ (compileAll calls).models.entries) :
    ∃ call ∈ calls, ∃ schemas, schemasOf call.2 = .ok schemas ∧
      ∃ schema ∈ schemas, compileModel call.1 schema.1 schema.2 = .ok e.2 := by
  induction calls using List.reverseRecOn with
  | nil => cases h
  | append_singleton calls call ih =>
    obtain ⟨settings, doc⟩ := call
    have hold : e ∈ (compileAll calls).models.entries → ∃ call ∈ calls ++ [(settings, doc)],
        ∃ schemas, schemasOf call.2 = .ok schemas ∧
          ∃ schema ∈ schemas, compileModel call.1 schema.1 schema.2 = .ok e.2 := fun h => by
      obtain ⟨call, hcall, hmade⟩ := ih h
      exact ⟨call, List.mem_append_left _ hcall, hmade⟩
    rw [compileAll_concat, models_compileDocument, compileModels] at h
    cases hschemas : schemasOf doc with
    | error fault =>
      rw [hschemas] at h
      exact hold h
    | ok schemas =>
      rw [hschemas] at h
      rcases mem_compileSchemas h with h | hmade
      · exact hold h
      · exact ⟨_, List.mem_append_right _ (List.mem_singleton_self _), schemas, hschemas, hmade⟩

end ApiScaffold
