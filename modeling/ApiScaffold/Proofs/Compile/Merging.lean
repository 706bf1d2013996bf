import ApiScaffold.Proofs.Compile.Faults
import ApiScaffold.Proofs.Draft.Settle

/-!
# Compiling one group

The operations of a group are merged with those that are stored under its name, and what comes out
is checked.

* `mergePaths_eq`: the paths of a group may be merged at once;
* `MergesTo`: the operations that a merge with a group leaves, once they are accepted;
* `result_compileService`, `result_compileController`: a group compiles to what the check says of
  its merged operations;
* `compileService_eq_ok`, `compileController_eq_ok`: a group compiles exactly if it merges to
  accepted operations, from which all else follows.
-/

namespace ApiScaffold

open Draft

/-- All operations of a group, path after path. -/
def Draft.Group.operations (g : Group) : List MethodDraft := g.paths.flatMap (·.methods)

theorem mergePaths_cons (merged : String → Event) (p : PathDraft) (ps : List PathDraft)
    (methods : List MethodDraft) :
    (mergePaths merged (p :: ps) methods).result =
      (mergeMethods methods p.methods).bind fun out => (mergePaths merged ps out).result := by
  rw [mergePaths]
  split_ifs <;> simp [Except.bind]

/-- The paths of a group may be merged at once. -/
theorem mergePaths_eq (merged : String → Event) {ps : List PathDraft} (hps : ps ≠ [])
    (methods : List MethodDraft) :
    (mergePaths merged ps methods).result = mergeMethods methods (ps.flatMap (·.methods)) := by
  induction ps generalizing methods with
  | nil => exact (hps rfl).elim
  | cons p ps ih =>
    rw [mergePaths_cons, List.flatMap_cons, ← mergeMethods_bind]
    cases hm : mergeMethods methods p.methods with
    | error e => rfl
    | ok out =>
      cases ps with
      | nil =>
        -- Without a path left nothing more is merged, as if nothing had come behind the last one.
        have hnothing := mergeMethods_bind methods p.methods []
        rw [List.append_nil, hm] at hnothing
        exact hnothing.symm
      | cons q qs => exact ih (List.cons_ne_nil _ _) out

/-- What is made of merged operations is made of the ones that a merge leaves. -/
theorem bind_mergePaths_eq_ok {α : Type} (merged : String → Event) {g : Group} (hg : g.paths ≠ [])
    {known : List MethodDraft} {make : List MethodDraft → Except Fault α} {a : α} :
    (mergePaths merged g.paths known).result.bind make = .ok a ↔
      ∃ out, mergeMethods known g.operations = .ok out ∧ make out = .ok a := by
  rw [mergePaths_eq _ hg, ← Group.operations]
  cases mergeMethods known g.operations <;> simp [Except.bind]

/-- Stored operations, merged with those of a group, are accepted as the given ones. -/
def MergesTo (known : List Method) (g : Group) (ms : List Method) : Prop :=
  Settles (known.map MethodDraft.ofMethod ++ g.operations) ms

theorem mergesTo_iff {known ms : List Method} {g : Group} :
    MergesTo known g ms ↔ ∃ out, mergeMethods (known.map MethodDraft.ofMethod) g.operations =
      .ok out ∧ Accepted out ms := by
  simp only [mergeMethods_eq_ok]
  constructor
  · rintro ⟨hall, hms⟩
    exact ⟨_, ⟨hall, rfl⟩, hms⟩
  · rintro ⟨-, ⟨hall, rfl⟩, hms⟩
    exact ⟨hall, hms⟩

/-- The operations of a resource that may be there are merged as drafts. -/
theorem drafts_known {α : Type} (methods : α → List Method) (a : Option α) :
    (a.map fun a => (methods a).map MethodDraft.ofMethod).getD [] =
      ((a.map methods).getD []).map MethodDraft.ofMethod := by
  cases a <;> rfl

/-- The operations of a service that may be there. -/
def Service.known (s : Option Service) : List Method := (s.map (·.methods)).getD []

/-- A service is what the check makes of the merged operations. -/
theorem result_compileService (settings : Settings) (store : Store Service) (g : Group) :
    (compileService settings store g).result =
      (mergePaths (fun path => .serviceMerged path g.name) g.paths
        ((Service.known (store.find? g.name)).map MethodDraft.ofMethod)).result.bind fun out =>
          validateService (ServiceDraft.data
            ⟨g.name, ((store.find? g.name).map (·.description)).getD "", out,
              bodyImports settings out⟩) := by
  simp only [compileService, Traced.result_bind, Traced.result_liftM, Service.known,
    drafts_known Service.methods]

/-- A group compiles to a service exactly if its operations merge to accepted ones. -/
theorem compileService_eq_ok {settings : Settings} {store : Store Service} {g : Group} {s : Service}
    (hg : g.paths ≠ []) :
    (compileService settings store g).result = .ok s ↔
      g.name ≠ "" ∧ MergesTo (Service.known (store.find? g.name)) g s.methods ∧
        s = ⟨g.name, ((store.find? g.name).map (·.description)).getD "", s.methods,
          importsOf settings s.methods⟩ := by
  rw [result_compileService, bind_mergePaths_eq_ok _ hg]
  constructor
  · rintro ⟨out, hm, h⟩
    obtain ⟨hname, -, hms, hs⟩ := Service.check_draft.1 (validate_eq_ok.1 h)
    rw [bodyImports_eq settings hms] at hs
    exact ⟨hname, mergesTo_iff.2 ⟨out, hm, hms⟩, hs⟩
  · rintro ⟨hname, hmerge, hs⟩
    obtain ⟨out, hm, hms⟩ := mergesTo_iff.1 hmerge
    refine ⟨out, hm, validate_eq_ok.2 (Service.check_draft.2 ⟨hname, ?_, hms, ?_⟩)⟩
    · exact bodyImports_eq settings hms ▸ allSound_importsOf settings (sound_of_accepted hms)
    · rw [bodyImports_eq settings hms]
      exact hs

/-- The imports of a controller are sound exactly if its service is no class of a body. -/
theorem allSound_serviceImport_cons (settings : Settings) (name : String) {ms : List Method}
    (h : ∀ m ∈ ms, m.Sound) :
    Import.AllSound (serviceImport settings name :: importsOf settings ms) ↔
      Naming.className name .service ∉ (importsOf settings ms).map (·.name) := by
  obtain ⟨hsound, hnodup⟩ := allSound_importsOf settings h
  have hservice : (serviceImport settings name).Sound := by
    constructor <;>
      simp [serviceImport, Naming.className, Naming.Role.suffix, Settings.serviceImportPath,
        String.append_eq_empty_iff]
  rw [Import.AllSound, List.map_cons, List.nodup_cons]
  exact ⟨fun h => h.2.1, fun h => ⟨List.forall_mem_cons.2 ⟨hservice, hsound⟩, h, hnodup⟩⟩

theorem filter_eq_singleton {n : String} {i : Import} {is : List Import} (hi : i.name = n)
    (h : n ∉ is.map (·.name)) : ((i :: is).filter fun j => j.name == n) = [i] := by
  rw [List.filter_cons_of_pos (by simp [hi]), List.filter_eq_nil_iff.2]
  rintro j hj hjn
  exact h (List.mem_map.2 ⟨j, hj, by simpa using hjn⟩)

/-- The operations of a controller that may be there. -/
def Controller.known (c : Option Controller) : List Method := (c.map (·.methods)).getD []

/-- A controller is what the check makes of the merged operations. -/
theorem result_compileController (settings : Settings) (store : Store Controller) (g : Group) :
    (compileController settings store g).result =
      (mergePaths (fun path => .controllerMerged path g.name) g.paths
        ((Controller.known (store.find? g.name)).map MethodDraft.ofMethod)).result.bind fun out =>
          validateController (ControllerDraft.data ⟨g.name,
            ((store.find? g.name).map (·.description)).getD "", groupRoute (store.find? g.name) g,
            out, serviceImport settings g.name :: bodyImports settings out⟩) := by
  simp only [compileController, Traced.result_bind, Traced.result_liftM, Controller.known,
    drafts_known Controller.methods]

/-- A group compiles to a controller exactly if its operations merge to accepted ones, none of whose
bodies is of the service's class. -/
theorem compileController_eq_ok {settings : Settings} {store : Store Controller} {g : Group}
    {c : Controller} (hg : g.paths ≠ []) :
    (compileController settings store g).result = .ok c ↔
      g.name ≠ "" ∧ MergesTo (Controller.known (store.find? g.name)) g c.methods ∧
        Naming.className g.name .service ∉ (importsOf settings c.methods).map (·.name) ∧
        c = ⟨g.name, ((store.find? g.name).map (·.description)).getD "",
          groupRoute (store.find? g.name) g, c.methods,
          serviceImport settings g.name :: importsOf settings c.methods⟩ := by
  rw [result_compileController, bind_mergePaths_eq_ok _ hg]
  constructor
  · rintro ⟨out, hm, h⟩
    obtain ⟨hname, himports, -, hms, hc⟩ := Controller.check_draft.1 (validate_eq_ok.1 h)
    rw [bodyImports_eq settings hms] at himports hc
    exact ⟨hname, mergesTo_iff.2 ⟨out, hm, hms⟩,
      (allSound_serviceImport_cons settings g.name (sound_of_accepted hms)).1 himports, hc⟩
  · rintro ⟨hname, hmerge, hservice, hc⟩
    obtain ⟨out, hm, hms⟩ := mergesTo_iff.1 hmerge
    refine ⟨out, hm, validate_eq_ok.2 (Controller.check_draft.2 ⟨hname, ?_, ?_, hms, ?_⟩)⟩
    · rw [bodyImports_eq settings hms]
      exact (allSound_serviceImport_cons settings g.name (sound_of_accepted hms)).2 hservice
    · rw [bodyImports_eq settings hms]
      exact congrArg List.length (filter_eq_singleton rfl hservice)
    · rw [bodyImports_eq settings hms]
      exact hc

end ApiScaffold
