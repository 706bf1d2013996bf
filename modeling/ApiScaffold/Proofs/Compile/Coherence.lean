import ApiScaffold.Proofs.Compile.Scheme

/-!
# Stored services and controllers hang together

Each compilation merges new operations with those that are stored, replaces some in their place and
computes the imports again.  However many documents are compiled, in whatever order and with
whatever faults, what is stored hangs together.

* `Service.coherent_of_makes`, `Controller.coherent_of_makes`: the imports of what a group makes;
* `Compilation`, `runAll`: runs from empty stores;
* `Branch` is one of the two kinds of resources that operations are compiled into, with the store
  that it has and the scheme that it follows; `Branch.madeBy`: the compilation that made a stored
  resource;
* `stored_coherent`: names, imports and routes of everything that a run has stored.
-/

namespace ApiScaffold

open Draft

/-! ### Compiling one group -/

/-- All operations that a compilation merges: those stored already, then those of the group. -/
def givenOperations (stored : Option (List Method)) (g : Group) : List MethodDraft :=
  (stored.getD []).map MethodDraft.ofMethod ++ g.paths.flatMap (·.methods)

/-- The imports of a service name the classes of its bodies, each once, in the order of first
use. -/
def Service.Coherent (s : Service) : Prop :=
  (s.imports.map (·.name)).Nodup ∧
    s.imports.map (·.name) = (s.methods.filterMap Method.bodyType?).eraseDups

/-- The imports of a controller name its service and then the classes of its bodies, each once, in
the order of first use. -/
def Controller.Coherent (c : Controller) : Prop :=
  (c.imports.map (·.name)).Nodup ∧
    c.imports.map (·.name) = c.serviceClass :: (c.methods.filterMap Method.bodyType?).eraseDups

/-- The operations of what a group makes have different names unless one is given twice. -/
theorem Scheme.Makes.names_nodup_iff {α : Type} {k : Scheme α} {store : Store α} {g : Group} {a : α}
    (h : k.Makes store g a) :
    ((k.methods a).map (·.name)).Nodup ↔
      ¬ SpelledTwice (givenOperations ((store.find? g.name).map k.methods) g) := by
  obtain ⟨-, ms, hms, -, rfl⟩ := h
  obtain ⟨out, hout, hms⟩ := mergesTo_iff.1 hms
  rw [k.methods_build]
  exact nodup_names_iff (mergeMethods_merged hout) hms

theorem Service.coherent_of_makes {settings : Settings} {store : Store Service} {g : Group}
    {s : Service} (h : (serviceScheme settings).Makes store g s) : s.Coherent := by
  obtain ⟨-, ms, hms, -, hs⟩ := h
  have hmethods : s.methods = ms := congrArg Service.methods hs
  have himports : s.imports = importsOf settings ms := congrArg Service.imports hs
  rw [Service.Coherent, himports, hmethods, filterMap_bodyType? hms.sound, map_name_importsOf]
  exact ⟨nodup_eraseDups _, rfl⟩

/-- The route of a controller is that of the stored one, or the route of a path of its group. -/
theorem groupRoute_eq {existing : Option Controller} {g : Group} (hg : g.paths ≠ []) :
    (∃ c, existing = some c ∧ groupRoute existing g = c.path) ∨
      ∃ p ∈ g.paths, groupRoute existing g = String.ofList (Naming.baseRoute p.path.toList) := by
  obtain ⟨p, ps, hps⟩ := List.exists_cons_of_ne_nil hg
  have hfirst : groupRoute.firstRoute g = String.ofList (Naming.baseRoute p.path.toList) := by
    rw [groupRoute.firstRoute, hps]
  have hp : p ∈ g.paths := hps ▸ List.mem_cons_self ..
  cases existing with
  | none => exact Or.inr ⟨p, hp, hfirst⟩
  | some c =>
    rw [groupRoute]
    split_ifs with hc
    · exact Or.inl ⟨c, rfl, rfl⟩
    · exact Or.inr ⟨p, hp, hfirst⟩

theorem Controller.coherent_of_makes {settings : Settings} {store : Store Controller} {g : Group}
    {c : Controller} (h : (controllerScheme settings).Makes store g c) : c.Coherent := by
  obtain ⟨-, ms, hms, hservice, hc⟩ := h
  have hname : c.name = g.name := congrArg Controller.name hc
  have hmethods : c.methods = ms := congrArg Controller.methods hc
  have himports : c.imports = serviceImport settings g.name :: importsOf settings ms :=
    congrArg Controller.imports hc
  rw [Controller.Coherent, himports, hmethods, filterMap_bodyType? hms.sound,
    Controller.serviceClass, hname]
  refine ⟨((allSound_serviceImport_cons settings g.name hms.sound).2 hservice).2, ?_⟩
  rw [List.map_cons, map_name_importsOf]
  rfl

theorem Controller.path_of_makes {settings : Settings} {store : Store Controller} {g : Group}
    {c : Controller} (h : (controllerScheme settings).Makes store g c) :
    c.path = groupRoute (store.find? g.name) g := by
  obtain ⟨-, ms, -, -, rfl⟩ := h
  rfl

/-! ### Runs -/

/-- The two kinds of resources that operations are compiled into. -/
inductive Target where
  | services
  | controllers
  deriving DecidableEq, Repr

/-- A document, compiled under settings into the services or into the controllers. -/
structure Compilation where
  target : Target
  settings : Settings
  doc : Value

namespace Compilation

/-- The stores after a compilation, whether or not it comes to a fault. -/
def apply (k : Compilation) (stores : Stores) : Stores :=
  match k.target with
  | .services =>
    { stores with services := (compileServices k.settings k.doc stores.services).store }
  | .controllers =>
    { stores with controllers := (compileControllers k.settings k.doc stores.controllers).store }

/-- A group of the document. -/
def HasGroup (k : Compilation) (g : Group) : Prop :=
  ∃ groups, groupOperations k.doc = .ok groups ∧ g ∈ groups

theorem HasGroup.paths_ne {k : Compilation} {g : Group} (h : k.HasGroup g) : g.paths ≠ [] := by
  obtain ⟨groups, hgroups, hg⟩ := h
  exact (mem_groupOperations hgroups hg).1

end Compilation

/-- The stores after compilations one after the other, empty at first. -/
def runAll (run : List Compilation) : Stores :=
  run.foldl (fun stores k => k.apply stores) .empty

theorem runAll_concat (run : List Compilation) (k : Compilation) :
    runAll (run ++ [k]) = k.apply (runAll run) := by
  simp [runAll]

/-! ### Branches -/

/-- One of the two kinds of resources that operations are compiled into. -/
structure Branch (α : Type) where
  target : Target
  /-- Where its resources are stored. -/
  view : Stores → Store α
  scheme : Settings → Scheme α
  methods : α → List Method
  methods_scheme : ∀ settings, (scheme settings).methods = methods
  view_empty : (view .empty).entries = []
  /-- A compilation leaves what is stored, or runs the scheme on it. -/
  view_apply : ∀ (k : Compilation) (stores : Stores), view (k.apply stores) = view stores ∨
    k.target = target ∧ (scheme k.settings).Runs (view stores) k.doc (view (k.apply stores))

/-- Groups that are compiled by a scheme leave what is stored, or the scheme runs on it. -/
theorem compileGroups_runs {α : Type} {k : Scheme α} {stored : α → Event}
    {compile : Group → Traced α} {doc : Value} {store : Store α}
    (hcompile : ∀ g a, g.paths ≠ [] → ((compile g).result = .ok a ↔ k.Makes store g a)) :
    (compileGroups k.name stored compile doc store).store = store ∨
      k.Runs store doc (compileGroups k.name stored compile doc store).store := by
  rcases compileGroups_cases k.name stored compile doc store with
    ⟨-, -, -, -, hfault, -⟩ | ⟨-, -, -, hstore⟩
  · exact Or.inr ((compileGroups_iff hcompile).1 ⟨hfault, rfl⟩)
  · exact Or.inl hstore

/-- The branch of services. -/
def serviceBranch : Branch Service where
  target := .services
  view := (·.services)
  scheme := serviceScheme
  methods := (·.methods)
  methods_scheme _ := rfl
  view_empty := rfl
  view_apply
    | ⟨.services, _, _⟩, _ =>
      (compileGroups_runs fun _ _ => serviceScheme_makes).imp_right fun h => ⟨rfl, h⟩
    | ⟨.controllers, _, _⟩, _ => Or.inl rfl

/-- The branch of controllers. -/
def controllerBranch : Branch Controller where
  target := .controllers
  view := (·.controllers)
  scheme := controllerScheme
  methods := (·.methods)
  methods_scheme _ := rfl
  view_empty := rfl
  view_apply
    | ⟨.services, _, _⟩, _ => Or.inl rfl
    | ⟨.controllers, _, _⟩, _ =>
      (compileGroups_runs fun _ _ => controllerScheme_makes).imp_right fun h => ⟨rfl, h⟩

namespace Branch

variable {α : Type} (b : Branch α) {run : List Compilation} {e : String × α}

/-- A compilation makes a resource of a group of its document and of what is stored. -/
def Makes (k : Compilation) (stores : Stores) (g : Group) (e : String × α) : Prop :=
  k.target = b.target ∧ k.HasGroup g ∧ (b.scheme k.settings).Makes (b.view stores) g e.2 ∧
    e.1 = g.name

/-- What is stored after a compilation was stored before or is made by it. -/
theorem mem_apply {k : Compilation} {stores : Stores} (h : e ∈ (b.view (k.apply stores)).entries) :
    e ∈ (b.view stores).entries ∨ ∃ g, b.Makes k stores g e := by
  rcases b.view_apply k stores with hsame | ⟨hk, groups, as, hgroups, hall, hstore⟩
  · exact Or.inl (hsame ▸ h)
  · rw [hstore] at h
    refine (Store.mem_insertAll h).imp_right ?_
    rintro ⟨hmem, hname⟩
    obtain ⟨g, hg, hmakes⟩ := exists_of_forall₂_right hall hmem
    exact ⟨g, hk, ⟨groups, hgroups, hg⟩, hmakes, hname.trans hmakes.name_eq⟩

/-- A run makes a resource in one of its compilations. -/
def MadeBy (run : List Compilation) (e : String × α) : Prop :=
  ∃ before k after g, run = before ++ k :: after ∧ b.Makes k (runAll before) g e

variable {b}

/-- **What a run has stored was made in one of its compilations.** -/
theorem madeBy (h : e ∈ (b.view (runAll run)).entries) : b.MadeBy run e := by
  induction run using List.reverseRecOn with
  | nil =>
    rw [runAll, List.foldl_nil, b.view_empty] at h
    exact (List.not_mem_nil h).elim
  | append_singleton run k ih =>
    rw [runAll_concat] at h
    rcases b.mem_apply h with hold | ⟨g, hnew⟩
    · obtain ⟨before, k', after, g, rfl, hmakes⟩ := ih hold
      exact ⟨before, k', after ++ [k], g, by simp, hmakes⟩
    · exact ⟨run, k, [], g, rfl, hnew⟩

end Branch

/-! ### Coherence -/

/-- A route of a resource: that of a path which belongs to the resource, in one of the documents
that are compiled into controllers. -/
def RouteOf (run : List Compilation) (name route : String) : Prop :=
  ∃ k ∈ run, k.target = .controllers ∧ ∃ path, DocumentPath k.doc path ∧
    String.ofList (Naming.resourceName path.toList) = name ∧
    route = String.ofList (Naming.baseRoute path.toList)

theorem RouteOf.mono {run run' : List Compilation} {name route : String}
    (h : RouteOf run name route) (hsub : run ⊆ run') : RouteOf run' name route := by
  obtain ⟨k, hk, hroute⟩ := h
  exact ⟨k, hsub hk, hroute⟩

/-- The route of a stored controller comes from a path: its own group's, or that of the controller
which it replaced. -/
theorem routeOf_stored {run : List Compilation} {n : String} {c : Controller}
    (h : (n, c) ∈ (runAll run).controllers.entries) : RouteOf run n c.path := by
  -- The induction is on the length of the run: a controller keeps the route of an earlier one.
  induction hlen : run.length using Nat.strong_induction_on generalizing run n c with
  | _ size ih =>
    obtain ⟨before, k, after, g, rfl, hk, ⟨groups, hgroups, hg⟩, hmakes, hn⟩ :=
      controllerBranch.madeBy h
    obtain rfl : n = g.name := hn
    obtain ⟨hne, hpaths⟩ := mem_groupOperations hgroups hg
    have hroute : c.path = groupRoute ((runAll before).controllers.find? g.name) g :=
      Controller.path_of_makes hmakes
    rcases @groupRoute_eq ((runAll before).controllers.find? g.name) g hne with
      ⟨c', hc', heq⟩ | ⟨p, hp, heq⟩
    · rw [hroute, heq]
      have hless : before.length < size := by
        rw [← hlen, List.length_append, List.length_cons]
        omega
      exact (ih before.length hless (Store.mem_of_find? hc') rfl).mono (List.subset_append_left _ _)
    · obtain ⟨hdoc, hresource⟩ := hpaths p hp
      rw [hroute, heq]
      exact ⟨k, List.mem_append_right _ (List.mem_cons_self ..), hk, p.path, hdoc, hresource, rfl⟩

/-- **What a run has stored hangs together**, whatever was compiled and whatever failed. Each
resource is stored under its own name, its imports are those of its operations, and the route of a
controller is that of a path of its resource. The operations have different names except where the
merge that made the resource was given a name twice, once as a text and once in bytes. -/
theorem stored_coherent (run : List Compilation) :
    (∀ n s, (n, s) ∈ (runAll run).services.entries →
      s.name = n ∧ s.Coherent ∧
      ∃ before k after g, run = before ++ k :: after ∧ k.target = .services ∧ k.HasGroup g ∧
        (compileService k.settings (runAll before).services g).result = .ok s ∧
        ((s.methods.map (·.name)).Nodup ↔ ¬ SpelledTwice
          (givenOperations (((runAll before).services.find? n).map (·.methods)) g))) ∧
    ∀ n c, (n, c) ∈ (runAll run).controllers.entries →
      c.name = n ∧ c.Coherent ∧ RouteOf run n c.path ∧
      ∃ before k after g, run = before ++ k :: after ∧ k.target = .controllers ∧ k.HasGroup g ∧
        (compileController k.settings (runAll before).controllers g).result = .ok c ∧
        ((c.methods.map (·.name)).Nodup ↔ ¬ SpelledTwice
          (givenOperations (((runAll before).controllers.find? n).map (·.methods)) g)) := by
  constructor
  · intro n s h
    obtain ⟨before, k, after, g, hrun, hk, hg, hmakes, hn⟩ := serviceBranch.madeBy h
    obtain rfl : n = g.name := hn
    exact ⟨hmakes.name_eq, Service.coherent_of_makes hmakes, before, k, after, g, hrun, hk, hg,
      (serviceScheme_makes hg.paths_ne).2 hmakes, hmakes.names_nodup_iff⟩
  · intro n c h
    have hroute := routeOf_stored h
    obtain ⟨before, k, after, g, hrun, hk, hg, hmakes, hn⟩ := controllerBranch.madeBy h
    obtain rfl : n = g.name := hn
    exact ⟨hmakes.name_eq, Controller.coherent_of_makes hmakes, hroute, before, k, after, g, hrun,
      hk, hg, (controllerScheme_makes hg.paths_ne).2 hmakes, hmakes.names_nodup_iff⟩

/-- A request whose content is a pet. -/
def petRequest : Value := .record [("content", .record [("application/json",
  .record [("schema", .record [("$ref", .text "#/components/schemas/Pet")])])])]

/-- Two paths of pets with three operations, two of them with a body. -/
def petPaths : Value := .record [("paths", .record
  [("/pets", .record
      [("get", .record [("operationId", .text "listPets")]),
        ("post", .record [("operationId", .text "addPet"), ("requestBody", petRequest)])]),
    ("/pets/{id}", .record
      [("put", .record [("operationId", .text "setPet"), ("requestBody", petRequest)])])])]

/-- Pets are compiled into both stores; then comes a document that cannot be compiled. -/
def petRun : List Compilation :=
  [⟨.services, {}, petPaths⟩, ⟨.controllers, {}, petPaths⟩, ⟨.services, {}, .null⟩]

theorem stored_coherent_pets :
    (∃ s, ("Pet", s) ∈ (runAll petRun).services.entries ∧ s.name = "Pet" ∧ s.Coherent) ∧
      ∃ c, ("Pet", c) ∈ (runAll petRun).controllers.entries ∧ c.name = "Pet" ∧ c.Coherent ∧
        RouteOf petRun "Pet" c.path := by
  have hs : ((runAll petRun).services.find? "Pet").isSome = true := by decide +kernel
  have hc : ((runAll petRun).controllers.find? "Pet").isSome = true := by decide +kernel
  obtain ⟨s, hs⟩ := Option.isSome_iff_exists.1 hs
  obtain ⟨c, hc⟩ := Option.isSome_iff_exists.1 hc
  obtain ⟨hsname, hscoherent, -⟩ := (stored_coherent petRun).1 "Pet" s (Store.mem_of_find? hs)
  obtain ⟨hcname, hccoherent, hroute, -⟩ :=
    (stored_coherent petRun).2 "Pet" c (Store.mem_of_find? hc)
  exact ⟨⟨s, Store.mem_of_find? hs, hsname, hscoherent⟩, c, Store.mem_of_find? hc, hcname,
    hccoherent, hroute⟩

/-- A path of pets with one operation, whose name is given in bytes. -/
def bytesPath : Value := .record [("paths", .record [("/pets", .record
  [("get", .record [("operationId", .scalar (.bytes [97, 100, 100, 80, 101, 116]))])])])]

/-- Compiled twice, an operation that is named in bytes is stored twice. -/
theorem bytesPath_stored_twice :
    ∃ e ∈ (runAll [⟨.services, {}, bytesPath⟩, ⟨.services, {}, bytesPath⟩]).services.entries,
      ¬ (e.2.methods.map (·.name)).Nodup := by
  decide +kernel

end ApiScaffold
